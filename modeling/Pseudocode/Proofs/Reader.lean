import Pseudocode.Token.Stream

/-!
# What a reader did when it succeeded

A reader, and a builder of programs as well, passes a state on and may fail.
The lemmas here take a successful run apart: a sequence succeeded exactly if its
parts did, one after the other (`bind_ok`), and each of the small steps on
tokens succeeded in exactly one way (`take_ok`, `sees_ok`, `look_ok`).  They are
equivalences, so the same lemmas put a run together again.
-/

namespace Pseudocode

/-- What can be computed of a result, of which it is not said what it is. -/
theorem exists_ok {ε α : Type} {x : Except ε α} (holds : α → Bool)
    (h : x.toOption.any holds = true) : ∃ a, x = .ok a ∧ holds a = true := by
  cases x with
  | error e => cases h
  | ok a => exact ⟨a, rfl, h⟩

section

variable {ε α β : Type} {x : Except ε α} {f : α → β}

/-- A mapped result is there exactly if the result is, and is what becomes of that. -/
theorem map_eq_ok {b : β} : x.map f = .ok b ↔ ∃ a, x = .ok a ∧ f a = b := by
  cases x with
  | error e => simp [Except.map]
  | ok a => simp [Except.map]

/-- Mapping a result leaves a failure as it is. -/
theorem map_eq_error {e : ε} : x.map f = .error e ↔ x = .error e := by
  cases x with
  | error e => simp [Except.map]
  | ok a => simp [Except.map]

end

section Stateful

variable {σ ε α β : Type}

/-- A sequence succeeds exactly if its parts do, one after the other. -/
theorem bind_ok {x : StateT σ (Except ε) α} {f : α → StateT σ (Except ε) β}
    {s : σ} {r : β × σ} :
    (x >>= f) s = .ok r ↔ ∃ a s₁, x s = .ok (a, s₁) ∧ f a s₁ = .ok r := by
  show (x s >>= fun p => f p.1 p.2) = _ ↔ _
  cases x s with
  | error e => simp [bind, Except.bind]
  | ok p =>
    obtain ⟨a, s₁⟩ := p
    constructor
    · intro h
      exact ⟨a, s₁, rfl, h⟩
    · rintro ⟨a', s', h, hf⟩
      cases h
      exact hf

/-- To read nothing gives the value and leaves what is ahead. -/
theorem pure_ok {a : α} {s : σ} {r : α × σ} :
    (pure a : StateT σ (Except ε) α) s = .ok r ↔ r = (a, s) := by
  show Except.ok (a, s) = _ ↔ _
  rw [Except.ok.injEq, eq_comm]

/-- A step that fails has not succeeded in any way. -/
theorem throw_ok {e : ε} {s : σ} {r : α × σ} :
    (throw e : StateT σ (Except ε) α) s = .ok r ↔ False := by
  show Except.error e = _ ↔ _
  simp

theorem get_ok {s : σ} {r : σ × σ} :
    (get : StateT σ (Except ε) σ) s = .ok r ↔ r = (s, s) := by
  show Except.ok (s, s) = _ ↔ _
  rw [Except.ok.injEq, eq_comm]

theorem set_ok {s s₁ : σ} {r : PUnit × σ} :
    (set s₁ : StateT σ (Except ε) PUnit) s = .ok r ↔ r = (⟨⟩, s₁) := by
  show Except.ok (PUnit.unit, s₁) = _ ↔ _
  rw [Except.ok.injEq, eq_comm]

theorem modify_ok {f : σ → σ} {s : σ} {r : PUnit × σ} :
    (modify f : StateT σ (Except ε) PUnit) s = .ok r ↔ r = (⟨⟩, f s) := by
  show Except.ok (PUnit.unit, f s) = _ ↔ _
  rw [Except.ok.injEq, eq_comm]

/-- A result that may be a failure, as a step that leaves the state alone. -/
theorem lift_ok {x : Except ε α} {s : σ} {r : α × σ} :
    (liftM x : StateT σ (Except ε) α) s = .ok r ↔ x = .ok r.1 ∧ r.2 = s := by
  obtain ⟨a, s₁⟩ := r
  cases x with
  | error e =>
    show Except.error e = _ ↔ _
    simp
  | ok b =>
    show Except.ok (b, s) = _ ↔ _
    simp [eq_comm]

/-- A choice is made before the state is looked at, so it can be made on the run. -/
theorem ite_apply {p : Prop} [Decidable p] {x y : StateT σ (Except ε) α}
    {s : σ} : (if p then x else y) s = if p then x s else y s := by
  split <;> rfl

end Stateful

namespace Reader

open Token

/-- A token is taken exactly if it is the first and of one of the kinds. -/
theorem take_ok {kinds : List Kind} (hend : Kind.endOfInput ∉ kinds)
    {ahead rest : List Token} {t : Token} :
    take kinds ahead = .ok (t, rest) ↔ ahead = t :: rest ∧ t.kind ∈ kinds := by
  unfold take Token.take
  cases ahead with
  | nil => simp [first, ending, hend]
  | cons u us =>
    by_cases hu : u.kind ∈ kinds
    · have hne : u.kind ≠ .endOfInput := fun he => hend (he ▸ hu)
      simp only [first, List.contains_iff_mem, hu, if_true, hne, if_false,
        List.tail_cons, Except.ok.injEq, Prod.mk.injEq, List.cons.injEq]
      constructor
      · rintro ⟨rfl, rfl⟩
        exact ⟨⟨rfl, rfl⟩, hu⟩
      · rintro ⟨h, -⟩
        exact h
    · simp only [first, List.contains_iff_mem, hu, if_false, List.cons.injEq,
        reduceCtorEq, false_iff, not_and]
      rintro ⟨rfl, -⟩
      exact hu

/-- Where one kind is asked for, it is the kind of the token that is taken. -/
theorem take_one_ok {kind : Kind} (hend : kind ≠ .endOfInput)
    {ahead rest : List Token} {t : Token} :
    take [kind] ahead = .ok (t, rest) ↔ ahead = t :: rest ∧ t.kind = kind := by
  rw [take_ok (by simpa using hend.symm), List.mem_singleton]

/-- To see whether a token is ahead takes nothing. -/
theorem sees_ok {kinds : List Kind} {ahead rest : List Token} {b : Bool} :
    sees kinds ahead = .ok (b, rest) ↔ b = firstIs kinds ahead ∧ rest = ahead := by
  show Except.ok (firstIs kinds ahead, ahead) = _ ↔ _
  simp [eq_comm]

/-- To look at the token ahead takes nothing. -/
theorem look_ok {ahead rest : List Token} {t : Token} :
    look ahead = .ok (t, rest) ↔ t = first ahead ∧ rest = ahead := by
  show Except.ok (first ahead, ahead) = _ ↔ _
  simp [eq_comm]

end Reader

end Pseudocode
