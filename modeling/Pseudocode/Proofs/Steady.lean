import Pseudocode.Proofs.Exec

/-!
# What every computation of a running program keeps

Whatever a running program does, and from whatever state it starts, three things
hold of it.  The stack of frames is as it was when the computation ends, with a
result or without (`Kept`); only open scopes hold variables (`Machine.Tidy`); and
an open scope loses none of its declarations, changes none of their types and stays
inside the same scopes (`Later`).  A computation that is suspended was on its way:
with more ticks it goes on from just that state, and without the suspension it
would have ended the same way.

All of it is one property of computations, `Exec.Steady`, kept by sequences,
loops, bodies of functions and new scopes.  That the interpreter has it, one level
after the other, is shown for `Level.running`.

The last part is what makes it possible to speak of the states of a run at all: they are the
last states of runs with fewer ticks, and more ticks do not lead elsewhere.  For a loop this
takes an argument.  Its rounds are bounded by the ticks that it began with; with more ticks
the bound is another one, but a round uses up a tick, so that neither bound is ever met
(`repeatWhile_limit`).  That is why guards have to spend a tick (`Spends`).

Most steps touch neither frames nor variables (`Quiet`) and are steady for that reason.
Of the others, only a new scope changes the stack, and it changes it back (`steady_within`).
-/

namespace Pseudocode

namespace Machine

/-- Only open scopes hold variables, and each is open once. -/
structure Tidy (m : Machine) : Prop where
  once : m.frames.Nodup
  made : ∀ id ∈ m.frames, id < m.environment.scopes.size
  closed : ∀ id, id ∉ m.frames → (m.environment.scope id).vars.entries = []

/-- One state may come after another: no scope is opened again, the same scopes lie
around each, and one that is open in both has kept its declarations. -/
structure Later (m m' : Machine) : Prop where
  more : m.environment.scopes.size ≤ m'.environment.scopes.size
  stays : ∀ id < m.environment.scopes.size, id ∈ m'.frames → id ∈ m.frames
  keeps : ∀ id < m.environment.scopes.size, id ∈ m'.frames →
    (m.environment.scope id).vars.signature <+:
      (m'.environment.scope id).vars.signature
  outer : ∀ id < m.environment.scopes.size,
    (m'.environment.scope id).outer = (m.environment.scope id).outer

/-- A computation that ended left the stack of frames as it was. -/
structure Kept (m m' : Machine) : Prop where
  tidy : m'.Tidy
  later : m.Later m'
  frames : m'.frames = m.frames
  ticks : m'.ticks ≤ m.ticks

/-- A state may come after itself. -/
theorem Later.refl (m : Machine) : m.Later m where
  more := Nat.le_refl _
  stays _ _ h := h
  keeps _ _ _ := List.prefix_refl _
  outer _ _ := rfl

/-- Later than later is later. -/
theorem Later.trans {m m' m'' : Machine} (h : m.Later m') (h' : m'.Later m'') :
    m.Later m'' where
  more := Nat.le_trans h.more h'.more
  stays id hlt hid :=
    h.stays id hlt (h'.stays id (Nat.lt_of_lt_of_le hlt h.more) hid)
  keeps id hlt hid := by
    have hlt' := Nat.lt_of_lt_of_le hlt h.more
    exact (h.keeps id hlt (h'.stays id hlt' hid)).trans (h'.keeps id hlt' hid)
  outer id hlt :=
    (h'.outer id (Nat.lt_of_lt_of_le hlt h.more)).trans (h.outer id hlt)

/-- What is kept by two computations is kept by both. -/
theorem Kept.trans {m m' m'' : Machine} (h : m.Kept m') (h' : m'.Kept m'') :
    m.Kept m'' where
  tidy := h'.tidy
  later := h.later.trans h'.later
  frames := h'.frames.trans h.frames
  ticks := Nat.le_trans h'.ticks h.ticks

/-- A state that differs in nothing that frames and variables depend on. -/
structure Alike (m m' : Machine) : Prop where
  environment : m'.environment = m.environment
  frames : m'.frames = m.frames

/-- A state with the same frames and variables counts as later. -/
theorem Alike.later {m m' : Machine} (h : m.Alike m') : m.Later m' := by
  obtain ⟨henv, hframes⟩ := h
  constructor <;> simp [henv, hframes]

/-- It is tidy if the other is. -/
theorem Alike.tidy {m m' : Machine} (h : m.Alike m') (hm : m.Tidy) : m'.Tidy := by
  obtain ⟨henv, hframes⟩ := h
  obtain ⟨honce, hmade, hclosed⟩ := hm
  constructor <;> simpa [henv, hframes]

/-- It keeps everything, if no ticks were added. -/
theorem Alike.kept {m m' : Machine} (h : m.Alike m') (hm : m.Tidy)
    (hticks : m'.ticks ≤ m.ticks) : m.Kept m' :=
  ⟨h.tidy hm, h.later, h.frames, hticks⟩

/-- The same state with more ticks left. -/
def granted (m : Machine) (k : Nat) : Machine := { m with ticks := m.ticks + k }

/-- More ticks make no difference to frames and variables. -/
theorem alike_granted (m : Machine) (k : Nat) : m.Alike (m.granted k) := ⟨rfl, rfl⟩

end Machine

namespace Exec

open Machine

variable {α β : Type}

/-- The state in which a computation ends. -/
def final (x : Exec α) (m : Machine) : Machine :=
  match x m with
  | .ok _ m' => m'
  | .error _ m' => m'

/-- A computation keeps the frames and the declarations of open scopes.  More
ticks make no difference to one that ends, and one that is suspended goes on
from where it stood. -/
def Steady (x : Exec α) : Prop :=
  ∀ m : Machine, m.Tidy →
    match x m with
    | .ok a m' =>
      m.Kept m' ∧ ∀ k, x (m.granted k) = .ok a (m'.granted k)
    | .error .suspended m' =>
      m'.Tidy ∧ m.Later m' ∧ ∀ k, m'.Later (x.final (m.granted k))
    | .error halt m' =>
      m.Kept m' ∧ ∀ k, x (m.granted k) = .error halt (m'.granted k)

/-- However it ends, a state that is tidy and later is left. -/
theorem Steady.final {x : Exec α} (h : x.Steady) {m : Machine} (hm : m.Tidy) :
    (x.final m).Tidy ∧ m.Later (x.final m) := by
  have hx := h m hm
  unfold Exec.final
  split at hx <;> rename_i heq <;> rw [heq]
  · exact ⟨hx.1.tidy, hx.1.later⟩
  · exact ⟨hx.1, hx.2.1⟩
  · exact ⟨hx.1.tidy, hx.1.later⟩

/-- A computation that goes on as a steady one does from a state that is kept. -/
theorem Steady.behind {x y : Exec α} (hy : y.Steady) {m m₁ : Machine}
    (hkept : m.Kept m₁) (hgoes : ∀ k, x (m.granted k) = y (m₁.granted k)) :
    match x m with
    | .ok a m' =>
      m.Kept m' ∧ ∀ k, x (m.granted k) = .ok a (m'.granted k)
    | .error .suspended m' =>
      m'.Tidy ∧ m.Later m' ∧ ∀ k, m'.Later (x.final (m.granted k))
    | .error halt m' =>
      m.Kept m' ∧ ∀ k, x (m.granted k) = .error halt (m'.granted k) := by
  have hy' := hy m₁ hkept.tidy
  -- without more ticks, too
  have hsame : x m = y m₁ := hgoes 0
  rw [hsame]
  cases hend : y m₁ with
  | ok a m₂ =>
    simp only [hend] at hy' ⊢
    exact ⟨hkept.trans hy'.1, fun k => (hgoes k).trans (hy'.2 k)⟩
  | error halt m₂ =>
    simp only [hend] at hy' ⊢
    cases halt with
    | suspended =>
      refine ⟨hy'.1, hkept.later.trans hy'.2.1, fun k => ?_⟩
      have hk := hy'.2.2 k
      unfold Exec.final at hk ⊢
      rwa [hgoes k]
    | fault _ | returned _ =>
      exact ⟨hkept.trans hy'.1, fun k => (hgoes k).trans (hy'.2 k)⟩

/-- Steady computations one after the other are steady. -/
theorem Steady.bind {x : Exec α} {f : α → Exec β} (hx : x.Steady)
    (hf : ∀ a, (f a).Steady) : (x >>= f).Steady := by
  intro m hm
  have hx' := hx m hm
  cases hend : x m with
  | ok a m₁ =>
    simp only [hend] at hx'
    exact (hf a).behind hx'.1 fun k => by rw [bind_apply, hx'.2 k]
  | error halt m₁ =>
    rw [bind_apply]
    simp only [hend] at hx' ⊢
    cases halt with
    | suspended =>
      -- with more ticks the first part goes on, and then perhaps the second
      refine ⟨hx'.1, hx'.2.1, fun k => ?_⟩
      have hk := hx'.2.2 k
      have htidy := (hx.final ((alike_granted m k).tidy hm)).1
      unfold Exec.final at hk htidy ⊢
      rw [bind_apply]
      cases hrun : x (m.granted k) with
      | error halt m₂ => simpa only [hrun] using hk
      | ok a m₂ =>
        simp only [hrun] at hk htidy ⊢
        exact hk.trans ((hf a).final htidy).2
    | fault _ | returned _ =>
      exact ⟨hx'.1, fun k => by rw [bind_apply, hx'.2 k]⟩

/-- A computation that goes on from the outcome of another one, and only passes on
its suspension. -/
theorem Steady.attempt {x : Exec α} {f : Except Halt α → Exec β} (hx : x.Steady)
    (hf : ∀ outcome, outcome ≠ .error .suspended → (f outcome).Steady)
    (hsuspended : f (.error .suspended) = throw .suspended) :
    (x.attempt >>= f).Steady := by
  intro m hm
  have hx' := hx m hm
  cases hend : x m with
  | ok a m₁ =>
    simp only [hend] at hx'
    refine (hf (.ok a) (by simp)).behind hx'.1 fun k => ?_
    rw [attempt_bind_apply, hx'.2 k]
  | error halt m₁ =>
    simp only [hend] at hx'
    cases halt with
    | suspended =>
      have hpassed : (x.attempt >>= f) m = .error .suspended m₁ := by
        rw [attempt_bind_apply, hend]
        exact congrFun hsuspended m₁
      rw [hpassed]
      refine ⟨hx'.1, hx'.2.1, fun k => ?_⟩
      have hk := hx'.2.2 k
      have htidy := (hx.final ((alike_granted m k).tidy hm)).1
      unfold Exec.final at hk htidy ⊢
      rw [attempt_bind_apply]
      cases hrun : x (m.granted k) with
      | ok a m₂ =>
        simp only [hrun] at hk htidy ⊢
        exact hk.trans ((hf (.ok a) (by simp)).final htidy).2
      | error halt m₂ =>
        simp only [hrun] at hk htidy ⊢
        cases halt with
        | suspended =>
          rw [hsuspended]
          exact hk
        | fault _ | returned _ => exact hk.trans ((hf (.error _) (by simp)).final htidy).2
    | fault fault =>
      refine (hf (.error (.fault fault)) (by simp)).behind hx'.1 fun k => ?_
      rw [attempt_bind_apply, hx'.2 k]
    | returned result =>
      refine (hf (.error (.returned result)) (by simp)).behind hx'.1 fun k => ?_
      rw [attempt_bind_apply, hx'.2 k]

/-! ## Computations that leave frames and variables alone

These are steady because nothing that steadiness is about changes. -/

/-- A computation that neither touches frames and variables nor uses ticks. -/
def Quiet (x : Exec α) : Prop :=
  ∀ m : Machine,
    match x m with
    | .ok a m' =>
      m.Alike m' ∧ m'.ticks = m.ticks ∧ ∀ k, x (m.granted k) = .ok a (m'.granted k)
    | .error .suspended _ => False
    | .error halt m' =>
      m.Alike m' ∧ m'.ticks = m.ticks ∧
        ∀ k, x (m.granted k) = .error halt (m'.granted k)

/-- What touches neither frames nor variables nor ticks is steady. -/
theorem Quiet.steady {x : Exec α} (h : x.Quiet) : x.Steady := by
  intro m hm
  have hx := h m
  cases hrun : x m with
  | ok a m' =>
    simp only [hrun] at hx ⊢
    exact ⟨hx.1.kept hm (Nat.le_of_eq hx.2.1), hx.2.2⟩
  | error halt m' =>
    simp only [hrun] at hx ⊢
    cases halt with
    | suspended => exact hx.elim
    | fault _ | returned _ => exact ⟨hx.1.kept hm (Nat.le_of_eq hx.2.1), hx.2.2⟩

theorem quiet_pure (a : α) : (pure a : Exec α).Quiet :=
  fun _ => ⟨⟨rfl, rfl⟩, rfl, fun _ => rfl⟩

theorem quiet_fail (fault : Fault) : (fail fault : Exec α).Quiet :=
  fun _ => ⟨⟨rfl, rfl⟩, rfl, fun _ => rfl⟩

theorem quiet_returned (result : Option Operand) :
    (throw (.returned result) : Exec α).Quiet :=
  fun _ => ⟨⟨rfl, rfl⟩, rfl, fun _ => rfl⟩

/-- A change of other parts of the state is quiet. -/
theorem quiet_modify {change : Machine → Machine}
    (halike : ∀ m : Machine, m.Alike (change m)) (hticks : ∀ m, (change m).ticks = m.ticks)
    (hgranted : ∀ m k, change (m.granted k) = (change m).granted k) :
    (modify change : Exec Unit).Quiet := by
  intro m
  refine ⟨halike m, hticks m, fun k => ?_⟩
  show EStateM.Result.ok _ (change (m.granted k)) = _
  rw [hgranted]

/-- To keep a value is quiet: it may make a cell, but no variable. -/
theorem quiet_keep (v : Value) : (keep v).Quiet := by
  cases v <;> exact fun m => ⟨⟨rfl, rfl⟩, rfl, fun _ => rfl⟩

/-- To write a slot is quiet, and so is to fail at it. -/
theorem quiet_setSlot (address : Nat) (index : Int) (content : Value) :
    (setSlot address index content).Quiet := by
  intro m
  have hsame : ∀ k, (m.granted k).store = m.store := fun _ => rfl
  simp only [setSlot_apply, hsame]
  cases Value.setSlotAt (m.store.slots address) index (some content) with
  | ok slots => exact ⟨⟨rfl, rfl⟩, rfl, fun k => rfl⟩
  | error fault => exact ⟨⟨rfl, rfl⟩, rfl, fun k => rfl⟩

theorem steady_pure (a : α) : (pure a : Exec α).Steady := (quiet_pure a).steady

theorem steady_fail (fault : Fault) : (fail fault : Exec α).Steady :=
  (quiet_fail fault).steady

theorem steady_lift (x : Except Fault α) : (lift x).Steady := by
  cases x with
  | ok a => exact steady_pure a
  | error fault => exact steady_fail fault

/-- What depends on the state, but not on its ticks. -/
theorem steady_get {f : Machine → Exec α} (hf : ∀ m, (f m).Steady)
    (hgranted : ∀ m k, f (m.granted k) = f m) :
    (get >>= f : Exec α).Steady := by
  intro m hm
  have hfm := hf m m hm
  simp only [Exec.final, get_bind_apply, hgranted] at hfm ⊢
  exact hfm

theorem steady_reveal (operand : Operand) : (reveal operand).Steady :=
  steady_get (fun _ => steady_pure _) fun _ _ => rfl

theorem steady_activeScope : activeScope.Steady := by
  refine steady_get (fun m => ?_) fun _ _ => rfl
  split
  · exact steady_fail _
  · exact steady_pure _

theorem steady_moduleScope (name : String) : (moduleScope name).Steady := by
  refine steady_get (fun m => ?_) fun _ _ => rfl
  split
  · exact steady_fail _
  · exact steady_pure _

theorem steady_emit (event : Event) : (emit event).Steady := by
  have hpush : (modify fun m => { m with log := m.log.push event }
      : Exec Unit).Quiet :=
    quiet_modify (fun _ => ⟨rfl, rfl⟩) (fun _ => rfl) fun _ _ => rfl
  exact hpush.steady

/-- A trace is steady if its message does not depend on the ticks. -/
theorem steady_trace {level : Nat} {message : Machine → Except Fault String}
    (h : ∀ m k, message (m.granted k) = message m) :
    (trace level message).Steady := by
  refine steady_get (fun m => ?_) fun m k => ?_
  · split
    · exact (steady_lift _).bind fun text => steady_emit _
    · exact steady_pure ()
  · rw [h]
    rfl

/-- To take an answer is steady. -/
theorem steady_nextAnswer (name : String) (t : DeclaredType) :
    (nextAnswer name t).Steady := by
  rw [nextAnswer_eq]
  refine steady_get (fun m => ?_) fun _ _ => rfl
  have hanswer : ∀ fault, (takeAnswer fault m.answers).Steady := by
    intro fault
    cases m.answers with
    | nil => exact steady_fail _
    | cons answer answers =>
      have hmodify : (modify fun m => { m with answers } : Exec Unit).Quiet :=
        quiet_modify (fun _ => ⟨rfl, rfl⟩) (fun _ => rfl) fun _ _ => rfl
      exact hmodify.steady.bind fun _ => steady_pure _
  dsimp only
  split
  · exact (steady_emit _).bind fun _ => hanswer _
  · exact hanswer _

/-! ## Ticks

With more ticks a computation that ended ends the same way and leaves more of them.  One that
was suspended goes on, and where it stood then is a state on the way. -/

/-- A tick changes nothing but the ticks and what is to be looked up next. -/
theorem alike_tick (next : Option Access) (m : Machine) :
    m.Alike ((tick next).final m) := by
  unfold Exec.final tick
  cases m.ticks <;> exact ⟨rfl, rfl⟩

theorem steady_tick (next : Option Access) : (tick next).Steady := by
  intro m hm
  cases hticks : m.ticks with
  | zero =>
    -- suspended here; with more ticks it only stands at the same place
    have hpaused : m.Alike { m with pending := next } := ⟨rfl, rfl⟩
    simp only [tick_of_zero hticks]
    refine ⟨hpaused.tidy hm, hpaused.later, fun k => Alike.later ?_⟩
    have halike := alike_tick next (m.granted k)
    exact ⟨halike.environment, halike.frames⟩
  | succ ticks =>
    have hspent : m.Alike { m with ticks } := ⟨rfl, rfl⟩
    simp only [tick_of_succ hticks]
    refine ⟨hspent.kept hm (by simp [hticks]), fun k => ?_⟩
    have hgranted : (m.granted k).ticks = (ticks + k) + 1 := by
      show m.ticks + k = _
      omega
    rw [tick_of_succ hgranted]
    rfl

/-- To look up a variable takes a tick, and tells of it if it is suspended. -/
theorem steady_variableIn (scope : Nat) (target : Occurrence) :
    (variableIn scope target).Steady := by
  have hlookup : (get >>= fun m : Machine =>
      lift (m.environment.lookup scope target.name)).Steady :=
    steady_get (fun _ => steady_lift _) fun _ _ => rfl
  exact (steady_tick _).bind fun _ => hlookup

/-- A conversion that fails is kept, and nothing else changes. -/
theorem steady_settle (c : Conversion) (x : Except Fault α) : (settle c x).Steady := by
  have hrefuse : (refuse c).Quiet :=
    quiet_modify (fun _ => ⟨rfl, rfl⟩) (fun _ => rfl) fun _ _ => rfl
  cases x with
  | ok a => exact steady_pure a
  | error fault => exact hrefuse.steady.bind fun _ => steady_fail fault

/-- To convert and keep a value is steady. -/
theorem steady_convert (operand : Operand) (t : DeclaredType) :
    (convert operand t).Steady := by
  refine (steady_reveal operand).bind fun v => ?_
  exact (steady_settle _ _).bind fun v => (quiet_keep v).steady

/-- A computation that succeeds only if it uses up a tick. -/
def Spends (x : Exec α) : Prop :=
  ∀ m : Machine, m.Tidy → ∀ a m', x m = .ok a m' → m'.ticks < m.ticks

/-- What begins with a tick spends one. -/
theorem spends_tick_bind {f : Unit → Exec α} (hf : (f ()).Steady) :
    (tick >>= f).Spends := by
  intro m hm a m' h
  rw [bind_apply] at h
  cases hticks : m.ticks with
  | zero => simp [tick_of_zero hticks] at h
  | succ ticks =>
    simp only [tick_of_succ hticks] at h
    have hspent : m.Alike { m with ticks } := ⟨rfl, rfl⟩
    have hrest := hf _ (hspent.tidy hm)
    simp only [h] at hrest
    exact Nat.lt_succ_of_le hrest.1.ticks

/-- What spends a tick first spends one. -/
theorem Spends.bind {x : Exec α} {f : α → Exec β} (hspends : x.Spends)
    (hx : x.Steady) (hf : ∀ a, (f a).Steady) : (x >>= f).Spends := by
  intro m hm b m' h
  rw [bind_apply] at h
  have hx' := hx m hm
  cases hrun : x m with
  | error halt m₁ => simp [hrun] at h
  | ok a m₁ =>
    simp only [hrun] at h hx'
    have hrest := hf a m₁ hx'.1.tidy
    simp only [h] at hrest
    exact Nat.lt_of_le_of_lt hrest.1.ticks (hspends m hm a m₁ hrun)

/-- What spends a tick in the end spends one. -/
theorem Steady.bind_spends {x : Exec α} {f : α → Exec β} (hx : x.Steady)
    (hf : ∀ a, (f a).Spends) : (x >>= f).Spends := by
  intro m hm b m' h
  rw [bind_apply] at h
  have hx' := hx m hm
  cases hrun : x m with
  | error halt m₁ => simp [hrun] at h
  | ok a m₁ =>
    simp only [hrun] at h hx'
    exact Nat.lt_of_lt_of_le (hf a m₁ hx'.1.tidy b m' h) hx'.1.ticks

/-! ## Loops

The rounds of a loop are bounded by the ticks at its beginning.  More ticks are another bound,
but neither is met, since each round uses up one. -/

/-- So many rounds of a loop are steady. -/
theorem steady_repeatWhile {guard : Exec Bool} {body : Exec Unit}
    (hguard : guard.Steady) (hbody : body.Steady) :
    ∀ limit, (repeatWhile guard body limit).Steady
  | 0 => fun m hm =>
    ⟨hm, Later.refl m, fun k => (alike_granted m k).later⟩
  | limit + 1 => hguard.bind fun holds => by
    split
    · exact hbody.bind fun _ => steady_repeatWhile hguard hbody limit
    · exact steady_pure ()

/-- A round uses up a tick, so a limit above the ticks is never met. -/
theorem repeatWhile_limit {guard : Exec Bool} {body : Exec Unit}
    (hspends : guard.Spends) (hguard : guard.Steady) (hbody : body.Steady)
    (j : Nat) : ∀ {limit m}, Machine.Tidy m → m.ticks < limit →
      repeatWhile guard body (limit + j) m = repeatWhile guard body limit m := by
  intro limit
  induction limit with
  | zero => exact fun _ h => absurd h (Nat.not_lt_zero _)
  | succ limit ih =>
    intro m hm hlimit
    have hsucc : limit + 1 + j = limit + j + 1 := by omega
    rw [hsucc, repeatWhile, repeatWhile, bind_apply, bind_apply]
    have hguard' := hguard m hm
    cases hrun : guard m with
    | error halt m₁ => rfl
    | ok holds m₁ =>
      -- the guard has used up a tick, so one round less is enough for the rest
      simp only [hrun] at hguard'
      have hless := hspends m hm holds m₁ hrun
      cases holds with
      | false => rfl
      | true =>
        show (body >>= fun _ => repeatWhile guard body (limit + j)) m₁ =
          (body >>= fun _ => repeatWhile guard body limit) m₁
        rw [bind_apply, bind_apply]
        have hbody' := hbody m₁ hguard'.1.tidy
        cases hrun' : body m₁ with
        | error halt m₂ => rfl
        | ok _ m₂ =>
          simp only [hrun'] at hbody'
          have hticks := hbody'.1.ticks
          exact ih hbody'.1.tidy (by omega)

/-- A loop is steady if its guard spends a tick. -/
theorem steady_loop {guard : Exec Bool} {body : Exec Unit}
    (hspends : guard.Spends) (hguard : guard.Steady) (hbody : body.Steady) :
    (loop guard body).Steady := by
  intro m hm
  -- with more ticks the limit is higher, so compare both at the higher limit
  have hlimit : ∀ k, loop guard body m =
      repeatWhile guard body (m.ticks + k + 1) m := by
    intro k
    have hadd := repeatWhile_limit hspends hguard hbody k hm (Nat.lt_succ_self _)
    rw [show m.ticks + k + 1 = m.ticks + 1 + k by omega, hadd]
    rfl
  have hgranted : ∀ k, loop guard body (m.granted k) =
      repeatWhile guard body (m.ticks + k + 1) (m.granted k) := fun _ => rfl
  have hsteady := fun k =>
    steady_repeatWhile hguard hbody (m.ticks + k + 1) m hm
  have hsteady₀ := hsteady 0
  rw [← hlimit 0] at hsteady₀
  cases hrun : loop guard body m with
  | ok a m' =>
    simp only [hrun] at hsteady₀ ⊢
    refine ⟨hsteady₀.1, fun k => ?_⟩
    have hk := hsteady k
    rw [← hlimit k, hrun] at hk
    rw [hgranted]
    exact hk.2 k
  | error halt m' =>
    simp only [hrun] at hsteady₀ ⊢
    cases halt with
    | suspended =>
      refine ⟨hsteady₀.1, hsteady₀.2.1, fun k => ?_⟩
      have hk := hsteady k
      rw [← hlimit k, hrun] at hk
      have hlater := hk.2.2 k
      unfold Exec.final at hlater ⊢
      rw [hgranted]
      exact hlater
    | fault _ | returned _ =>
      refine ⟨hsteady₀.1, fun k => ?_⟩
      have hk := hsteady k
      rw [← hlimit k, hrun] at hk
      rw [hgranted]
      exact hk.2 k

/-! ## Variables -/

/-- Changing the table of an open scope keeps everything if it keeps the
declarations in it. -/
theorem kept_modifyVariables {m : Machine} {id : Nat}
    {change : Variables → Variables} (hm : m.Tidy) (hid : id ∈ m.frames)
    (hsignature : (m.environment.scope id).vars.signature <+:
      (change (m.environment.scope id).vars).signature) :
    m.Kept { m with environment := m.environment.modifyVariables id change } := by
  have hscope := Environment.scope_modifyVariables change (hm.made id hid)
  -- the other scopes are untouched, and no scope is opened or closed
  refine ⟨⟨hm.once, ?_, ?_⟩, ⟨?_, fun _ _ h => h, ?_, fun i _ => ?_⟩, rfl, Nat.le_refl _⟩
  · intro i hi
    rw [Environment.size_modifyVariables]
    exact hm.made i hi
  · intro i hi
    have hne : i ≠ id := fun h => hi (h ▸ hid)
    rw [Environment.scope_modifyVariables_ne change hne]
    exact hm.closed i hi
  · rewrite [Environment.size_modifyVariables]
    exact Nat.le_refl _
  · intro i _ _
    by_cases hi : i = id
    · subst hi
      simpa only [hscope] using hsignature
    · rewrite [Environment.scope_modifyVariables_ne change hi]
      exact List.prefix_refl _
  · exact Environment.outer_modify change

/-- A declaration that is executed keeps the declarations before it. -/
theorem steady_declareHere (t : DeclaredType) (name : String) (held : Operand) :
    (declareHere t name held).Steady := by
  intro m hm
  cases hframes : m.frames with
  | nil =>
    have hnone : ∀ m : Machine, m.frames = [] → declareHere t name held m =
        .error (.fault (.execution .noActiveScope)) m := by
      intro m h
      unfold declareHere activeScope
      rw [bind_apply, get_bind_apply, h]
      rfl
    rw [hnone m hframes]
    exact ⟨Alike.kept ⟨rfl, rfl⟩ hm (Nat.le_refl _),
      fun k => hnone (m.granted k) hframes⟩
  | cons scope rest =>
    have hmore : ∀ k, (m.granted k).frames = scope :: rest := fun _ => hframes
    have hmem : scope ∈ m.frames := by simp [hframes]
    rw [declareHere_apply hframes]
    refine ⟨kept_modifyVariables hm hmem ?_, fun k => declareHere_apply (hmore k)⟩
    -- a new name is added behind the others, an old one keeps its type
    rw [Variables.signature_put]
    split
    · exact List.prefix_refl _
    · exact List.prefix_append ..

/-- To bind a variable keeps its type. -/
theorem steady_rebind (scope : Nat) (name : String) (held : Operand) :
    (rebind scope name held).Steady := by
  intro m hm
  have hsame : ∀ k, (m.granted k).environment = m.environment := fun _ => rfl
  simp only [rebind_apply, hsame]
  cases howner : m.environment.owner? scope name with
  | none => exact ⟨Alike.kept ⟨rfl, rfl⟩ hm (Nat.le_refl _), fun k => rfl⟩
  | some id =>
    -- a scope that holds the name is not a closed one
    have hid : id ∈ m.frames := Decidable.byContradiction fun hid =>
      Variables.entries_ne_nil_of_has (has_of_owner? howner) (hm.closed id hid)
    refine ⟨kept_modifyVariables hm hid ?_, fun k => rfl⟩
    rewrite [Variables.signature_rebind]
    exact List.prefix_refl _

/-! ## Scopes

The scope that is opened is a new one, and it is closed in the end, however that comes; so the
frames are the same again and the variables in it are gone. -/

/-- A state with a new scope is tidy. -/
theorem tidy_entered {m : Machine} (hm : m.Tidy) (parent : Option Nat)
    (name : String) (vars : Variables) : (entered m parent name vars).Tidy := by
  -- the number of the new scope has not been used before
  have hfresh : m.environment.scopes.size ∉ m.frames := fun h =>
    Nat.lt_irrefl _ (hm.made _ h)
  refine ⟨List.nodup_cons.mpr ⟨hfresh, hm.once⟩, ?_, ?_⟩
  · intro id hid
    show id < (m.environment.enter parent name vars).2.scopes.size
    rw [Environment.size_enter]
    obtain rfl | hid := List.mem_cons.mp hid
    · exact Nat.lt_succ_self _
    · exact Nat.lt_succ_of_lt (hm.made id hid)
  · intro id hid
    show ((m.environment.enter parent name vars).2.scope id).vars.entries = []
    have hne : id ≠ m.environment.scopes.size := fun h => hid (by simp [entered, h])
    rw [Environment.scope_enter_ne hne]
    exact hm.closed id fun h => hid (List.mem_cons_of_mem _ h)

/-- A new scope takes nothing away. -/
theorem later_entered (m : Machine) (parent : Option Nat) (name : String)
    (vars : Variables) : m.Later (entered m parent name vars) := by
  refine ⟨?_, ?_, ?_, ?_⟩
  · show _ ≤ (m.environment.enter parent name vars).2.scopes.size
    rw [Environment.size_enter]
    exact Nat.le_succ _
  · intro id hlt hid
    obtain rfl | hid := List.mem_cons.mp hid
    · -- the new scope is not among those that were made before
      exact absurd hlt (Nat.lt_irrefl _)
    · exact hid
  · intro id hlt _
    show _ <+: ((m.environment.enter parent name vars).2.scope id).vars.signature
    rewrite [Environment.scope_enter_ne (Nat.ne_of_lt hlt)]
    exact List.prefix_refl _
  · intro id hlt
    show ((m.environment.enter parent name vars).2.scope id).outer = _
    rw [Environment.scope_enter_ne (Nat.ne_of_lt hlt)]

/-- To close a scope does not look at the ticks. -/
theorem popScope_granted (m : Machine) (k : Nat) :
    (m.granted k).popScope = m.popScope.granted k := by
  cases hframes : m.frames with
  | nil =>
    have hgranted : (m.granted k).frames = [] := hframes
    unfold popScope
    rw [hframes, hgranted]
  | cons scope rest =>
    have hgranted : (m.granted k).frames = scope :: rest := hframes
    rw [popScope_apply hframes, popScope_apply hgranted]
    rfl

/-- To close the innermost scope empties it, so the state stays tidy. -/
theorem tidy_popScope {m : Machine} (hm : m.Tidy) : m.popScope.Tidy := by
  cases hframes : m.frames with
  | nil =>
    unfold popScope
    rw [hframes]
    exact hm
  | cons scope rest =>
    obtain ⟨honce, hmade, hclosed⟩ := hm
    rw [hframes] at honce hmade hclosed
    rw [popScope_apply hframes]
    refine ⟨(List.nodup_cons.mp honce).2, ?_, ?_⟩
    · intro id hid
      show id < (m.environment.modifyVariables scope _).scopes.size
      rw [Environment.size_modifyVariables]
      exact hmade id (List.mem_cons_of_mem _ hid)
    · intro id hid
      show ((m.environment.modifyVariables scope _).scope id).vars.entries = []
      by_cases hne : id = scope
      · subst hne
        rw [Environment.scope_modifyVariables _ (hmade id (List.mem_cons_self ..))]
        rfl
      · rw [Environment.scope_modifyVariables_ne _ hne]
        exact hclosed id fun h => (List.mem_cons.mp h).elim hne hid

/-- To close a scope takes nothing away from those that are open still. -/
theorem later_popScope {m : Machine} (hm : m.Tidy) : m.Later m.popScope := by
  cases hframes : m.frames with
  | nil =>
    unfold popScope
    rw [hframes]
    exact Later.refl m
  | cons scope rest =>
    have honce := hm.once
    rw [hframes] at honce
    rw [popScope_apply hframes]
    refine ⟨?_, ?_, ?_, ?_⟩
    · show _ ≤ (m.environment.modifyVariables scope _).scopes.size
      rewrite [Environment.size_modifyVariables]
      exact Nat.le_refl _
    · intro id _ hid
      rw [hframes]
      exact List.mem_cons_of_mem _ hid
    · intro id _ hid
      have hne : id ≠ scope := fun h => (List.nodup_cons.mp honce).1 (h ▸ hid)
      -- the scope that is cleared is open no longer
      show _ <+: ((m.environment.modifyVariables scope _).scope id).vars.signature
      rewrite [Environment.scope_modifyVariables_ne _ hne]
      exact List.prefix_refl _
    · intro id _
      exact Environment.outer_modify _

/-- A tick at the end makes no difference to frames. -/
theorem Steady.thenTick {x : Exec α} (h : x.Steady) : x.thenTick.Steady := by
  refine h.attempt (fun outcome hne => ?_) rfl
  match outcome with
  | .ok a => exact (steady_tick _).bind fun _ => steady_pure a
  | .error .suspended => exact absurd rfl hne
  | .error (.returned result) =>
    exact (steady_tick _).bind fun _ => (quiet_returned result).steady
  | .error (.fault fault) => exact (steady_tick _).bind fun _ => steady_fail fault

/-- A new scope is closed again, so a computation in it keeps the frames. -/
theorem steady_within {parent : Option Nat} {name : String} {vars : Variables}
    {x : Nat → Exec α} (hx : ∀ scope, (x scope).Steady) :
    (within parent name vars x).Steady := by
  intro m hm
  have hin := tidy_entered hm parent name vars
  have hlater := later_entered m parent name vars
  have hgranted : ∀ k, entered (m.granted k) parent name vars =
      (entered m parent name vars).granted k := fun _ => rfl
  have hkept : ∀ m', (entered m parent name vars).Kept m' →
      m.Kept m'.popScope := by
    intro m' h
    refine ⟨tidy_popScope h.tidy,
      hlater.trans (h.later.trans (later_popScope h.tidy)), ?_, ?_⟩
    · rw [popScope_apply h.frames]
    · rw [popScope_apply h.frames]
      exact h.ticks
  have hsize : ∀ k, (m.granted k).environment.scopes.size =
      m.environment.scopes.size := fun _ => rfl
  have hbody := (hx m.environment.scopes.size).thenTick
  simp only [within_apply, hgranted, hsize, Exec.final, andThenTidy]
  generalize (x m.environment.scopes.size).thenTick = body at hbody ⊢
  have hrun := hbody _ hin
  cases hend : body (entered m parent name vars) with
  | ok a m' =>
    simp only [hend] at hrun ⊢
    refine ⟨hkept m' hrun.1, fun k => ?_⟩
    rw [hrun.2 k]
    simp only [popScope_granted]
  | error halt m' =>
    simp only [hend] at hrun ⊢
    cases halt with
    | suspended =>
      refine ⟨hrun.1, hlater.trans hrun.2.1, fun k => ?_⟩
      -- what goes on with more ticks may come as far as to close the scope
      have hk := hrun.2.2 k
      have htidy := (hbody.final ((alike_granted _ k).tidy hin)).1
      unfold Exec.final at hk htidy
      cases hmore : body ((entered m parent name vars).granted k) with
      | ok a m'' =>
        simp only [hmore] at hk htidy ⊢
        exact hk.trans (later_popScope htidy)
      | error halt m'' =>
        simp only [hmore] at hk htidy ⊢
        cases halt with
        | suspended => exact hk
        | fault _ | returned _ => exact hk.trans (later_popScope htidy)
    | fault _ | returned _ =>
      refine ⟨hkept m' hrun.1, fun k => ?_⟩
      rw [hrun.2 k]
      simp only [popScope_granted]

/-! ## Ends of computations -/

/-- What the body of a function gives back, or how it fails, is the result of
the call; only its suspension is passed on as it is. -/
theorem steady_runBody {body : Exec Unit} (h : body.Steady) (function : String) :
    (Level.runBody function body).Steady := by
  refine h.attempt (fun outcome hne => ?_) rfl
  match outcome with
  | .ok () => exact steady_pure none
  | .error (.returned result) => exact steady_pure result
  | .error (.fault fault) => exact steady_fail _
  | .error .suspended => exact absurd rfl hne

/-- Closing the trace at the end makes no difference to frames. -/
theorem steady_closeTrace {x : Exec α} (h : x.Steady) :
    (x.andThenTidy closeTrace).Steady := by
  have halike : ∀ m : Machine, m.Alike m.closeTrace := fun _ => ⟨rfl, rfl⟩
  have hkept : ∀ {m m' : Machine}, m.Kept m' → m.Kept m'.closeTrace :=
    fun hk => hk.trans ((halike _).kept hk.tidy (Nat.le_refl _))
  intro m hm
  have hx := h m hm
  simp only [Exec.final, andThenTidy]
  cases hend : x m with
  | ok a m' =>
    simp only [hend] at hx ⊢
    exact ⟨hkept hx.1, fun k => by rw [hx.2 k]; rfl⟩
  | error halt m' =>
    simp only [hend] at hx ⊢
    cases halt with
    | suspended =>
      refine ⟨hx.1, hx.2.1, fun k => ?_⟩
      have hk := hx.2.2 k
      unfold Exec.final at hk
      cases hmore : x (m.granted k) with
      | ok a m'' =>
        simp only [hmore] at hk ⊢
        exact hk.trans (halike m'').later
      | error halt m'' =>
        simp only [hmore] at hk ⊢
        cases halt with
        | suspended => exact hk
        | fault _ | returned _ => exact hk.trans (halike m'').later
    | fault _ | returned _ => exact ⟨hkept hx.1, fun k => by rw [hx.2 k]; rfl⟩

/-- A list of steady computations is steady. -/
theorem steady_mapM {f : α → Exec β} (hf : ∀ a, (f a).Steady) :
    ∀ as : List α, (as.mapM f).Steady
  | [] => steady_pure []
  | a :: as => by
    rw [List.mapM_cons]
    exact (hf a).bind fun _ => (steady_mapM hf as).bind fun _ => steady_pure _

theorem steady_forM {f : α → Exec Unit} (hf : ∀ a, (f a).Steady) :
    ∀ as : List α, (as.forM f).Steady
  | [] => steady_pure ()
  | a :: as => (hf a).bind fun _ => steady_forM hf as

end Exec

end Pseudocode
