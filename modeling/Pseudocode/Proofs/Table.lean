import Pseudocode.Table

/-!
# Declaring names in tables

A declaration adds a name that was not there and changes nothing else.
-/

namespace Pseudocode

namespace Table

variable {α : Type} {t t' : Table α} {name : String} {item : α}

/-- A name is there exactly if an item is found under it. -/
theorem has_iff : t.has name = true ↔ ∃ item, t.find? name = some item :=
  Option.isSome_iff_exists

/-- A declaration that succeeds was of a new name, and adds one entry at the end. -/
theorem declare_ok (h : t.declare name item = .ok t') :
    t.has name = false ∧ t' = { t with entries := t.entries ++ [(name, item)] } := by
  unfold declare at h
  split at h
  · cases h
  · next hhas =>
    cases h
    exact ⟨by simpa using hhas, rfl⟩

/-- What is declared stays declared. -/
theorem find?_declare_of_some (h : t.declare name item = .ok t') {other : String}
    {item' : α} (hother : t.find? other = some item') :
    t'.find? other = some item' := by
  obtain ⟨-, rfl⟩ := declare_ok h
  unfold find? at hother ⊢
  simp [List.lookup_append, hother]

/-- What was declared last is found. -/
theorem find?_declare (h : t.declare name item = .ok t') :
    t'.find? name = some item := by
  obtain ⟨hhas, rfl⟩ := declare_ok h
  have hnone : t.find? name = none := by simpa [has] using hhas
  unfold find? at hnone ⊢
  simp [List.lookup_append, hnone]

/-- A declaration adds no name but its own. -/
theorem has_of_declare (h : t.declare name item = .ok t') {other : String}
    (hother : t'.has other = true) : t.has other = true ∨ other = name := by
  obtain ⟨-, rfl⟩ := declare_ok h
  by_cases heq : other = name
  · exact .inr heq
  · left
    have hfalse : (other == name) = false := by simpa using heq
    unfold has find? at hother ⊢
    rw [List.lookup_append, List.lookup_cons, hfalse] at hother
    simpa using hother

/-- Looking a name up succeeds exactly with what is found under it. -/
theorem lookup_ok : t.lookup name = .ok item ↔ t.find? name = some item := by
  unfold lookup
  cases t.find? name with
  | none => simp
  | some item' => simp

/-- What is found was declared before or just now. -/
theorem find?_of_declare (h : t.declare name item = .ok t') {other : String} {item' : α}
    (hother : t'.find? other = some item') :
    t.find? other = some item' ∨ item' = item := by
  by_cases heq : other = name
  · subst heq
    rw [find?_declare h] at hother
    exact .inr (Option.some.inj hother).symm
  · obtain ⟨old, hold⟩ := has_iff.mp
      ((has_of_declare h (has_iff.mpr ⟨_, hother⟩)).resolve_right heq)
    rw [find?_declare_of_some h hold] at hother
    exact .inl (hother ▸ hold)

end Table

end Pseudocode
