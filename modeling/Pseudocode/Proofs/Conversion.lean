import Mathlib.Data.List.Forall2
import Pseudocode.Proofs.Conformance
import Pseudocode.Proofs.Reader

/-!
# Conversion is a projection

`Value.convert` is what stands at every declared type: at assignments, arguments,
results and answers.  Here it is compared with a description of its own: which value
another one becomes (`Value.Yields`), and with which fault it is refused
(`Value.Refuses`).  What comes out is of the type, keeps the shape of an array, unset
slots included, and is left alone by a second conversion; what is of the type already
is left alone by the first.

Integers wrap as they are made, so that a conversion could lose digits without notice.
It does not, since every reading as an integer is checked against 32 bits before
(`isInt32_toInteger`).
-/

namespace Pseudocode

/-! ## Readings as integers

Whatever is read as an integer has 32 bits, so that it need not be checked again. -/

/-- An integer of 32 bits is one, whatever it is read from. -/
theorem Scalar.isInt32_toInteger {s : Scalar} {n : Int} (h : s.toInteger = .ok n) :
    isInt32 n = true := by
  cases s with
  | integer w =>
    cases h
    unfold isInt32
    rw [Bool.and_eq_true, decide_eq_true_iff, decide_eq_true_iff]
    exact ⟨Int32.le_toInt w, Int.le_of_lt_add_one (Int32.toInt_lt w)⟩
  | boolean b =>
    cases h
    cases b <;> rfl
  | real x =>
    unfold Scalar.toInteger at h
    dsimp only at h
    split at h
    · cases h
    · split at h
      · next hfits =>
        cases h
        exact hfits
      · cases h
  | string t =>
    unfold Scalar.toInteger at h
    dsimp only at h
    split at h
    · split at h
      · cases h
      · split at h
        · next hfits =>
          cases h
          exact hfits
        · cases h
    · cases h

namespace Value

/-- What is read as an integer has 32 bits. -/
theorem isInt32_toInteger {v : Value} {n : Int} (h : v.toInteger = .ok n) :
    isInt32 n = true := by
  cases v with
  | scalar s => exact s.isInt32_toInteger h
  | array _ | bare => cases h

/-! ## What a value becomes

The specification of a conversion says of a value what it becomes, and what it fails for; the
two exclude each other. -/

/-- What a value becomes as a scalar of a kind: its representation in that kind; an
integer is just the number that was read. -/
inductive Becomes (v : Value) : ScalarKind → Value → Prop where
  | integer {n : Int} {w : Int32} (read : v.toInteger = .ok n) (same : w.toInt = n) :
      Becomes v .integer (.scalar (.integer w))
  | real {x : Float} (read : v.toReal = .ok x) : Becomes v .real (.scalar (.real x))
  | boolean {b : Bool} (read : v.toBoolean = .ok b) :
      Becomes v .boolean (.scalar (.boolean b))
  | string {s : String} (read : v.toText = .ok s) :
      Becomes v .string (.scalar (.string s))

/-- What a value becomes is a scalar. -/
theorem Becomes.scalar {v v' : Value} {kind : ScalarKind} (h : v.Becomes kind v') :
    ∃ s, v' = .scalar s := by
  cases h with
  | integer | real | boolean | string => exact ⟨_, rfl⟩

/-- The fault with which a value is no scalar of a kind. -/
def Fails (v : Value) (kind : ScalarKind) (fault : Fault) : Prop :=
  match kind with
  | .integer => v.toInteger = .error fault
  | .real => v.toReal = .error fault
  | .boolean => v.toBoolean = .error fault
  | .string => v.toText = .error fault

/-- What a value becomes as one of a declared type.  An array becomes one of as many
slots, unset where it is unset itself. -/
inductive Yields (t : DeclaredType) : Value → Value → Prop where
  | scalar {v v' : Value} (plain : t.length = none) (becomes : v.Becomes t.kind v') :
      Yields t v v'
  | array {slots slots' : List (Option Value)} (length : t.length = some (slots.length : Int))
      (each : List.Forall₂ (Option.Rel (Becomes · t.kind)) slots slots') :
      Yields t (.array slots) (.array slots')

/-- The fault with which a value is none of a declared type: the one of the value as a
scalar; that it is no array, or none of the length; or the one of its first slot that is
set and fails as a scalar. -/
inductive Refuses (t : DeclaredType) : Value → Fault → Prop where
  | scalar {v : Value} {fault : Fault} (plain : t.length = none)
      (fails : v.Fails t.kind fault) : Refuses t v fault
  | noArray {v : Value} {length : Int} (array : t.length = some length)
      (other : ∀ slots, v ≠ .array slots) : Refuses t v (v.failure (.kind .array))
  | length {slots : List (Option Value)} {length : Int} (array : t.length = some length)
      (differs : (slots.length : Int) ≠ length) :
      Refuses t (.array slots)
        ((Value.array slots).failure (.declared t) (.lengthMismatch slots.length))
  | slot {before behind : List (Option Value)} {v : Value} {fault : Fault}
      (length : t.length = some ((before ++ some v :: behind).length : Int))
      (earlier : ∀ item, some item ∈ before → ∃ item', item.Becomes t.kind item')
      (fails : v.Fails t.kind fault) :
      Refuses t (.array (before ++ some v :: behind)) fault

/-! ## Scalars -/

/-- A conversion to a scalar gives what the value becomes. -/
theorem convertScalar_ok_iff {v v' : Value} {kind : ScalarKind} :
    v.convertScalar kind = .ok v' ↔ v.Becomes kind v' := by
  cases kind with
  | integer =>
    unfold convertScalar
    rw [map_eq_ok]
    constructor
    · rintro ⟨n, hread, rfl⟩
      -- what was read has 32 bits, so that making the value wraps nothing
      obtain ⟨hleast, hgreatest⟩ : Int32.minValue.toInt ≤ n ∧ n ≤ Int32.maxValue.toInt := by
        simpa only [isInt32, Bool.and_eq_true, decide_eq_true_iff] using
          isInt32_toInteger hread
      exact .integer hread
        (Int32.toInt_ofInt_of_le hleast (Int.lt_add_one_of_le hgreatest))
    · rintro ⟨hread, rfl⟩
      exact ⟨_, hread, by rw [Value.integer, Int32.ofInt_toInt]⟩
  | real =>
    unfold convertScalar
    rw [map_eq_ok]
    exact ⟨fun ⟨x, hread, he⟩ => he ▸ .real hread, fun (.real hread) => ⟨_, hread, rfl⟩⟩
  | boolean =>
    unfold convertScalar
    rw [map_eq_ok]
    exact ⟨fun ⟨b, hread, he⟩ => he ▸ .boolean hread, fun (.boolean hread) => ⟨_, hread, rfl⟩⟩
  | string =>
    unfold convertScalar
    rw [map_eq_ok]
    exact ⟨fun ⟨s, hread, he⟩ => he ▸ .string hread, fun (.string hread) => ⟨_, hread, rfl⟩⟩

/-- A conversion to a scalar fails with the fault of the reading. -/
theorem convertScalar_error_iff {v : Value} {kind : ScalarKind} {fault : Fault} :
    v.convertScalar kind = .error fault ↔ v.Fails kind fault := by
  cases kind with
  | integer | real | boolean | string => exact map_eq_error

/-- A scalar is of one kind only. -/
theorem IsScalarOf.kind {s : Scalar} {kind : ScalarKind}
    (h : (Value.scalar s).IsScalarOf kind) : s.kind = kind := by
  have hof : s.IsOf kind := h
  cases s with
  | integer _ =>
    cases kind with
    | integer => rfl
    | real | boolean | string => exact hof.elim
  | real _ =>
    cases kind with
    | real => rfl
    | integer | boolean | string => exact hof.elim
  | boolean _ =>
    cases kind with
    | boolean => rfl
    | integer | real | string => exact hof.elim
  | string _ =>
    cases kind with
    | string => rfl
    | integer | real | boolean => exact hof.elim

/-- A scalar of the kind becomes itself. -/
theorem IsScalarOf.becomes {v : Value} {kind : ScalarKind} (h : v.IsScalarOf kind) :
    v.Becomes kind v := by
  obtain ⟨s, rfl⟩ := h.scalar
  obtain rfl := h.kind
  cases s with
  | integer w => exact .integer rfl rfl
  | real x => exact .real rfl
  | boolean b => exact .boolean rfl
  | string s => exact .string (by rw [toText, Scalar.toText])

/-! ## Slots

An array is converted slot by slot, and a slot that is not set stays so.  The first slot that
cannot be converted decides what the failure is. -/

/-- A set slot in front is converted, and then the others are. -/
theorem convertSlots_some {kind : ScalarKind} {v : Value} {rest : List (Option Value)} :
    convertSlots kind (some v :: rest) =
      match v.convertScalar kind with
      | .error fault => .error fault
      | .ok item => (convertSlots kind rest).map (some item :: ·) := by
  rw [convertSlots]
  cases v.convertScalar kind with
  | error fault => rfl
  | ok item => cases convertSlots kind rest <;> rfl

/-- An unset slot in front stays as it is. -/
theorem convertSlots_none {kind : ScalarKind} {rest : List (Option Value)} :
    convertSlots kind (none :: rest) = (convertSlots kind rest).map (none :: ·) := by
  rw [convertSlots]
  cases convertSlots kind rest <;> rfl

/-- Slots are converted one by one. -/
theorem convertSlots_ok_iff {kind : ScalarKind} {slots slots' : List (Option Value)} :
    convertSlots kind slots = .ok slots' ↔
      List.Forall₂ (Option.Rel (Becomes · kind)) slots slots' := by
  induction slots generalizing slots' with
  | nil => simp [convertSlots, eq_comm]
  | cons slot rest ih =>
    cases slot with
    | none =>
      rw [convertSlots_none, map_eq_ok]
      constructor
      · rintro ⟨rest', hrest, rfl⟩
        exact .cons .none (ih.mp hrest)
      · rintro (_ | ⟨⟨⟩, hrest⟩)
        exact ⟨_, ih.mpr hrest, rfl⟩
    | some v =>
      rw [convertSlots_some]
      constructor
      · intro h
        split at h
        · cases h
        · next item hitem =>
          obtain ⟨rest', hrest, rfl⟩ := map_eq_ok.mp h
          exact .cons (.some (convertScalar_ok_iff.mp hitem)) (ih.mp hrest)
      · rintro (_ | ⟨⟨hitem⟩, hrest⟩)
        rw [convertScalar_ok_iff.mpr hitem]
        exact map_eq_ok.mpr ⟨_, ih.mpr hrest, rfl⟩

/-- Slots fail with the fault of the first set one that fails. -/
theorem convertSlots_error_iff {kind : ScalarKind} {slots : List (Option Value)}
    {fault : Fault} :
    convertSlots kind slots = .error fault ↔
      ∃ before v behind, slots = before ++ some v :: behind ∧
        (∀ item, some item ∈ before → ∃ item', item.Becomes kind item') ∧
        v.Fails kind fault := by
  induction slots with
  | nil => simp [convertSlots]
  | cons slot rest ih =>
    cases slot with
    | none =>
      rw [convertSlots_none, map_eq_error, ih]
      constructor
      · rintro ⟨before, v, behind, rfl, hbefore, hfails⟩
        exact ⟨none :: before, v, behind, rfl, by simpa using hbefore, hfails⟩
      · rintro ⟨_ | ⟨slot, before⟩, v, behind, hslots, hbefore, hfails⟩
        · cases hslots
        · cases hslots
          exact ⟨before, v, behind, rfl,
            fun item hmem => hbefore item (List.mem_cons_of_mem _ hmem), hfails⟩
    | some first =>
      rw [convertSlots_some]
      constructor
      · intro h
        split at h
        · next hfirst =>
          cases h
          exact ⟨[], first, rest, rfl, by simp, convertScalar_error_iff.mp hfirst⟩
        · next item hitem =>
          obtain ⟨before, v, behind, rfl, hbefore, hfails⟩ := ih.mp (map_eq_error.mp h)
          refine ⟨some first :: before, v, behind, rfl, fun item' hmem => ?_, hfails⟩
          obtain heq | hmem := List.mem_cons.mp hmem
          · cases heq
            exact ⟨item, convertScalar_ok_iff.mp hitem⟩
          · exact hbefore item' hmem
      · rintro ⟨_ | ⟨slot, before⟩, v, behind, hslots, hbefore, hfails⟩
        · cases hslots
          rw [convertScalar_error_iff.mpr hfails]
        · cases hslots
          obtain ⟨item, hitem⟩ := hbefore first (List.mem_cons_self ..)
          rw [convertScalar_ok_iff.mpr hitem]
          exact map_eq_error.mpr (ih.mpr ⟨before, v, behind, rfl,
            fun item hmem => hbefore item (List.mem_cons_of_mem _ hmem), hfails⟩)

/-! ## Declared types

Only arrays of the declared length become arrays.  A scalar type reads a value as its kind does,
and an array can be read as a truth value or a text, not as a number. -/

/-- The conversion of an array to an array: the lengths are compared first. -/
theorem convert_array {slots : List (Option Value)} {t : DeclaredType} {length : Int}
    (ht : t.length = some length) :
    (Value.array slots).convert t =
      if (slots.length : Int) = length then (convertSlots t.kind slots).map .array
      else .error ((Value.array slots).failure (.declared t)
        (.lengthMismatch slots.length)) := by
  unfold convert
  rw [ht]
  simp only [toSlots, bind, Except.bind]
  split
  · rfl
  · next heq =>
    rw [if_pos (not_not.mp heq)]
    cases convertSlots t.kind slots <;> rfl

/-- Nothing but an array converts to an array. -/
theorem convert_noArray {v : Value} {t : DeclaredType} {length : Int}
    (ht : t.length = some length) (hv : ∀ slots, v ≠ .array slots) :
    v.convert t = .error (v.failure (.kind .array)) := by
  unfold convert
  rw [ht]
  cases v with
  | array slots => exact absurd rfl (hv slots)
  | scalar _ | bare => rfl

/-- The conversion to a type that is no array is that to its kind. -/
theorem convert_plain {v : Value} {t : DeclaredType} (ht : t.length = none) :
    v.convert t = v.convertScalar t.kind := by
  unfold convert
  rw [ht]

/-- A conversion gives what the value becomes. -/
theorem convert_ok_iff {v v' : Value} {t : DeclaredType} :
    v.convert t = .ok v' ↔ Yields t v v' := by
  cases ht : t.length with
  | none =>
    rw [convert_plain ht, convertScalar_ok_iff]
    refine ⟨.scalar ht, fun h => ?_⟩
    cases h with
    | scalar _ hbecomes => exact hbecomes
    | array hlength _ => cases ht.symm.trans hlength
  | some length =>
    constructor
    · intro h
      cases v with
      | array slots =>
        rw [convert_array ht] at h
        split at h
        · next hlength =>
          obtain ⟨slots', hslots, rfl⟩ := map_eq_ok.mp h
          exact .array (hlength ▸ ht) (convertSlots_ok_iff.mp hslots)
        · cases h
      | scalar _ | bare =>
        rw [convert_noArray ht (by simp)] at h
        cases h
    · intro h
      cases h with
      | scalar hplain _ => cases ht.symm.trans hplain
      | array hlength heach =>
        rw [convert_array hlength, if_pos rfl]
        exact map_eq_ok.mpr ⟨_, convertSlots_ok_iff.mpr heach, rfl⟩

/-- A conversion fails with the fault with which the value is refused. -/
theorem convert_error_iff {v : Value} {t : DeclaredType} {fault : Fault} :
    v.convert t = .error fault ↔ Refuses t v fault := by
  cases ht : t.length with
  | none =>
    rw [convert_plain ht, convertScalar_error_iff]
    refine ⟨.scalar ht, fun h => ?_⟩
    cases h with
    | scalar _ hfails => exact hfails
    | noArray hlength _ | length hlength _ | slot hlength _ _ =>
      cases ht.symm.trans hlength
  | some length =>
    constructor
    · intro h
      cases v with
      | array slots =>
        rw [convert_array ht] at h
        split at h
        · next hlength =>
          obtain ⟨before, v, behind, rfl, hearlier, hfails⟩ :=
            convertSlots_error_iff.mp (map_eq_error.mp h)
          exact .slot (hlength ▸ ht) hearlier hfails
        · next hlength =>
          cases h
          exact .length ht hlength
      | scalar _ | bare =>
        rw [convert_noArray ht (by simp)] at h
        cases h
        exact .noArray ht (by simp)
    · intro h
      cases h with
      | scalar hplain _ => cases ht.symm.trans hplain
      | noArray _ hother => exact convert_noArray ht hother
      | length hlength hdiffers => rw [convert_array hlength, if_neg hdiffers]
      | slot hlength hearlier hfails =>
        rw [convert_array hlength, if_pos rfl]
        exact map_eq_error.mpr
          (convertSlots_error_iff.mpr ⟨_, _, _, rfl, hearlier, hfails⟩)

/-- What is of a declared type already becomes itself. -/
theorem Conforms.yields {v : Value} {t : DeclaredType} (h : v.Conforms t) :
    Yields t v v := by
  unfold Conforms at h
  cases ht : t.length with
  | none =>
    rw [ht] at h
    exact .scalar ht h.becomes
  | some length =>
    rw [ht] at h
    cases v with
    | scalar _ | bare => exact h.elim
    | array slots =>
      obtain ⟨hlength, heach⟩ := h
      refine .array (hlength ▸ ht) (List.forall₂_same.mpr fun slot hslot => ?_)
      cases slot with
      | none => exact .none
      | some content => exact .some (heach _ hslot content rfl).becomes

/-- An array that becomes an array keeps its unset slots. -/
theorem unset_iff {kind : ScalarKind} {slots slots' : List (Option Value)}
    (h : List.Forall₂ (Option.Rel (Becomes · kind)) slots slots') (index : Nat) :
    slots'[index]? = some none ↔ slots[index]? = some none := by
  induction h generalizing index with
  | nil => rfl
  | cons hslot _ ih =>
    cases index with
    | zero => cases hslot <;> simp
    | succ index => simpa using ih index

/-- Conversion is a projection onto the declared type.  What it gives is of the type,
is what the value becomes, with as many slots and the same ones unset, and is converted
to itself; a value of the type is given back; and a value is refused only as
`Refuses` tells. -/
theorem convert_projects (v : Value) (t : DeclaredType) :
    (∀ v', v.convert t = .ok v' →
      v'.Conforms t ∧ Yields t v v' ∧ v'.convert t = .ok v' ∧
        ∀ slots', v' = .array slots' → ∃ slots, v = .array slots ∧
          slots'.length = slots.length ∧
          ∀ index : Nat, slots'[index]? = some none ↔ slots[index]? = some none) ∧
      (v.Conforms t → v.convert t = .ok v) ∧
      ∀ fault, v.convert t = .error fault ↔ Refuses t v fault := by
  have hfixed : ∀ {v : Value}, v.Conforms t → v.convert t = .ok v :=
    fun h => convert_ok_iff.mpr h.yields
  refine ⟨fun v' h => ?_, hfixed, fun fault => convert_error_iff⟩
  have hyields := convert_ok_iff.mp h
  refine ⟨conforms_convert h, hyields, hfixed (conforms_convert h), ?_⟩
  rintro slots' rfl
  cases hyields with
  | scalar _ hbecomes =>
    obtain ⟨s, hs⟩ := hbecomes.scalar
    cases hs
  | array _ heach => exact ⟨_, rfl, heach.length_eq.symm, unset_iff heach⟩

/-- An array of integers is left as it is, and text that is no number is refused. -/
theorem convert_projects_slots :
    (Value.array [some (.integer 1), none]).Conforms ⟨.integer, some 2⟩ ∧
      (Value.array [some (.integer 1), none]).convert ⟨.integer, some 2⟩ =
        .ok (.array [some (.integer 1), none]) ∧
      (Value.array [none, some (.string "x"), some .bare]).convert ⟨.integer, some 3⟩ =
        .error ((Scalar.string "x").failure (.kind (.scalar .integer)) (.notANumber "x")) := by
  have hconforms : (Value.array [some (.integer 1), none]).Conforms ⟨.integer, some 2⟩ :=
    (convert_projects (.array [some (.boolean true), none]) ⟨.integer, some 2⟩).1 _ rfl |>.1
  have hfails : (Value.string "x").Fails .integer
      ((Scalar.string "x").failure (.kind (.scalar .integer)) (.notANumber "x")) := rfl
  have hrefuses : Refuses ⟨.integer, some 3⟩
      (.array ([none] ++ some (.string "x") :: [some .bare])) _ := .slot rfl (by simp) hfails
  exact ⟨hconforms, (convert_projects _ _).2.1 hconforms,
    ((convert_projects _ _).2.2 _).mpr hrefuses⟩

end Value

end Pseudocode
