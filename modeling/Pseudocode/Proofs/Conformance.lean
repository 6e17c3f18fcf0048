import Pseudocode.Store
import Pseudocode.Value.Arithmetic

/-!
# Values of a declared type

What it means for a value to be one of a declared type (`Value.Conforms`), and that
`Value.convert` gives nothing else, whatever it is given.  So no more has to be known of a
value before it is assigned, passed or returned than that it is converted.

An operand is a value or a cell that holds an array.  Which type a cell is of is not in the
store; it is a list beside it (`Store.Typed`), which only ever gets longer.  To keep a value
makes a cell for an array and nothing for a scalar, and to write into a cell needs an array
of its own type, so that what was kept stays what it was declared to be
(`Store.Typed.keep`, `Store.Typed.write`).

Not every value can be made by a program: an array inside an array cannot, and nothing that
is bare.  `Ordinary` says so, and what is ordinary can be shown as text.
-/

namespace Pseudocode

/-- Whether a scalar is one of a kind; an integer has 32 bits. -/
def Scalar.IsOf : Scalar → ScalarKind → Prop
  | .integer n, .integer => -2147483648 ≤ n.toInt ∧ n.toInt ≤ 2147483647
  | .real _, .real | .boolean _, .boolean | .string _, .string => True
  | _, _ => False

namespace Value

/-- Whether a value is a scalar of a kind. -/
def IsScalarOf (kind : ScalarKind) : Value → Prop
  | .scalar s => s.IsOf kind
  | _ => False

/-- Whether a value is one of a declared type: a scalar of the kind, or an array of
so many slots, each unset or a scalar of the kind. -/
def Conforms (v : Value) (t : DeclaredType) : Prop :=
  match t.length, v with
  | none, v => v.IsScalarOf t.kind
  | some length, .array slots =>
    (slots.length : Int) = length ∧
      ∀ slot ∈ slots, ∀ content, slot = some content → content.IsScalarOf t.kind
  | some _, _ => False

/-- Whatever is made an integer has 32 bits. -/
theorem isScalarOf_integer (n : Int) : (integer n).IsScalarOf .integer :=
  ⟨Int32.le_toInt _, Int.le_of_lt_add_one (Int32.toInt_lt _)⟩

/-- What is converted to a scalar is of its kind. -/
theorem isScalarOf_convertScalar {v v' : Value} {kind : ScalarKind}
    (h : v.convertScalar kind = .ok v') : v'.IsScalarOf kind := by
  have hmap : ∀ {α : Type} {x : Except Fault α} (make : α → Value),
      (∀ a, (make a).IsScalarOf kind) → x.map make = .ok v' → v'.IsScalarOf kind := by
    intro α x make hmake hx
    cases x with
    | error fault => cases hx
    | ok a =>
      cases hx
      exact hmake a
  cases kind with
  | integer => exact hmap integer isScalarOf_integer h
  | real => exact hmap real (fun _ => trivial) h
  | boolean => exact hmap boolean (fun _ => trivial) h
  | string => exact hmap string (fun _ => trivial) h

/-- Converting slots keeps their number and makes each set one a scalar. -/
theorem convertSlots_ok {kind : ScalarKind} :
    ∀ {slots slots' : List (Option Value)}, convertSlots kind slots = .ok slots' →
      slots'.length = slots.length ∧
        ∀ slot ∈ slots', ∀ content, slot = some content → content.IsScalarOf kind
  | [], _, h => by
    cases h
    exact ⟨rfl, by simp⟩
  | none :: rest, slots', h => by
    unfold convertSlots at h
    cases hrest : convertSlots kind rest with
    | error fault => simp [hrest, bind, Except.bind] at h
    | ok more =>
      rw [hrest] at h
      cases h
      obtain ⟨hlength, hmore⟩ := convertSlots_ok hrest
      refine ⟨by simp [hlength], fun slot hslot content hcontent => ?_⟩
      obtain rfl | hslot := List.mem_cons.mp hslot
      · cases hcontent
      · exact hmore slot hslot content hcontent
  | some v :: rest, slots', h => by
    unfold convertSlots at h
    cases hitem : v.convertScalar kind with
    | error fault => simp [hitem, bind, Except.bind] at h
    | ok item =>
      cases hrest : convertSlots kind rest with
      | error fault => simp [hitem, hrest, bind, Except.bind] at h
      | ok more =>
        rw [hitem, hrest] at h
        cases h
        obtain ⟨hlength, hmore⟩ := convertSlots_ok hrest
        refine ⟨by simp [hlength], fun slot hslot content hcontent => ?_⟩
        obtain rfl | hslot := List.mem_cons.mp hslot
        · cases hcontent
          exact isScalarOf_convertScalar hitem
        · exact hmore slot hslot content hcontent

/-- Whatever is converted to a declared type is of that type. -/
theorem conforms_convert {v v' : Value} {t : DeclaredType}
    (h : v.convert t = .ok v') : v'.Conforms t := by
  unfold convert at h
  unfold Conforms
  cases hlength : t.length with
  | none =>
    rw [hlength] at h
    exact isScalarOf_convertScalar h
  | some length =>
    simp only [hlength] at h
    cases hslots : v.toSlots with
    | error fault => simp [hslots, bind, Except.bind] at h
    | ok slots =>
      simp only [hslots, bind, Except.bind] at h
      split at h
      · cases h
      · next hsame =>
        cases hconvert : convertSlots t.kind slots with
        | error fault => simp [hconvert] at h
        | ok slots' =>
          simp only [hconvert] at h
          cases h
          obtain ⟨hcount, hscalars⟩ := convertSlots_ok hconvert
          exact ⟨by rw [hcount]; simpa using hsame, hscalars⟩

/-- Setting a slot to a scalar of the kind keeps an array of its type. -/
theorem conforms_setSlotAt {slots slots' : List (Option Value)} {index : Int}
    {content : Value} {t : DeclaredType} (harray : (Value.array slots).Conforms t)
    (hcontent : content.Conforms t.element)
    (h : setSlotAt slots index (some content) = .ok slots') :
    (Value.array slots').Conforms t := by
  have hscalar : content.IsScalarOf t.kind := hcontent
  unfold setSlotAt at h
  split at h
  · cases h
    unfold Conforms at harray ⊢
    cases hlength : t.length with
    | none =>
      rw [hlength] at harray
      exact harray.elim
    | some length =>
      simp only [hlength] at harray ⊢
      refine ⟨by rw [List.length_set]; exact harray.1, fun slot hslot item hitem => ?_⟩
      obtain hold | rfl := List.mem_or_eq_of_mem_set hslot
      · exact harray.2 slot hold item hitem
      · cases hitem
        exact hscalar
  · cases h

/-- Only an array is of an array's type. -/
theorem Conforms.length_none {v : Value} {t : DeclaredType} (h : v.Conforms t)
    (hv : ∀ slots, v ≠ .array slots) : t.length = none := by
  unfold Conforms at h
  cases hlength : t.length with
  | none => rfl
  | some length =>
    rw [hlength] at h
    cases v with
    | array slots => exact absurd rfl (hv slots)
    | scalar s => exact h.elim
    | bare => exact h.elim

/-! ## Values that a program can make -/

/-- Whether a value is a scalar, or an array whose set slots are scalars. -/
def Ordinary : Value → Prop
  | .scalar _ => True
  | .array slots => ∀ content, some content ∈ slots → ∃ s, content = .scalar s
  | .bare => False

/-- What is of a scalar's kind is a scalar. -/
theorem IsScalarOf.scalar {v : Value} {kind : ScalarKind} (h : v.IsScalarOf kind) :
    ∃ s, v = .scalar s := by
  cases v with
  | scalar s => exact ⟨s, rfl⟩
  | array _ | bare => exact h.elim

/-- What is of a declared type can be made by a program. -/
theorem Conforms.ordinary {v : Value} {t : DeclaredType} (h : v.Conforms t) :
    v.Ordinary := by
  unfold Conforms at h
  cases hlength : t.length with
  | none =>
    rw [hlength] at h
    obtain ⟨s, rfl⟩ := IsScalarOf.scalar h
    trivial
  | some length =>
    rw [hlength] at h
    cases v with
    | array slots => exact fun content hmem => (h.2 _ hmem content rfl).scalar
    | scalar _ | bare => exact h.elim

/-- What is of an element's type is a scalar. -/
theorem Conforms.scalar {v : Value} {t : DeclaredType} (h : v.Conforms t.element) :
    ∃ s, v = .scalar s := by
  have hscalar : v.IsScalarOf t.kind := h
  exact hscalar.scalar

/-- What a variable holds at first can be made by a program. -/
theorem ordinary_initial {v : Value} {t : DeclaredType} (h : initial t = .ok v) :
    v.Ordinary := by
  unfold initial at h
  split at h
  · unfold makeArray at h
    split at h
    · cases h
    · cases h
      intro content hmem
      cases List.eq_of_mem_replicate hmem
  all_goals
    cases h
    trivial

/-- So can what is in a slot. -/
theorem Ordinary.content {slots : List (Option Value)} {content : Value}
    (h : (Value.array slots).Ordinary) (hmem : some content ∈ slots) :
    content.Ordinary := by
  obtain ⟨s, rfl⟩ := h content hmem
  trivial

/-- What is found at an index is one of the slots. -/
theorem mem_of_slotAt {slots : List (Option Value)} {index : Int} {slot : Option Value}
    (h : slotAt slots index = .ok slot) : slot ∈ slots := by
  unfold slotAt at h
  split at h
  · cases h
  · split at h
    · next hfound =>
      cases h
      exact List.mem_of_getElem? hfound
    · cases h

/-- To set a slot to a scalar makes nothing else. -/
theorem Ordinary.setSlotAt {slots slots' : List (Option Value)} {index : Int} {s : Scalar}
    (h : (Value.array slots).Ordinary)
    (hset : Value.setSlotAt slots index (some (.scalar s)) = .ok slots') :
    (Value.array slots').Ordinary := by
  unfold Value.setSlotAt at hset
  split at hset
  · cases hset
    intro content hmem
    obtain hold | hnew := List.mem_or_eq_of_mem_set hmem
    · exact h content hold
    · cases hnew
      exact ⟨s, rfl⟩
  · cases hset

/-- What a program can make can be shown. -/
theorem Ordinary.toText {v : Value} (h : v.Ordinary) : ∃ text, v.toText = .ok text := by
  have hslots : ∀ slots : List (Option Value), (Value.array slots).Ordinary →
      ∃ parts, slotTexts slots = .ok parts := by
    intro slots
    induction slots with
    | nil => exact fun _ => ⟨[], rfl⟩
    | cons slot rest ih =>
      intro h
      obtain ⟨parts, hparts⟩ := ih fun content hmem => h content (List.mem_cons_of_mem _ hmem)
      cases slot with
      | none => exact ⟨"None" :: parts, by rw [slotTexts, hparts]; rfl⟩
      | some content =>
        obtain ⟨s, rfl⟩ := h content (List.mem_cons_self ..)
        exact ⟨s.toText :: parts, by rw [slotTexts, hparts, Value.toText]; rfl⟩
  cases v with
  | scalar s => exact ⟨s.toText, by rw [Value.toText]⟩
  | bare => exact h.elim
  | array slots =>
    obtain ⟨parts, hparts⟩ := hslots slots h
    exact ⟨_, by rw [Value.toText, hparts]; rfl⟩

/-- An operator gives scalars. -/
theorem combine_scalar {op : Arithmetic} {a b v : Value} (h : combine op a b = .ok v) :
    ∃ s, v = .scalar s := by
  have hintegers : ∀ x y, op.onIntegers x y = .ok v → ∃ s, v = .scalar s := by
    intro x y h
    unfold Arithmetic.onIntegers at h
    split at h
    case h_4 =>
      split at h
      · cases h
      · cases h
        exact ⟨_, rfl⟩
    all_goals
      cases h
    all_goals
      exact ⟨_, rfl⟩
  have hreals : ∀ x y, op.onReals x y = .ok v → ∃ s, v = .scalar s := by
    intro x y h
    unfold Arithmetic.onReals at h
    split at h
    case h_4 =>
      split at h
      · cases h
      · cases h
        exact ⟨_, rfl⟩
    all_goals
      cases h
    all_goals
      exact ⟨_, rfl⟩
  unfold combine at h
  split at h
  · cases hleft : a.toText with
    | error fault => rw [hleft] at h; cases h
    | ok left =>
      cases hright : b.toText with
      | error fault => rw [hleft, hright] at h; cases h
      | ok right =>
        rw [hleft, hright] at h
        cases h
        exact ⟨_, rfl⟩
  · split at h
    · cases h
    · split at h
      · exact hintegers _ _ h
      · cases hleft : a.toReal with
        | error fault => rw [hleft] at h; cases h
        | ok x =>
          cases hright : b.toReal with
          | error fault => rw [hleft, hright] at h; cases h
          | ok y =>
            rw [hleft, hright] at h
            exact hreals _ _ h

/-- So does a sign. -/
theorem negate_scalar {symbol : String} {v v' : Value} (h : v.negate symbol = .ok v') :
    ∃ s, v' = .scalar s := by
  unfold negate at h
  split at h
  · cases h
    exact ⟨_, rfl⟩
  · cases h
    exact ⟨_, rfl⟩
  · cases h

end Value

/-! ## Operands -/

/-- Whether an operand is of a declared type, when the arrays in the cells are of
the types given: a scalar, or the array in a cell of just that type. -/
def Operand.Holds (cells : List DeclaredType) : Operand → DeclaredType → Prop
  | .value v, t => t.length = none ∧ v.Conforms t
  | .cell address, t => cells[address]? = some t

/-- More cells make no difference. -/
theorem Operand.Holds.extend {cells cells' : List DeclaredType} {operand : Operand}
    {t : DeclaredType} (h : operand.Holds cells t) (hcells : cells <+: cells') :
    operand.Holds cells' t := by
  cases operand with
  | value v => exact h
  | cell address =>
    obtain ⟨more, rfl⟩ := hcells
    exact (List.getElem?_append_left (List.getElem?_eq_some_iff.mp h).1).trans h

/-- What was kept is what it was. -/
theorem Store.reveal_keep (s : Store) (v : Value) :
    (s.keep v).2.reveal (s.keep v).1 = v := by
  cases v with
  | scalar a => rfl
  | bare => rfl
  | array slots => simp [keep, allocate, reveal, Store.slots]

/-- Whether the cells of a store hold arrays of the types given. -/
structure Store.Typed (s : Store) (cells : List DeclaredType) : Prop where
  size : s.cells.size = cells.length
  slots : ∀ address t, cells[address]? = some t →
    (Value.array (s.slots address)).Conforms t

namespace Store.Typed

variable {s : Store} {cells : List DeclaredType}

/-- The value of an operand is of the operand's type. -/
theorem conforms_reveal (h : s.Typed cells) {operand : Operand} {t : DeclaredType}
    (hoperand : operand.Holds cells t) : (s.reveal operand).Conforms t := by
  cases operand with
  | value v => exact hoperand.2
  | cell address => exact h.slots address t hoperand

/-- A value that is kept is of its type; an array is in a new cell. -/
theorem keep (h : s.Typed cells) {v : Value} {t : DeclaredType} (hv : v.Conforms t) :
    ∃ cells', cells <+: cells' ∧ (s.keep v).2.Typed cells' ∧
      (s.keep v).1.Holds cells' t := by
  -- anything but an array is kept as it is
  have hplain : (∀ slots, v ≠ .array slots) → s.keep v = (.value v, s) →
      ∃ cells', cells <+: cells' ∧ (s.keep v).2.Typed cells' ∧
        (s.keep v).1.Holds cells' t := by
    intro hne hkeep
    rw [hkeep]
    exact ⟨cells, List.prefix_refl _, h, hv.length_none hne, hv⟩
  cases v with
  | scalar a => exact hplain (by simp) rfl
  | bare => exact hplain (by simp) rfl
  | array slots =>
    refine ⟨cells ++ [t], List.prefix_append .., ⟨?_, ?_⟩, ?_⟩
    · simp [Store.keep, allocate, h.size]
    · intro address t' ht'
      simp only [Store.keep, allocate, Store.slots, Array.getD_eq_getD_getElem?,
        Array.getElem?_push, h.size]
      -- an old cell is as it was, and the new one has the new array
      by_cases hlt : address < cells.length
      · rw [List.getElem?_append_left hlt] at ht'
        rw [if_neg (Nat.ne_of_lt hlt)]
        have hold := h.slots address t' ht'
        rwa [Store.slots, Array.getD_eq_getD_getElem?] at hold
      · rw [List.getElem?_append_right (Nat.le_of_not_lt hlt)] at ht'
        have hzero : address - cells.length = 0 := by
          simpa using (List.getElem?_eq_some_iff.mp ht').1
        rw [hzero] at ht'
        cases ht'
        rw [if_pos (by omega)]
        exact hv
    · show (cells ++ [t])[s.cells.size]? = some t
      rw [h.size]
      simp

/-- Writing an array of the cell's type keeps the types. -/
theorem write (h : s.Typed cells) {address : Nat} {t : DeclaredType}
    (haddress : cells[address]? = some t) {slots : List (Option Value)}
    (hslots : (Value.array slots).Conforms t) : (s.write address slots).Typed cells := by
  refine ⟨by simp [Store.write, h.size], fun other t' ht' => ?_⟩
  unfold Store.write Store.slots
  rw [Array.getD_eq_getD_getElem?, Array.getElem?_setIfInBounds]
  split
  · next heq =>
    subst heq
    cases haddress.symm.trans ht'
    have hlt : address < s.cells.size := by
      rw [h.size]
      exact (List.getElem?_eq_some_iff.mp haddress).1
    rw [if_pos hlt]
    exact hslots
  · have hold := h.slots other t' ht'
    rwa [Store.slots, Array.getD_eq_getD_getElem?] at hold

end Store.Typed

end Pseudocode
