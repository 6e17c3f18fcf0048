import Pseudocode.Proofs.Exec
import Pseudocode.Proofs.Literal

/-!
# Documented faults

A program may be refused or fail, but only in ways that its author is told of: by a
fault of the language, because something is nested too deeply, or because the text of
an integer has more digits than are read.  `Fault.Documented` leaves out what would be
a defect of the interpreter itself: symbols without a meaning, operators that are not
to be executed, positions that do not exist, and a call into a module that is not
running.

Operations on values fail with documented faults only (`Told`), which say nothing about a
call.  A conversion may fail for a numeral as well, but then one to integers does, and the
numeral is a text that was to be converted (`Conversion.Admits`).  Other readings never
do: what stands for a real has no limit on its digits, and an operator is given integers,
truth values and reals, which have no text in them.

The small computations that the interpreter is made of end with documented faults, too
(`Exec.Halts`).  Which halts are allowed is a parameter, since what a computation may give
back is said with the same rules; what every parameter has to allow, suspension and what is
evident, is `Halt.Lenient`.

Where a numeral is to blame, the machine has kept the conversion that
failed for it (`Fault.Evident`): so a run that ends for a numeral has come across a text of
that length, and has not just claimed so.  A conversion is kept when it fails and not before
(`halts_settle`), and nothing behind a failure clears it: a scope is closed without regard
to it (`refused_popScope`), and a call wraps other faults than this one.

> `evident_convert`: a conversion that fails makes its fault evident when it is kept.
>
> `Fault.Evident.leaving`: and the fault stays evident when it leaves a call.
-/

namespace Pseudocode

open Grammar Numeral Text

/-- A text that stands for an integer, digits perhaps behind a sign, and has more
digits than are read. -/
def Numeral.Overlong (text : String) : Prop :=
  ∃ sign digits, text.toList = sign ++ digits ∧ sign ∈ signs ∧ IsDigits digits ∧
    4300 < digits.length

/-- Whether a fault is one that authors of programs are told of. -/
def Fault.Documented : Fault → Prop
  | .parse _ | .undeclared .. | .redeclared .. | .conversion _ | .configuration _
  | .indexOutOfRange .. | .unset _ | .divisionByZero | .badResult .. | .tooDeep => True
  | .execution (.moduleNotRunning _) => False
  | .execution _ => True
  | .failedIn _ cause => cause.Documented ∧ cause.isOwn = true
  | .numeral fault => ∃ text, Overlong text ∧ readInteger text = .error fault
  | .unknownOperator _ | .notEvaluable | .notExecutable | .missingPosition
  | .missingOperation => False

/-- A fault that leaves a call stays documented. -/
theorem Fault.Documented.leaving {fault : Fault} (h : fault.Documented)
    (function : String) : (fault.leaving function).Documented := by
  unfold Fault.leaving
  split
  · exact h
  · split
    · next hown => exact ⟨h, hown⟩
    · split
      · trivial
      · exact h

/-- A documented fault that no numeral is to blame for. -/
def Fault.Plain : Fault → Prop
  | .numeral _ => False
  | fault => fault.Documented

/-- Whether a fault tells that a value does not convert, and that no numeral is to blame. -/
def Fault.OfConversion : Fault → Prop
  | .conversion _ => True
  | _ => False

/-- Whether a fault says nothing about a call, and no numeral is to blame for it. -/
def Fault.Simple (fault : Fault) : Prop :=
  fault.Plain ∧ fault.isExecution = false

/-- That a value does not convert says nothing about a call. -/
theorem Fault.OfConversion.simple {fault : Fault} (h : fault.OfConversion) : fault.Simple := by
  cases fault with
  | conversion _ => exact ⟨trivial, rfl⟩
  | _ => exact h.elim

/-! ## Conversions -/

/-- Whether a text is one that is converted along with a value: the value itself, or in a
slot of it. -/
def Value.HasText (text : String) : Value → Prop
  | .scalar s => s = .string text
  | .array slots => some (.string text) ∈ slots
  | .bare => False

/-- What a conversion may fail for.  A numeral is only to blame if integers are made, and
of a text that has more digits than are read, blanks at its ends apart. -/
def Conversion.Admits (c : Conversion) : Fault → Prop
  | .conversion _ => True
  | .numeral reason => c.type.kind = .integer ∧ ∃ text, c.value.HasText text ∧
      Overlong (String.ofList (strip text)) ∧
      readInteger (String.ofList (strip text)) = .error reason
  | _ => False

/-- Whether a conversion fails because a text in it has more digits than are read. -/
def Conversion.Overlong (c : Conversion) (reason : NumeralFault) : Prop :=
  c.value.convert c.type = .error (.numeral reason) ∧ c.Admits (.numeral reason)

/-- Whether a fault is documented in a state: if a numeral is to blame, the machine has kept
the conversion that failed for it. -/
def Fault.Evident (refused : Option Conversion) : Fault → Prop
  | .numeral reason => ∃ c, refused = some c ∧ c.Overlong reason
  | fault => fault.Documented

namespace Fault

variable {fault : Fault} {refused : Option Conversion}

/-- A fault that no numeral is to blame for needs no conversion to show. -/
theorem Plain.evident (h : fault.Plain) : fault.Evident refused := by
  cases fault with
  | numeral _ => exact h.elim
  | _ => exact h

/-- What is evident is documented: the text that is too long is there. -/
theorem Evident.documented (h : fault.Evident refused) : fault.Documented := by
  cases fault with
  | numeral _ =>
    obtain ⟨c, -, -, -, text, -, hlong, hread⟩ := h
    exact ⟨_, hlong, hread⟩
  | _ => exact h

/-- A fault that leaves a call stays evident: one for a numeral is not wrapped. -/
theorem Evident.leaving (h : fault.Evident refused) (function : String) :
    (fault.leaving function).Evident refused := by
  have hleaving := h.documented.leaving function
  cases fault with
  | numeral _ => exact h
  | execution _ => exact h
  | _ => exact hleaving

end Fault

namespace Conversion

variable {c : Conversion} {fault : Fault}

/-- A conversion may fail because the value does not convert. -/
theorem admits_of_ofConversion (h : fault.OfConversion) : c.Admits fault := by
  cases fault with
  | conversion _ => trivial
  | _ => exact h.elim

/-- What a failed conversion may fail for is evident when the conversion is kept. -/
theorem Admits.evident (h : c.Admits fault)
    (hfails : ∀ reason, fault = .numeral reason →
      c.value.convert c.type = .error (.numeral reason)) : fault.Evident (some c) := by
  cases fault with
  | conversion _ => trivial
  | numeral reason => exact ⟨c, rfl, hfails reason rfl, h⟩
  | _ => exact h.elim

/-- A result that is refused blames the call, unless a numeral is to blame. -/
theorem Admits.ofResult (h : c.Admits fault) (hfails : c.value.convert c.type = .error fault)
    (function : String) : (fault.ofResult function).Evident (some c) := by
  cases fault with
  | conversion _ => trivial
  | numeral reason => exact ⟨c, rfl, hfails, h⟩
  | _ => exact h.elim

end Conversion

/-! ## Values -/

section

variable {α β : Type} {may : Fault → Prop}

/-- A result, or a fault of some kind. -/
def Told (may : Fault → Prop) (x : Except Fault α) : Prop :=
  ∀ fault, x = .error fault → may fault

theorem told_ok (a : α) : Told may (.ok a) := fun _ h => nomatch h

/-- A fault is told if it is of the kind. -/
theorem told_error {fault : Fault} (h : may fault) :
    Told may (.error fault : Except Fault α) := by
  intro fault' heq
  cases heq
  exact h

/-- Faults are told of a sequence if they are of both parts. -/
theorem Told.bind {x : Except Fault α} {f : α → Except Fault β} (hx : Told may x)
    (hf : ∀ a, Told may (f a)) : Told may (x >>= f) := by
  cases x with
  | ok a => exact hf a
  | error fault => exact told_error (hx fault rfl)

/-- What becomes of a result makes no difference to its faults. -/
theorem Told.map {x : Except Fault α} (hx : Told may x) (f : α → β) : Told may (x.map f) := by
  cases x with
  | ok a => exact told_ok _
  | error fault => exact told_error (hx fault rfl)

/-- What may fail only because a value does not convert says nothing about a call. -/
theorem Told.simple {x : Except Fault α} (h : Told Fault.OfConversion x) :
    Told Fault.Simple x :=
  fun fault heq => (h fault heq).simple

end

/-- An ASCII digit has the value of its distance to zero. -/
theorem digitValue_ascii {c : Char} (h : c.isDigit = true) :
    digitValue? c = some (c.toNat - '0'.toNat) := by
  have hrange : '0'.toNat ≤ c.toNat ∧ c.toNat ≤ '9'.toNat := by
    simpa [Char.isDigit, UInt32.le_iff_toNat_le] using h
  unfold digitValue? digitZeros digitFrom
  have hzero : '0'.toNat = 0x30 := rfl
  have hnine : '9'.toNat = 0x39 := rfl
  rw [if_neg (by omega), if_pos (by omega), hzero]

/-- An ASCII digit is a digit. -/
theorem isDigit_of_ascii {c : Char} (h : c.isDigit = true) : isDigit c = true := by
  rw [isDigit, digitValue_ascii h]
  rfl

/-- A sign, and then what is left of a text without it. -/
theorem splitSign_signs (cs : List Char) : ∃ sign ∈ signs, cs = sign ++ (splitSign cs).2 := by
  unfold splitSign
  split
  · exact ⟨['-'], by simp [signs], rfl⟩
  · exact ⟨['+'], by simp [signs], rfl⟩
  · exact ⟨[], by simp [signs], rfl⟩

namespace Scalar

/-- The text of an integer is read, unless it is too long. -/
theorem overlong_of_error {cs : List Char} (h : isIntegerNumeral cs = true)
    {fault : NumeralFault} (herror : readInteger (String.ofList cs) = .error fault) :
    Overlong (String.ofList cs) := by
  obtain ⟨sign, hsign, hcs⟩ := splitSign_signs cs
  unfold isIntegerNumeral at h
  rw [Bool.and_eq_true, Bool.not_eq_true', List.isEmpty_eq_false_iff, List.all_eq_true] at h
  have hdigits : IsDigits (splitSign cs).2 := ⟨h.1, fun c hc => isDigit_of_ascii (h.2 c hc)⟩
  have htext : (String.ofList cs).toList = sign ++ (splitSign cs).2 := by
    rw [String.toList_ofList]
    exact hcs
  rw [readInteger_signed hsign hdigits htext] at herror
  split at herror
  · next hlong => exact ⟨sign, _, htext, hsign, hdigits, hlong⟩
  · cases herror

/-- A text is the only scalar in which there may be a numeral that is too long. -/
theorem told_toInteger (s : Scalar) {c : Conversion} (hkind : c.type.kind = .integer)
    (htext : ∀ text, s = .string text → c.value.HasText text) : Told c.Admits s.toInteger := by
  cases s with
  | integer n => exact told_ok _
  | boolean b => exact told_ok _
  | real x =>
    unfold toInteger
    dsimp only
    split
    · exact told_error trivial
    · split
      · exact told_ok _
      · exact told_error trivial
  | string t =>
    unfold toInteger
    dsimp only
    split
    · next hnumeral =>
      split
      · next fault herror =>
        exact told_error ⟨hkind, t, htext t rfl, overlong_of_error hnumeral herror, herror⟩
      · split
        · exact told_ok _
        · exact told_error trivial
    · exact told_error trivial

/-- To read a scalar as a real may fail for the value, but for no numeral. -/
theorem told_toReal (s : Scalar) : Told Fault.OfConversion s.toReal := by
  unfold toReal
  split
  · exact told_ok _
  · exact told_ok _
  · exact told_ok _
  · dsimp only
    split
    · exact told_error trivial
    · split
      · exact told_ok _
      · exact told_error trivial

/-- To read a scalar as a truth value may fail for the value, but for no numeral. -/
theorem told_toBoolean (s : Scalar) : Told Fault.OfConversion s.toBoolean := by
  unfold toBoolean
  split
  · exact told_ok _
  · exact told_ok _
  · exact told_ok _
  · dsimp only
    split
    · exact told_ok _
    · split
      · exact told_ok _
      · exact told_error trivial

end Scalar

namespace Value

/-- To read a value as an integer may fail for a numeral only if it is a text. -/
theorem told_toInteger (v : Value) {c : Conversion} (hkind : c.type.kind = .integer)
    (htext : ∀ text, v = .string text → c.value.HasText text) : Told c.Admits v.toInteger := by
  cases v with
  | scalar s => exact s.told_toInteger hkind fun text heq => htext text (congrArg scalar heq)
  | array _ | bare => exact told_error trivial

/-- To read a value as a real may fail for the value, but for no numeral. -/
theorem told_toReal (v : Value) : Told Fault.OfConversion v.toReal := by
  cases v with
  | scalar s => exact s.told_toReal
  | array _ | bare => exact told_error trivial

/-- To read a value as a truth value may fail for the value, but for no numeral. -/
theorem told_toBoolean (v : Value) : Told Fault.OfConversion v.toBoolean := by
  cases v with
  | scalar s => exact s.told_toBoolean
  | array slots => exact told_ok _
  | bare => exact told_error trivial

mutual

/-- To show a value may fail, if it holds what cannot be shown. -/
theorem told_toText : ∀ v : Value, Told Fault.OfConversion v.toText
  | .scalar _ => told_ok _
  | .array slots => (told_slotTexts slots).bind fun _ => told_ok _
  | .bare => told_error trivial

/-- So may it for the slots of an array. -/
theorem told_slotTexts : ∀ slots : List (Option Value), Told Fault.OfConversion (slotTexts slots)
  | [] => told_ok _
  | none :: rest => (told_slotTexts rest).bind fun _ => told_ok _
  | some v :: rest =>
    (told_toText v).bind fun _ => (told_slotTexts rest).bind fun _ => told_ok _

end

/-- A value is converted as part of a conversion to the same kind. -/
theorem told_convertScalar (v : Value) {c : Conversion}
    (htext : ∀ text, v = .string text → c.value.HasText text) :
    Told c.Admits (v.convertScalar c.type.kind) := by
  have hsame : ∀ {x : Except Fault Value}, Told Fault.OfConversion x → Told c.Admits x :=
    fun h fault heq => Conversion.admits_of_ofConversion (h fault heq)
  cases hkind : c.type.kind with
  | integer => exact (v.told_toInteger hkind htext).map _
  | real => exact hsame (v.told_toReal.map _)
  | boolean => exact hsame (v.told_toBoolean.map _)
  | string => exact hsame (v.told_toText.map _)

/-- Of an array the slots are converted one after the other. -/
theorem told_convertSlots {c : Conversion} : ∀ {slots : List (Option Value)},
    (∀ text, some (.string text) ∈ slots → c.value.HasText text) →
      Told c.Admits (convertSlots c.type.kind slots)
  | [], _ => told_ok _
  | none :: rest, h =>
    (told_convertSlots fun text hmem => h text (List.mem_cons_of_mem _ hmem)).bind
      fun _ => told_ok _
  | some v :: rest, h => by
    have hfirst := v.told_convertScalar fun text heq => h text (heq ▸ List.mem_cons_self ..)
    have hrest : Told c.Admits (convertSlots c.type.kind rest) :=
      told_convertSlots fun text hmem => h text (List.mem_cons_of_mem _ hmem)
    exact hfirst.bind fun _ => hrest.bind fun _ => told_ok _

/-- A conversion may fail as it is said to. -/
theorem told_convert (v : Value) (t : DeclaredType) :
    Told (Conversion.Admits ⟨v, t⟩) (v.convert t) := by
  unfold convert
  split
  · refine v.told_convertScalar (c := ⟨v, t⟩) ?_
    rintro text rfl
    rfl
  · cases v with
    | array slots =>
      show Told _ (if (slots.length : Int) ≠ _ then _ else _)
      split
      · exact told_error trivial
      · exact (told_convertSlots (c := ⟨.array slots, t⟩) fun _ hmem => hmem).bind
          fun _ => told_ok _
    | scalar _ | bare => exact told_error trivial

/-- A conversion that fails makes its fault evident when it is kept. -/
theorem evident_convert {v : Value} {t : DeclaredType} {fault : Fault}
    (h : v.convert t = .error fault) : fault.Evident (some ⟨v, t⟩) :=
  (v.told_convert t fault h).evident fun _ heq => heq ▸ h

/-- A value itself that is made an integer. -/
theorem told_integer (v : Value) :
    Told (Conversion.Admits ⟨v, ⟨.integer, none⟩⟩) v.toInteger := by
  refine v.told_toInteger rfl ?_
  rintro text rfl
  rfl

/-- A value that is no integer makes its fault evident when it is kept. -/
theorem evident_toInteger {v : Value} {fault : Fault} (h : v.toInteger = .error fault) :
    fault.Evident (some ⟨v, ⟨.integer, none⟩⟩) := by
  refine (v.told_integer fault h).evident ?_
  rintro reason rfl
  show v.toInteger.map integer = _
  rw [h]
  rfl

/-- A variable's value at first may fail only for the length of an array. -/
theorem told_initial (t : DeclaredType) : Told Fault.Simple (initial t) := by
  unfold initial
  split
  · unfold makeArray
    split
    · exact told_error ⟨trivial, rfl⟩
    · exact told_ok _
  all_goals exact told_ok _

/-- To read a slot may fail for its index, and says so. -/
theorem told_slotAt (slots : List (Option Value)) (index : Int) :
    Told Fault.Simple (slotAt slots index) := by
  unfold slotAt
  split
  · exact told_error ⟨trivial, rfl⟩
  · split
    · exact told_ok _
    · exact told_error ⟨trivial, rfl⟩

/-- To set a slot may fail for its index, and says so. -/
theorem told_setSlotAt (slots : List (Option Value)) (index : Int)
    (content : Option Value) : Told Fault.Simple (setSlotAt slots index content) := by
  unfold setSlotAt
  split
  · exact told_ok _
  · exact told_error ⟨trivial, rfl⟩

/-- A sign may fail for the value, but for no numeral. -/
theorem told_negate (symbol : String) (v : Value) : Told Fault.Simple (v.negate symbol) := by
  unfold negate
  split
  · exact told_ok _
  · exact told_ok _
  · exact told_error ⟨trivial, rfl⟩

/-- An operator that has a meaning. -/
theorem told_combine {op : Arithmetic} (hop : ∀ symbol, op ≠ .other symbol) (a b : Value) :
    Told Fault.Simple (combine op a b) := by
  have hintegers : ∀ x y, Told Fault.Simple (op.onIntegers x y) := by
    intro x y
    cases op with
    | divide =>
      unfold Arithmetic.onIntegers
      dsimp only
      split
      · exact told_error ⟨trivial, rfl⟩
      · exact told_ok _
    | other symbol => exact absurd rfl (hop symbol)
    | _ => exact told_ok _
  have hreals : ∀ x y, Told Fault.Simple (op.onReals x y) := by
    intro x y
    cases op with
    | divide =>
      unfold Arithmetic.onReals
      dsimp only
      split
      · exact told_error ⟨trivial, rfl⟩
      · exact told_ok _
    | other symbol => exact absurd rfl (hop symbol)
    | _ => exact told_ok _
  unfold combine
  split
  · exact a.told_toText.simple.bind fun _ => b.told_toText.simple.bind fun _ => told_ok _
  · split
    · exact told_error ⟨trivial, rfl⟩
    · split
      · exact hintegers _ _
      · exact a.told_toReal.simple.bind fun _ => b.told_toReal.simple.bind fun _ => hreals _ _

/-- Integers and truth values have no texts in them. -/
theorem told_of_isDiscrete {v : Value} (h : v.isDiscrete = true) :
    Told Fault.Simple v.toInteger := by
  cases v with
  | scalar s => cases s <;> first | exact told_ok _ | cases h
  | array _ | bare => cases h

/-- A comparison that has a meaning may fail for its values, but for no numeral. -/
theorem told_compare {op : Comparison} (hop : ∀ symbol, op ≠ .other symbol) (a b : Value) :
    Told Fault.Simple (compare op a b) := by
  have hholds : ∀ less equal greater, Told Fault.Simple (op.holds less equal greater) := by
    intro less equal greater
    cases op with
    | other symbol => exact absurd rfl (hop symbol)
    | _ => exact told_ok _
  unfold compare
  split
  · exact hholds _ _ _
  · split
    · next hdiscrete =>
      obtain ⟨ha, hb⟩ := Bool.and_eq_true_iff.mp hdiscrete
      refine (told_of_isDiscrete ha).bind fun _ => (told_of_isDiscrete hb).bind fun _ => ?_
      exact hholds _ _ _
    · split
      · exact a.told_toReal.simple.bind fun _ => b.told_toReal.simple.bind fun _ => hholds _ _ _
      · exact told_error ⟨trivial, rfl⟩

end Value

/-- A declaration may fail for a name that is there. -/
theorem Table.told_declare {α : Type} (t : Table α) (name : String) (item : α) :
    Told Fault.Simple (t.declare name item) := by
  unfold declare
  split
  · exact told_error ⟨trivial, rfl⟩
  · exact told_ok _

namespace Environment

variable (env : Environment) (id : Nat) (name : String)

/-- A look-up may fail for a name that is nowhere. -/
theorem told_lookup : Told Fault.Simple (env.lookup id name) := by
  unfold lookup
  split
  · exact told_ok _
  · exact told_error ⟨trivial, rfl⟩

/-- A declaration in a scope may fail for a name that is there. -/
theorem told_declare (v : Variable) : Told Fault.Simple (env.declare id name v) :=
  ((env.scope id).vars.told_declare name v).bind fun _ => told_ok _

/-- A binding may fail for a name that is nowhere. -/
theorem told_rebind (binding : Binding) : Told Fault.Simple (env.rebind id name binding) := by
  unfold rebind
  split
  · exact told_ok _
  · exact told_error ⟨trivial, rfl⟩

end Environment

/-! ## Computations -/

/-- Ways of ending early, with the conversion that the machine keeps, among which are the
ends of ticks and all faults that are evident. -/
structure Halt.Lenient (may : Option Conversion → Halt → Prop) : Prop where
  suspended : ∀ refused, may refused .suspended
  evident : ∀ {refused : Option Conversion} {fault : Fault}, fault.Evident refused →
    may refused (.fault fault)

/-- What is lenient allows every fault that no numeral is to blame for. -/
theorem Halt.Lenient.plain {may : Option Conversion → Halt → Prop} (h : Lenient may)
    {fault : Fault} (hfault : fault.Plain) (refused : Option Conversion) :
    may refused (.fault fault) :=
  h.evident hfault.evident

namespace Exec

variable {α β : Type} {may : Option Conversion → Halt → Prop}

/-- A computation ends early only in ways of a kind. -/
def Halts (may : Option Conversion → Halt → Prop) (x : Exec α) : Prop :=
  ∀ m halt m', x m = .error halt m' → may m'.refused halt

theorem halts_pure (a : α) : Halts may (pure a : Exec α) := by
  intro m halt m' h
  cases h

theorem halts_throw {halt : Halt} (h : ∀ refused, may refused halt) :
    Halts may (throw halt : Exec α) := by
  intro m halt' m' heq
  cases heq
  exact h _

theorem halts_fail {fault : Fault} (h : ∀ refused, may refused (.fault fault)) :
    Halts may (fail fault : Exec α) := halts_throw h

/-- A result halts with the faults that it may be. -/
theorem halts_lift {x : Except Fault α}
    (h : ∀ fault, x = .error fault → ∀ refused, may refused (.fault fault)) :
    Halts may (lift x) := by
  cases x with
  | ok a => exact halts_pure a
  | error fault => exact halts_fail (h fault rfl)

/-- A sequence halts as its parts do. -/
theorem Halts.bind {x : Exec α} {f : α → Exec β} (hx : Halts may x)
    (hf : ∀ a, Halts may (f a)) : Halts may (x >>= f) := by
  intro m halt m' h
  rw [bind_apply] at h
  cases hrun : x m with
  | ok a m₁ =>
    rw [hrun] at h
    exact hf a m₁ halt m' h
  | error halt' m₁ =>
    rw [hrun] at h
    cases h
    exact hx m halt _ hrun

/-- To look at the state halts as what follows does. -/
theorem halts_get {f : Machine → Exec β} (hf : ∀ m, Halts may (f m)) :
    Halts may (get >>= f : Exec β) := by
  intro m halt m' h
  rw [get_bind_apply] at h
  exact hf m m halt m' h

theorem halts_set (m : Machine) : Halts may (set m : Exec PUnit) := by
  intro _ halt m' h
  cases h

theorem halts_modify (change : Machine → Machine) :
    Halts may (modify change : Exec PUnit) := by
  intro m halt m' h
  cases h

/-- A tick may suspend the computation, and does nothing worse. -/
theorem halts_tick (h : ∀ refused, may refused .suspended) (next : Option Access) :
    Halts may (tick next) := by
  intro m halt m' heq
  unfold tick at heq
  split at heq
  · cases heq
    exact h _
  · cases heq

theorem halts_reveal (operand : Operand) : Halts may (reveal operand) :=
  halts_get fun _ => halts_pure _

/-- To keep a value does not halt. -/
theorem halts_keep (v : Value) : Halts may (keep v) :=
  halts_get fun _ => (halts_set _).bind fun _ => halts_pure _

/-- A list of computations halts as they do. -/
theorem halts_mapM {f : α → Exec β} : ∀ {as : List α}, (∀ a ∈ as, Halts may (f a)) →
    Halts may (as.mapM f)
  | [], _ => halts_pure _
  | a :: as, h => by
    rw [List.mapM_cons]
    obtain ⟨ha, has⟩ := List.forall_mem_cons.mp h
    exact ha.bind fun _ => (halts_mapM has).bind fun _ => halts_pure _

/-- What a computation ends with is what it ends with a tick later. -/
theorem Halts.thenTick {x : Exec α} (hx : Halts may x)
    (h : ∀ refused, may refused .suspended) : Halts may x.thenTick := by
  intro m halt m' heq
  cases hrun : x m with
  | ok a m₁ =>
    rw [thenTick_of_ok hrun] at heq
    exact (halts_tick h none).bind (fun _ => halts_pure a) m₁ halt m' heq
  | error halt' m₁ =>
    rw [thenTick_of_error hrun] at heq
    have hhalt := hx m halt' m₁ hrun
    cases halt' with
    | suspended => exact halts_throw h m₁ halt m' heq
    | fault _ | returned _ =>
      -- the tick does not touch the conversion that is kept
      change (tick >>= fun _ => throw _) m₁ = _ at heq
      rw [bind_apply] at heq
      cases hticks : m₁.ticks with
      | zero =>
        rw [tick_of_zero hticks] at heq
        cases heq
        exact h _
      | succ ticks =>
        rw [tick_of_succ hticks] at heq
        cases heq
        exact hhalt

/-- To tidy up makes no difference, if the conversion that failed is left alone. -/
theorem Halts.andThenTidy {x : Exec α} (hx : Halts may x) {tidy : Machine → Machine}
    (htidy : ∀ m, (tidy m).refused = m.refused) : Halts may (x.andThenTidy tidy) := by
  intro m halt m' heq
  unfold Exec.andThenTidy at heq
  cases hrun : x m with
  | ok a m₁ =>
    rw [hrun] at heq
    cases heq
  | error halt' m₁ =>
    rw [hrun] at heq
    have hhalt := hx m halt' m₁ hrun
    cases halt' <;> cases heq <;> first | exact hhalt | exact (htidy m₁).symm ▸ hhalt

/-- A scope is closed without regard to what was converted. -/
theorem refused_popScope (m : Machine) : m.popScope.refused = m.refused := by
  unfold Machine.popScope
  split <;> rfl

/-- A computation in a new scope halts as it does anywhere. -/
theorem Halts.within {parent : Option Nat} {name : String} {vars : Variables}
    {x : Nat → Exec α} (hx : ∀ scope, Halts may (x scope))
    (h : ∀ refused, may refused .suspended) :
    Halts may (within parent name vars x) := by
  intro m halt m' heq
  rw [within_apply] at heq
  exact ((hx _).thenTick h).andThenTidy refused_popScope _ halt m' heq

section

variable (hmay : Halt.Lenient may)

include hmay

/-- A result may halt with faults that say nothing about a call. -/
theorem halts_told {x : Except Fault α} (h : Told Fault.Simple x) : Halts may (lift x) :=
  halts_lift fun fault heq => hmay.plain (h fault heq).1

/-- A conversion may fail for what is evident from it. -/
theorem halts_settle {c : Conversion} {x : Except Fault α}
    (h : Told (Fault.Evident (some c)) x) : Halts may (settle c x) := by
  cases x with
  | ok a => exact halts_pure a
  | error fault =>
    intro m halt m' heq
    cases heq
    exact hmay.evident (h fault rfl)

/-- A conversion may halt for what it keeps. -/
theorem halts_converted (v : Value) (t : DeclaredType) : Halts may (converted v t) :=
  halts_settle hmay fun _ h => Value.evident_convert h

/-- To make a value an integer may halt for what it keeps. -/
theorem halts_integerOf (v : Value) : Halts may (integerOf v) :=
  halts_settle hmay fun _ h => Value.evident_toInteger h

/-- To convert an operand may halt for the value that it shows. -/
theorem halts_convert (operand : Operand) (t : DeclaredType) :
    Halts may (convert operand t) := by
  refine (halts_reveal operand).bind fun v => ?_
  exact (halts_converted hmay v t).bind fun v => halts_keep v

theorem halts_activeScope : Halts may activeScope := by
  refine halts_get fun m => ?_
  split
  · exact halts_fail (hmay.plain trivial)
  · exact halts_pure _

/-- To look up a variable may halt for its name. -/
theorem halts_variableIn (scope : Nat) (target : Occurrence) :
    Halts may (variableIn scope target) := by
  refine (halts_tick hmay.suspended _).bind fun _ => halts_get fun m => ?_
  exact halts_told hmay (m.environment.told_lookup scope target.name)

/-- A change of the environment may halt as the change may. -/
theorem halts_updateEnvironment {change : Environment → Except Fault Environment}
    (h : ∀ env, Told Fault.Simple (change env)) : Halts may (updateEnvironment change) :=
  halts_get fun m => (halts_told hmay (h m.environment)).bind fun _ => halts_set _

/-- A declaration that is executed may halt because no scope is open, or for its name. -/
theorem halts_declareHere (t : DeclaredType) (name : String) (held : Operand) :
    Halts may (declareHere t name held) := by
  refine (halts_activeScope hmay).bind fun scope => halts_updateEnvironment hmay fun env => ?_
  split
  · exact told_ok _
  · exact env.told_declare scope name _

/-- A binding may halt for its name. -/
theorem halts_rebind (scope : Nat) (name : String) (held : Operand) :
    Halts may (rebind scope name held) :=
  halts_updateEnvironment hmay fun env => env.told_rebind scope name _

/-- To write a slot may halt for its index. -/
theorem halts_setSlot (address : Nat) (index : Int) (content : Value) :
    Halts may (setSlot address index content) :=
  halts_get fun _ => (halts_told hmay (Value.told_setSlotAt _ _ _)).bind fun _ => halts_set _

/-- A trace may halt as its message may. -/
theorem halts_trace (level : Nat) {message : Machine → Except Fault String}
    (h : ∀ m, Told Fault.Simple (message m)) : Halts may (trace level message) := by
  refine halts_get fun m => ?_
  split
  · exact (halts_told hmay (h m)).bind fun _ => halts_modify _
  · exact halts_pure _

/-- A message that ends with the text of an operand. -/
theorem halts_traceText (level : Nat) (before : String) (operand : Operand) :
    Halts may (trace level fun m => do return before ++ (← m.textOf operand)) :=
  halts_trace hmay level fun _ => (Value.told_toText _).simple.bind fun _ => told_ok _

/-- To take an answer may halt because there is none. -/
theorem halts_nextAnswer (name : String) (t : DeclaredType) :
    Halts may (nextAnswer name t) := by
  rw [nextAnswer_eq]
  refine halts_get fun m => ?_
  have hanswer : ∀ {fault : Fault}, fault.Plain →
      Halts may (takeAnswer fault m.answers) := by
    intro fault hfault
    cases m.answers with
    | nil => exact halts_fail (hmay.plain hfault)
    | cons answer answers => exact (halts_modify _).bind fun _ => halts_pure _
  dsimp only
  split
  · exact (halts_modify _).bind fun _ => hanswer trivial
  · exact hanswer trivial

/-- To read a slot may halt for its index, or because it is empty. -/
theorem halts_readSlot (name : String) (array : Operand) (index : Int) :
    Halts may (Level.readSlot name array index) := by
  refine (halts_reveal array).bind fun v => ?_
  split
  · refine (halts_told hmay (Value.told_slotAt _ _)).bind fun slot => ?_
    split
    · exact halts_fail (hmay.plain trivial)
    · exact halts_pure _
  · exact halts_fail (hmay.plain trivial)

/-- An `output` may halt for what cannot be shown. -/
theorem halts_write (operand : Operand) : Halts may (Level.write operand) := by
  have hwrite : Halts may (get >>= fun m : Machine => lift (m.textOf operand) >>= fun text =>
      emit (.written operand text)) :=
    halts_get fun _ => (halts_told hmay (Value.told_toText _).simple).bind fun _ => halts_modify _
  exact hwrite

/-- An assignment to a variable may halt for the value. -/
theorem halts_assignVariable (target : Occurrence) (value : Operand) :
    Halts may (Level.assignVariable target value) := by
  refine (halts_activeScope hmay).bind fun scope => ?_
  refine (halts_variableIn hmay scope target).bind fun v => ?_
  refine (halts_convert hmay value v.type).bind fun held => ?_
  exact (halts_rebind hmay scope target.name held).bind fun _ => halts_traceText hmay _ _ _

/-- An answer may halt for its text: this is one place where a numeral can be too long. -/
theorem halts_readInto (scope : Nat) (target : Occurrence) (type : DeclaredType) :
    Halts may (Level.readInto scope target type) := by
  refine (halts_nextAnswer hmay _ _).bind fun _ => (halts_convert hmay _ _).bind fun held => ?_
  exact (halts_rebind hmay _ _ _).bind fun _ => halts_traceText hmay _ _ _

/-- An `input` may halt for its answer, or for a variable that holds an array. -/
theorem halts_executeInput (target : Occurrence) : Halts may (Level.executeInput target) := by
  rw [Level.executeInput_eq]
  refine (halts_activeScope hmay).bind fun scope => ?_
  refine (halts_variableIn hmay scope target).bind fun v => ?_
  split
  · exact halts_fail (hmay.plain trivial)
  · exact halts_readInto hmay scope target v.type

/-- To bind parameters may halt for an argument that does not convert. -/
theorem halts_bindParameters : ∀ (parameters : List Parameter) (arguments : List Operand)
    (bound : Variables), Halts may (Level.bindParameters parameters arguments bound)
  | [], _, _ => halts_pure _
  | _ :: _, [], _ => halts_pure _
  | q :: parameters, a :: arguments, bound => by
    refine (halts_convert hmay a q.type).bind fun held => ?_
    exact (halts_told hmay (bound.told_declare _ _)).bind fun bound =>
      halts_bindParameters parameters arguments bound

/-- A result that does not convert blames the call. -/
theorem halts_callResult (f : FunctionDeclaration) (result : Option Operand) :
    Halts may (Level.callResult f result) := by
  unfold Level.callResult
  split
  · exact halts_pure _
  · next t _ =>
    split
    · exact halts_fail (hmay.plain trivial)
    · refine (halts_reveal _).bind fun v => ?_
      have hresult : Told (Fault.Evident (some ⟨v, t⟩))
          ((v.convert t).mapError (Fault.ofResult f.fullName)) := by
        intro fault h
        obtain ⟨cause, hcause, rfl⟩ := mapError_eq_error h
        exact (v.told_convert t cause hcause).ofResult hcause _
      exact (halts_settle hmay hresult).bind fun v => (halts_keep v).bind fun _ => halts_pure _

end

end Exec

end Pseudocode
