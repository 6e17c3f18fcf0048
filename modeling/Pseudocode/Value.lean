import Pseudocode.Fault
import Pseudocode.Numeral.Rounding
import Pseudocode.Text.Blank

/-!
# Values

A value is a scalar, an array of slots that may be unset, or a bare value of no
further kind.  A value is read in one of six ways (`toInteger`, `toReal`,
`toBoolean`, `toCharacter`, `toText`, `toSlots`); each either gives the
representation asked for or fails, and nothing is coerced silently.

`Value.convert` is built from them: it turns a value into one of a declared
type.
-/

namespace Pseudocode

open Text Numeral

/-- A value without slots.  Integers have 32 bits and wrap. -/
inductive Scalar where
  | integer (n : Int32)
  | real (x : Float)
  | boolean (b : Bool)
  | string (s : String)
  deriving Repr, Inhabited

/-- A value. -/
inductive Value where
  | scalar (s : Scalar)
  | array (slots : List (Option Value))
  | bare
  deriving Inhabited

/-- Whether an integer has 32 bits. -/
def isInt32 (n : Int) : Bool :=
  Int32.minValue.toInt ≤ n && n ≤ Int32.maxValue.toInt

namespace Scalar

/-- The kind of a scalar. -/
def kind : Scalar → ScalarKind
  | integer _ => .integer
  | real _ => .real
  | boolean _ => .boolean
  | string _ => .string

/-- The failure of a scalar to become something. -/
def failure (s : Scalar) (target : ConversionTarget)
    (reason : ConversionReason := .unsupported) : Fault :=
  .conversion ⟨.scalar s.kind, target, reason⟩

/-- Whether characters are an optional sign and then ASCII digits. -/
def isIntegerNumeral (cs : List Char) : Bool :=
  let digits := (splitSign cs).2
  !digits.isEmpty && digits.all Char.isDigit

/-- A scalar as an integer: reals are rounded, text has to be a numeral. -/
def toInteger (s : Scalar) : Except Fault Int :=
  let target := ConversionTarget.kind (.scalar .integer)
  match s with
  | integer n => .ok n.toInt
  | boolean b => .ok (if b then 1 else 0)
  | real x =>
    match roundHalfAway x with
    | .error _ => .error (s.failure target (.noInteger x))
    | .ok n =>
      if isInt32 n then .ok n
      else .error (s.failure target (.realOutOfRange x))
  | string t =>
    if isIntegerNumeral (strip t) then
      match readInteger (String.ofList (strip t)) with
      | .error fault => .error (.numeral fault)
      | .ok n =>
        if isInt32 n then .ok n
        else .error (s.failure target (.textOutOfRange t))
    else .error (s.failure target (.notANumber t))

/-- A scalar as a real.  Text may have neither low lines nor commas. -/
def toReal (s : Scalar) : Except Fault Float :=
  match s with
  | integer n => .ok (Float.ofInt n.toInt)
  | real x => .ok x
  | boolean b => .ok (if b then 1.0 else 0.0)
  | string t =>
    let fault := s.failure (.kind (.scalar .real)) (.notANumber t)
    let cs := strip t
    if cs.contains '_' || cs.contains ',' then .error fault
    else
      match readReal (String.ofList cs) with
      | some x => .ok x
      | none => .error fault

/-- A scalar as a truth value: numbers other than zero are true, text is true or
false in any case. -/
def toBoolean (s : Scalar) : Except Fault Bool :=
  match s with
  | integer n => .ok (n != 0)
  | real x => .ok (x != 0.0)
  | boolean b => .ok b
  | string t =>
    let lower := (strip t).map Char.toLower
    if lower = "true".toList then .ok true
    else if lower = "false".toList then .ok false
    else .error (s.failure (.kind (.scalar .boolean)) (.notATruthValue t))

/-- A scalar as a single character; only text can be one. -/
def toCharacter (s : Scalar) : Except Fault Char :=
  match s with
  | string t =>
    match t.toList with
    | [c] => .ok c
    | _ => .error (s.failure .character (.notACharacter t))
  | _ => .error (s.failure .character)

/-- A scalar as text. -/
def toText : Scalar → String
  | integer n => toString n.toInt
  | real x => realText x
  | boolean b => if b then "true" else "false"
  | string t => t

/-- Equality of scalars: the same kind and the same content, as reals compare. -/
def beq : Scalar → Scalar → Bool
  | integer a, integer b => a == b
  | real a, real b => a == b
  | boolean a, boolean b => a == b
  | string a, string b => a == b
  | _, _ => false

end Scalar

namespace Value

/-- An integer value; it wraps to 32 bits. -/
def integer (n : Int) : Value := .scalar (.integer (Int32.ofInt n))

/-- A real value. -/
def real (x : Float) : Value := .scalar (.real x)

/-- A truth value. -/
def boolean (b : Bool) : Value := .scalar (.boolean b)

/-- A text value. -/
def string (s : String) : Value := .scalar (.string s)

/-- The kind of a value. -/
def kind : Value → ValueKind
  | scalar s => .scalar s.kind
  | array _ => .array
  | bare => .bare

/-- The failure of a value to become something. -/
def failure (v : Value) (target : ConversionTarget)
    (reason : ConversionReason := .unsupported) : Fault :=
  .conversion ⟨v.kind, target, reason⟩

/-- An array of a given length.  Without values all its slots are unset. -/
def makeArray (length : Int) (slots : List (Option Value)) :
    Except Fault Value :=
  if length ≤ 0 then .error (.configuration (.arrayLength length))
  else if slots.isEmpty then .ok (.array (List.replicate length.toNat none))
  else if slots.length ≠ length.toNat then
    .error (.configuration (.slotCount length slots.length))
  else .ok (.array slots)

/-- A value as an integer. -/
def toInteger : Value → Except Fault Int
  | scalar s => s.toInteger
  | v => .error (v.failure (.kind (.scalar .integer)))

/-- A value as a real. -/
def toReal : Value → Except Fault Float
  | scalar s => s.toReal
  | v => .error (v.failure (.kind (.scalar .real)))

/-- A value as a truth value; an array is true when it has slots. -/
def toBoolean : Value → Except Fault Bool
  | scalar s => s.toBoolean
  | array slots => .ok !slots.isEmpty
  | v => .error (v.failure (.kind (.scalar .boolean)))

/-- A value as a single character. -/
def toCharacter : Value → Except Fault Char
  | scalar s => s.toCharacter
  | v => .error (v.failure .character)

mutual

/-- A value as text; an array is the list of its slots. -/
def toText : Value → Except Fault String
  | scalar s => .ok s.toText
  | array slots => do
    let parts ← slotTexts slots
    pure ("[" ++ ", ".intercalate parts ++ "]")
  | bare => .error (failure bare (.kind (.scalar .string)))

/-- The texts of slots, in order. -/
def slotTexts : List (Option Value) → Except Fault (List String)
  | [] => .ok []
  | none :: rest => do
    let parts ← slotTexts rest
    pure ("None" :: parts)
  | some v :: rest => do
    let part ← toText v
    let parts ← slotTexts rest
    pure (part :: parts)

end

/-- A value as a list of slots; only an array has slots. -/
def toSlots : Value → Except Fault (List (Option Value))
  | array slots => .ok slots
  | v => .error (v.failure (.kind .array))

/-- A value as a scalar of a given kind. -/
def convertScalar (v : Value) : ScalarKind → Except Fault Value
  | .integer => v.toInteger.map integer
  | .real => v.toReal.map real
  | .boolean => v.toBoolean.map boolean
  | .string => v.toText.map string

/-- Slots with each set one as a scalar of a given kind. -/
def convertSlots (kind : ScalarKind) :
    List (Option Value) → Except Fault (List (Option Value))
  | [] => .ok []
  | none :: rest => do
    let slots ← convertSlots kind rest
    pure (none :: slots)
  | some v :: rest => do
    let item ← v.convertScalar kind
    let slots ← convertSlots kind rest
    pure (some item :: slots)

/-- A value as one of a declared type.  Only arrays of the declared length
become arrays, slot by slot; unset slots stay unset. -/
def convert (v : Value) (t : DeclaredType) : Except Fault Value :=
  match t.length with
  | none => v.convertScalar t.kind
  | some length => do
    let slots ← v.toSlots
    if (slots.length : Int) ≠ length then
      throw (v.failure (.declared t) (.lengthMismatch slots.length))
    let slots ← convertSlots t.kind slots
    pure (.array slots)

/-- What a declaration without an initial value starts with. -/
def initial (t : DeclaredType) : Except Fault Value :=
  match t.length, t.kind with
  | some length, _ => makeArray length []
  | none, .integer => .ok (integer 0)
  | none, .real => .ok (real 0.0)
  | none, .boolean => .ok (boolean false)
  | none, .string => .ok (string "")

/-- The content of the slot at an index. -/
def slotAt (slots : List (Option Value)) (index : Int) :
    Except Fault (Option Value) :=
  if index < 0 then .error (.indexOutOfRange index slots.length)
  else
    match slots[index.toNat]? with
    | some slot => .ok slot
    | none => .error (.indexOutOfRange index slots.length)

/-- Slots with a new content at an index. -/
def setSlotAt (slots : List (Option Value)) (index : Int)
    (content : Option Value) : Except Fault (List (Option Value)) :=
  if 0 ≤ index ∧ index < slots.length then
    .ok (slots.set index.toNat content)
  else .error (.indexOutOfRange index slots.length)

mutual

/-- Equality of values: the same kind and equal content.  A bare value equals
none, itself included. -/
def beq : Value → Value → Bool
  | scalar a, scalar b => a.beq b
  | array a, array b => slotsBeq a b
  | _, _ => false

/-- Equality of lists of slots. -/
def slotsBeq : List (Option Value) → List (Option Value) → Bool
  | [], [] => true
  | none :: as, none :: bs => slotsBeq as bs
  | some a :: as, some b :: bs => beq a b && slotsBeq as bs
  | _, _ => false

end

end Value

end Pseudocode
