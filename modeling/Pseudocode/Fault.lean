import Pseudocode.Token
import Pseudocode.DeclaredType
import Pseudocode.Numeral.Reading
import Pseudocode.Numeral.RealText
import Pseudocode.Text.Quoted

/-!
# Faults

Everything that can go wrong while a program is read, built or run, as causes.
`Fault.message` is the one place where a cause becomes text.
-/

namespace Pseudocode

open Text Numeral

/-- Why a program text is refused. -/
inductive ParseFault where
  /-- No token, blank or comment starts here. -/
  | unexpectedCharacter (line column : Nat)
  /-- One of some kinds was due. -/
  | unexpectedToken (wanted : List Token.Kind) (found : Token)
  /-- An operand was due. -/
  | expressionExpected (found : Token)
  /-- Something follows a complete expression. -/
  | leftover (found : Token)
  /-- An integer literal does not fit 32 bits. -/
  | literalOutOfRange (number : Int)
  /-- Something stands before the first module header. -/
  | moduleExpected (found : Token)
  /-- A statement was due. -/
  | statementExpected (found : Token)
  /-- The input ended inside a body. -/
  | unterminated (owner : String) (wanted : List Token.Kind)
  /-- A closing name differs from its opening one. -/
  | mismatchedEnd (name closing : String)
  /-- An array length has a decimal point. -/
  | fractionalLength (length : String)
  /-- A `call` is followed by something that is no call. -/
  | callExpected (found : Token)
  /-- A `return` stands outside every function. -/
  | returnOutside (found : Token)
  /-- A function with a result returns nothing. -/
  | resultMissing (function : String)
  /-- A function without a result returns something. -/
  | resultUnexpected (function : String)
  deriving Repr, DecidableEq

/-- A complaint with what was wanted and what stands there. -/
def mismatch (complaint wanted found : String) : String :=
  complaint ++ ": expected " ++ wanted ++ ", found " ++ quote found

/-- The text of a refusal. -/
def ParseFault.message : ParseFault → String
  | unexpectedCharacter line column =>
    s!"unexpected character at {line}:{column}"
  | unexpectedToken wanted found =>
    let place :=
      if found.line = 0 then "" else s!" at {found.line}:{found.column}"
    mismatch ("syntax error" ++ place) (Token.Kind.alternatives wanted)
      found.shown
  | expressionExpected found =>
    mismatch "expression expected" "expression" found.shown
  | leftover found =>
    mismatch "unexpected token after expression" "end of expression"
      found.shown
  | literalOutOfRange number =>
    "integer literal " ++ toString number ++ " is out of range"
  | moduleExpected found =>
    mismatch "module header expected" "module" found.shown
  | statementExpected found =>
    mismatch "statement expected" "statement" found.shown
  | unterminated owner wanted =>
    mismatch ("unterminated " ++ owner) (Token.Kind.alternatives wanted)
      "end of input"
  | mismatchedEnd name closing => mismatch "mismatched end" name closing
  | fractionalLength length =>
    mismatch "array length must be an integer" "integer" length
  | callExpected found =>
    mismatch "call expects a function" "function call" found.shown
  | returnOutside found =>
    mismatch "return outside of a function" "statement" found.shown
  | resultMissing function =>
    mismatch ("function " ++ function ++ " must return a value") "expression"
      ";"
  | resultUnexpected function =>
    mismatch ("function " ++ function ++ " has no return type") ";"
      "expression"

/-- What a table of names holds. -/
inductive NameKind where
  | symbolName | variableName | functionName | className
  deriving Repr, DecidableEq, Inhabited

/-- The word for what a table of names holds. -/
def NameKind.word : NameKind → String
  | symbolName => "symbol"
  | variableName => "variable"
  | functionName => "function"
  | className => "class"

/-- What a value was to become. -/
inductive ConversionTarget where
  | kind (kind : ValueKind)
  | character
  | number
  | declared (type : DeclaredType)
  deriving Repr, DecidableEq

/-- The name of a conversion's target. -/
def ConversionTarget.name : ConversionTarget → String
  | kind k => k.name
  | character => "char"
  | number => "number"
  | declared type => type.text

/-- Why a value does not convert. -/
inductive ConversionReason where
  /-- The kind has no such conversion. -/
  | unsupported
  /-- The real is infinite or no number. -/
  | noInteger (x : Float)
  /-- The real rounds to an integer beyond 32 bits. -/
  | realOutOfRange (x : Float)
  /-- The text denotes an integer beyond 32 bits. -/
  | textOutOfRange (s : String)
  /-- The text is no numeral. -/
  | notANumber (s : String)
  /-- The text is neither `true` nor `false`. -/
  | notATruthValue (s : String)
  /-- The text is not one character long. -/
  | notACharacter (s : String)
  /-- The array has another length. -/
  | lengthMismatch (length : Nat)
  /-- The variable holds no array. -/
  | notIndexable (name : String)
  /-- The operand of a sign is no number. -/
  | signNeedsNumber (symbol : String)
  /-- An operand of an operator is no number. -/
  | operatorNeedsNumbers (symbol : String)
  /-- The two kinds have no common order. -/
  | incomparable (symbol : String)
  /-- Arrays cannot be typed in. -/
  | arrayInput
  deriving Repr

/-- The text of a reason, if it adds anything. -/
def ConversionReason.detail : ConversionReason → Option String
  | unsupported => none
  | noInteger x => some (realText x ++ " has no integer value")
  | realOutOfRange x => some (realText x ++ " is out of range")
  | textOutOfRange s => some (quote s ++ " is out of range")
  | notANumber s => some (quote s ++ " is not a number")
  | notATruthValue s => some (quote s ++ " is neither true nor false")
  | notACharacter s => some (quote s ++ " is not a single character")
  | lengthMismatch length =>
    some ("length " ++ toString length ++ " does not match")
  | notIndexable name => some (name ++ " cannot be indexed")
  | signNeedsNumber symbol => some ("unary " ++ symbol ++ " needs a number")
  | operatorNeedsNumbers symbol =>
    some ("operator " ++ symbol ++ " needs numbers")
  | incomparable symbol => some ("cannot compare with " ++ symbol)
  | arrayInput => some "cannot input an array"

/-- A conversion that failed. -/
structure ConversionFault where
  source : ValueKind
  target : ConversionTarget
  reason : ConversionReason := .unsupported
  deriving Repr

/-- The text of a failed conversion. -/
def ConversionFault.message (f : ConversionFault) : String :=
  let head := "cannot convert " ++ f.source.name ++ " to " ++ f.target.name
  match f.reason.detail with
  | none => head
  | some detail => head ++ ": " ++ detail

/-- Why something cannot be put together as asked. -/
inductive ConfigurationFault where
  /-- An array has no slots. -/
  | arrayLength (length : Int)
  /-- An array is given another number of values than it has slots. -/
  | slotCount (length : Int) (given : Nat)
  /-- An operator's first nested operator is already set. -/
  | childTaken (operator : String)
  /-- An operator's successor is already set. -/
  | siblingTaken (operator : String)
  deriving Repr, DecidableEq

/-- The text of a refused configuration. -/
def ConfigurationFault.message : ConfigurationFault → String
  | arrayLength length =>
    "array length must be at least 1, got " ++ toString length
  | slotCount length given =>
    "array of length " ++ toString length ++ " given " ++ toString given
      ++ " values"
  | childTaken operator => operator ++ " already has a child"
  | siblingTaken operator => operator ++ " already has a sibling"

/-- What has no value yet. -/
inductive UnsetFault where
  /-- There is no scope to read from. -/
  | noScope (name : String)
  /-- The variable is unbound. -/
  | unboundVariable (name : String)
  /-- The slot is unset. -/
  | emptySlot (name : String) (index : Int)
  deriving Repr, DecidableEq

/-- The text of a missing value. -/
def UnsetFault.message : UnsetFault → String
  | noScope name => "no scope to read " ++ name ++ " from"
  | unboundVariable name => "variable " ++ name ++ " has no value"
  | emptySlot name index => name ++ "[" ++ toString index ++ "] is unset"

/-- Why a statement or a call cannot be carried out. -/
inductive ExecutionFault where
  /-- No frame is open. -/
  | noActiveScope
  /-- Calls need a running program. -/
  | callOutside (function : String)
  /-- A call has the wrong number of arguments. -/
  | wrongArity (function : String) (expected given : Nat)
  /-- The function's module has no frame. -/
  | moduleNotRunning (name : String)
  /-- A function with a result came to its end without one. -/
  | noReturn (function : String)
  /-- A function without a result stands in an expression. -/
  | noResult (function : String)
  /-- The prepared answers are used up. -/
  | noAnswer (name : String)
  /-- The input ended. -/
  | inputEnded (name : String)
  /-- Calls are nested too deeply. -/
  | callTooDeep (function : String)
  deriving Repr, DecidableEq

/-- The text of a statement or call that cannot be carried out. -/
def ExecutionFault.message : ExecutionFault → String
  | noActiveScope => "no active scope"
  | callOutside function =>
    "cannot call " ++ function ++ " outside of an interpreter"
  | wrongArity function expected given =>
    function ++ " expects " ++ toString expected ++ " arguments, got "
      ++ toString given
  | moduleNotRunning name => "module " ++ name ++ " is not running"
  | noReturn function => "function " ++ function ++ " finished without return"
  | noResult function =>
    "function " ++ function ++ " does not return a value"
  | noAnswer name => "no answer left for " ++ name
  | inputEnded name => "input for " ++ name ++ " ended"
  | callTooDeep function =>
    "function " ++ function ++ " failed: call depth exceeded"

/-- Everything that can go wrong. -/
inductive Fault where
  | parse (fault : ParseFault)
  /-- The name is not declared. -/
  | undeclared (kind : NameKind) (name : String)
  /-- The name is declared already. -/
  | redeclared (kind : NameKind) (name : String)
  | conversion (fault : ConversionFault)
  | configuration (fault : ConfigurationFault)
  /-- The array has no such slot. -/
  | indexOutOfRange (index : Int) (length : Nat)
  | unset (fault : UnsetFault)
  | divisionByZero
  | execution (fault : ExecutionFault)
  /-- The body of a function failed. -/
  | failedIn (function : String) (cause : Fault)
  /-- The result of a function does not convert to its declared type. -/
  | badResult (function : String) (cause : ConversionFault)
  /-- The operator has no meaning on these operands. -/
  | unknownOperator (symbol : String)
  /-- The expression is nothing but an expression. -/
  | notEvaluable
  /-- The operator is part of another and not executed by itself. -/
  | notExecutable
  /-- A numeral cannot be read. -/
  | numeral (fault : NumeralFault)
  /-- There is no such operator or position. -/
  | missingPosition
  /-- The table has no such operation. -/
  | missingOperation
  /-- Something is nested too deeply. -/
  | tooDeep
  deriving Repr

/-- The text of a fault. -/
def Fault.message : Fault → String
  | parse fault => fault.message
  | undeclared kind name => kind.word ++ " " ++ quote name ++ " is not declared"
  | redeclared kind name =>
    kind.word ++ " " ++ quote name ++ " is already declared"
  | conversion fault => fault.message
  | configuration fault => fault.message
  | indexOutOfRange index length =>
    "index " ++ toString index ++ " out of range for array of length "
      ++ toString length
  | unset fault => fault.message
  | divisionByZero => "division by zero"
  | execution fault => fault.message
  | failedIn function cause =>
    "function " ++ function ++ " failed: " ++ cause.message
  | badResult function cause =>
    "function " ++ function ++ " returned a bad value: " ++ cause.message
  | unknownOperator symbol => "unknown operator " ++ symbol
  | notEvaluable => "the expression has no value"
  | notExecutable => "the operator is not executed by itself"
  | numeral _ => "the numeral cannot be read"
  | missingPosition => "no such position"
  | missingOperation => "no such operation"
  | tooDeep => "maximum recursion depth exceeded"

end Pseudocode
