import Pseudocode.Expr
import Pseudocode.Token.Stream

/-!
# From tokens to expressions

The levels of the grammar, loosest first, each written over the next tighter
one:

    or        := and ('||' and)*
    and       := equality ('&&' equality)*
    equality  := relation (('==' | '!=') relation)?
    relation  := additive (('<' | '<=' | '>' | '>=') additive)*
    additive  := term (('+' | '-') term)*
    term      := unary (('*' | '/') unary)*
    unary     := '-' primary | primary
    primary   := NUMBER | TEXT | true | false | '(' or ')'
               | WORD | WORD '[' or ']' | WORD '(' arguments ')'
               | WORD '.' WORD '(' arguments ')'

Rows of one level lean to the left.  Equality does not chain.  A minus directly
before an integer is part of the literal, so that the least integer can be
written.

Every level takes the reader for a whole expression (`inner`) as an argument, so
the only recursion is `expression`, on how deeply expressions may be nested.
Repetitions take the tokens that were ahead when they began as a bound: each
round uses up at least one token.
-/

namespace Pseudocode

open Numeral

/-- Which names an expression can use. -/
structure Names where
  /-- The variable of a name, if it is visible. -/
  resolve : String → Option Occurrence
  /-- The function of a name. -/
  function : String → Except Fault Callee
  /-- The method of a class, by the two names. -/
  method : String → String → Except Fault Callee

/-- The names outside of a module: only variables. -/
def Names.variablesOnly (hasVariable : String → Bool) : Names where
  resolve name := if hasVariable name then some name else none
  function name := .error (.undeclared .functionName name)
  method owner _ := .error (.undeclared .className owner)

/-- How deeply expressions and bodies may be nested in a program text. -/
def nestingLimit : Nat := 500

/-- Whether a number's text has a decimal point. -/
def hasPoint (text : String) : Bool := text.toList.contains '.'

/-- The value of a number's text.  An integer has to fit 32 bits with its
sign. -/
def readNumber (text : String) (negative : Bool) : Except Fault Value :=
  if hasPoint text then
    match readReal text with
    | some x => .ok (.real x)
    | none => .error (.numeral .malformed)
  else
    match readInteger text with
    | .error fault => .error (.numeral fault)
    | .ok n =>
      let n := if negative then -n else n
      if isInt32 n then .ok (.integer n)
      else .error (.parse (.literalOutOfRange n))

namespace Expr

open Reader

/-- A literal number from a token. -/
def numberLiteral (t : Token) (negative : Bool) : Reader Expr :=
  (readNumber t.text negative).map literal

/-- Further items, each behind a comma; at most one for each token of the list
given. -/
def behindCommas (item : Reader α) : List Token → Reader (List α)
  | [] => return []
  | _ :: bound => do
    if ← sees [.comma] then
      let _ ← take [.comma]
      let a ← item
      return a :: (← behindCommas item bound)
    else return []

/-- Items between parentheses, separated by commas; there may be none. -/
def parenthesised (item : Reader α) : Reader (List α) := do
  let _ ← take [.leftParen]
  if ← sees [.rightParen] then
    let _ ← take [.rightParen]
    return []
  else
    let a ← item
    let rest ← behindCommas item (← get)
    let _ ← take [.rightParen]
    return a :: rest

/-- Whether a method call's rest is ahead: a point, a word and a parenthesis. -/
def seesMethod : Reader Bool := do
  let ahead ← get
  return (Token.first ahead).kind = .dot
    && (Token.first (ahead.drop 1)).kind = .word
    && (Token.first (ahead.drop 2)).kind = .leftParen

/-- A variable, one of its slots, or a call, all of which start with a word. -/
def named (names : Names) (inner : Reader Expr) : Reader Expr := do
  let name := (← take [.word]).text
  if ← sees [.leftParen] then
    let callee ← names.function name
    return call name callee (← parenthesised inner)
  else if ← seesMethod then
    let _ ← take [.dot]
    let method := (← take [.word]).text
    let callee ← names.method name method
    return call (name ++ "." ++ method) callee (← parenthesised inner)
  else
    match names.resolve name with
    | none => throw (.undeclared .variableName name)
    | some target =>
      if ← sees [.leftBracket] then
        let _ ← take [.leftBracket]
        let index ← inner
        let _ ← take [.rightBracket]
        return slot target index
      else return read target

/-- An operand. -/
def primary (names : Names) (inner : Reader Expr) : Reader Expr := do
  let t ← look
  match t.kind with
  | .number =>
    let _ ← take [.number]
    numberLiteral t false
  | .text =>
    let _ ← take [.text]
    return literal (.string t.text)
  | .trueWord =>
    let _ ← take [.trueWord]
    return literal (.boolean true)
  | .falseWord =>
    let _ ← take [.falseWord]
    return literal (.boolean false)
  | .word => named names inner
  | .leftParen =>
    let _ ← take [.leftParen]
    let e ← inner
    let _ ← take [.rightParen]
    return e
  | _ => refuse (.expressionExpected t)

/-- An operand with at most one minus before it. -/
def unary (names : Names) (inner : Reader Expr) : Reader Expr := do
  if ← sees [.minus] then
    let _ ← take [.minus]
    let t ← look
    if t.kind = .number && !hasPoint t.text then
      let _ ← take [.number]
      numberLiteral t true
    else return sign "-" (← primary names inner)
  else primary names inner

/-- The rest of a row: operators of one level, each with a right operand; at
most one for each token of the list given. -/
def rowRest (kinds : List Token.Kind) (join : String → Expr → Expr → Expr)
    (operand : Reader Expr) : List Token → Expr → Reader Expr
  | [], left => return left
  | _ :: bound, left => do
    if ← sees kinds then
      let t ← take kinds
      let right ← operand
      rowRest kinds join operand bound (join t.kind.spelling left right)
    else return left

/-- A row of operands with operators of one level between them. -/
def row (kinds : List Token.Kind) (join : String → Expr → Expr → Expr)
    (operand : Reader Expr) : Reader Expr := do
  let left ← operand
  rowRest kinds join operand (← get) left

/-- An arithmetic node from its symbol. -/
def joinArithmetic (symbol : String) : Expr → Expr → Expr :=
  arithmetic (.ofSymbol symbol)

/-- A node with a truth value from its symbol. -/
def joinCondition (symbol : String) : Expr → Expr → Expr :=
  condition (.ofSymbol symbol)

/-- The level of `*` and `/`. -/
def term (names : Names) (inner : Reader Expr) : Reader Expr :=
  row [.multiply, .divide] joinArithmetic (unary names inner)

/-- The level of `+` and `-`. -/
def additive (names : Names) (inner : Reader Expr) : Reader Expr :=
  row [.plus, .minus] joinArithmetic (term names inner)

/-- The level of the order comparisons. -/
def relation (names : Names) (inner : Reader Expr) : Reader Expr :=
  row [.less, .lessOrEqual, .greater, .greaterOrEqual] joinCondition
    (additive names inner)

/-- The level of `==` and `!=`, of which at most one stands in a row. -/
def equality (names : Names) (inner : Reader Expr) : Reader Expr := do
  let left ← relation names inner
  if ← sees [.equal, .notEqual] then
    let t ← take [.equal, .notEqual]
    return joinCondition t.kind.spelling left (← relation names inner)
  else return left

/-- The level of `&&`. -/
def conjunction (names : Names) (inner : Reader Expr) : Reader Expr :=
  row [.andAnd] joinCondition (equality names inner)

/-- The level of `||`. -/
def disjunction (names : Names) (inner : Reader Expr) : Reader Expr :=
  row [.orOr] joinCondition (conjunction names inner)

/-- An expression nested at most so deep. -/
def expression (names : Names) : Nat → Reader Expr
  | 0 => throw .tooDeep
  | depth + 1 => disjunction names (expression names depth)

/-- The expression that the tokens start with, and the tokens behind it. -/
def parse (names : Names) (tokens : List Token) :
    Except Fault (Expr × List Token) :=
  (expression names nestingLimit).run tokens

/-- The expression that the tokens are, all of them. -/
def parseAll (names : Names) (tokens : List Token) : Except Fault Expr := do
  let (e, ahead) ← parse names tokens
  if Token.atEnd ahead then return e
  else throw (.parse (.leftover (Token.first ahead)))

end Expr

end Pseudocode
