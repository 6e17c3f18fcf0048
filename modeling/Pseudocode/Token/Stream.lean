import Pseudocode.Position

/-!
# Reading tokens

A reader of tokens holds the tokens still ahead.  It looks at the first of them,
asks for one of some kinds, and takes it.  Behind the last token there is always
the end of input, and the end of input is never taken.

A `Cursor` also remembers where reading began, so that tokens can be looked at by
their distance.
-/

namespace Pseudocode

namespace Token

/-- The first token ahead. -/
def first : List Token → Token
  | [] => ending
  | t :: _ => t

/-- Whether the first token ahead is of one of some kinds. -/
def firstIs (kinds : List Kind) (ahead : List Token) : Bool :=
  kinds.contains (first ahead).kind

/-- Whether there is nothing ahead. -/
def atEnd (ahead : List Token) : Bool :=
  (first ahead).kind = .endOfInput

/-- Takes the first token ahead if it is of one of some kinds. -/
def take (kinds : List Kind) (ahead : List Token) :
    Except Fault (Token × List Token) :=
  let t := first ahead
  if kinds.contains t.kind then
    .ok (t, if t.kind = .endOfInput then ahead else ahead.tail)
  else .error (.parse (.unexpectedToken kinds t))

end Token

/-- What reads tokens from those ahead. -/
abbrev Reader := StateT (List Token) (Except Fault)

namespace Reader

/-- Fails for a reason found in the tokens. -/
def refuse (fault : ParseFault) : Reader α :=
  throw (.parse fault)

/-- The first token ahead. -/
def look : Reader Token := do
  return Token.first (← get)

/-- Whether the first token ahead is of one of some kinds. -/
def sees (kinds : List Token.Kind) : Reader Bool := do
  return Token.firstIs kinds (← get)

/-- Takes a token of one of some kinds. -/
def take (kinds : List Token.Kind) : Reader Token := fun ahead =>
  Token.take kinds ahead

end Reader

/-- A position among tokens. -/
structure Cursor where
  tokens : List Token
  ahead : List Token

namespace Cursor

/-- The position before the first of some tokens. -/
def start (tokens : List Token) : Cursor := ⟨tokens, tokens⟩

/-- How many tokens are behind. -/
def position (c : Cursor) : Nat := c.tokens.length - c.ahead.length

/-- The token at a distance.  Behind the last token there is the end of input; a
position before the first one counts from the end. -/
def lookAt (c : Cursor) (offset : Int) : Except Fault Token := do
  let target := (c.position : Int) + offset
  if (c.tokens.length : Int) ≤ target then return Token.ending
  else
    let index ← Pseudocode.position c.tokens.length target
    return c.tokens.getD index Token.ending

/-- Takes a token of one of some kinds. -/
def take (c : Cursor) (kinds : List Token.Kind) :
    Except Fault (Token × Cursor) := do
  let (t, ahead) ← Token.take kinds c.ahead
  return (t, { c with ahead })

end Cursor

end Pseudocode
