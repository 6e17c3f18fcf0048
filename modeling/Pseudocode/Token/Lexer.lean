import Pseudocode.Fault
import Pseudocode.Text.WordChar

/-!
# From text to tokens

At each place the longest lexeme that starts there is taken: a run of blanks, a
comment to the end of its line, a word, a number, a text between double quotes,
or a mark.  Blanks and comments give no token, and a word that is a keyword as
a whole gives that keyword.  Where no lexeme starts, the text is refused.

Lines are counted by line feeds only, columns by characters.
-/

namespace Pseudocode.Token

open Text

/-- A lexeme at the start of a text: its kind, if it makes a token, and how many
characters it takes. -/
structure Lexeme where
  kind : Option Kind
  length : Nat
  positive : 0 < length

/-- Whether `c` separates tokens. -/
def isSpace (c : Char) : Bool :=
  c = ' ' || c = '\t' || c = '\x0c' || c = '\r' || c = '\n'

/-- Whether a word can start with `c`. -/
def isWordStart (c : Char) : Bool :=
  isWordChar c && !isDigit c

/-- How many of the first characters are in a class. -/
def span (p : Char → Bool) (cs : List Char) : Nat :=
  (cs.takeWhile p).length

/-- The length of a fraction: a point with at least one digit behind it, or
nothing. -/
def fractionLength : List Char → Nat
  | '.' :: c :: rest => if isDigit c then 2 + span isDigit rest else 0
  | _ => 0

/-- A text in double quotes that ends in its line. -/
def quotedLexeme? (rest : List Char) : Option Lexeme :=
  let inside := span (fun c => c ≠ '"' && c ≠ '\n') rest
  if rest[inside]? = some '"' then some ⟨some .text, inside + 2, by omega⟩
  else none

/-- The longest mark at the start of a text. -/
def markLexeme? (cs : List Char) : Option Lexeme :=
  match Kind.marks.find? fun kind => kind.spelling.toList.isPrefixOf cs with
  | none => none
  | some kind =>
    if h : 0 < kind.spelling.toList.length then
      some ⟨some kind, kind.spelling.toList.length, h⟩
    else none

/-- The longest lexeme at the start of a text, given its first character and
what follows. -/
def lexeme? (c : Char) (rest : List Char) : Option Lexeme :=
  if isSpace c then some ⟨none, 1 + span isSpace rest, by omega⟩
  else if c = '/' ∧ rest.head? = some '/' then
    some ⟨none, 1 + span (· ≠ '\n') rest, by omega⟩
  else if isWordStart c then
    let length := 1 + span isWordChar rest
    some ⟨some (.ofWord (String.ofList ((c :: rest).take length))), length,
      by omega⟩
  else if isDigit c then
    let whole := span isDigit rest
    some ⟨some .number, 1 + whole + fractionLength (rest.drop whole),
      by omega⟩
  else if c = '"' then quotedLexeme? rest
  else markLexeme? (c :: rest)

/-- A place in a text: line and column, both from 1. -/
structure Place where
  line : Nat
  column : Nat
  deriving Repr, DecidableEq

/-- The place behind a character. -/
def Place.step (p : Place) (c : Char) : Place :=
  if c = '\n' then ⟨p.line + 1, 1⟩ else ⟨p.line, p.column + 1⟩

/-- The place behind some characters. -/
def Place.advance (p : Place) (cs : List Char) : Place :=
  cs.foldl Place.step p

/-- The text of a token: what was read, without the quotes of a text. -/
def lexemeText (kind : Kind) (read : List Char) : String :=
  match kind with
  | .text => String.ofList (read.drop 1).dropLast
  | _ => String.ofList read

/-- The tokens of a text that starts at `place`, behind tokens already found
(`found`, the last one first). -/
def scan (place : Place) (found : List Token) :
    List Char → Except Fault (List Token)
  | [] => .ok found.reverse
  | c :: rest =>
    match lexeme? c rest with
    | none => .error (.parse (.unexpectedCharacter place.line place.column))
    | some lexeme =>
      let read := (c :: rest).take lexeme.length
      let behind := place.advance read
      let found :=
        match lexeme.kind with
        | none => found
        | some kind =>
          ⟨kind, lexemeText kind read, place.line, place.column⟩ :: found
      scan behind found ((c :: rest).drop lexeme.length)
termination_by cs => cs.length
decreasing_by
  have := lexeme.positive
  simp only [List.length_drop, List.length_cons]
  omega

/-- The tokens of a program text. -/
def ofText (source : String) : Except Fault (List Token) :=
  scan ⟨1, 1⟩ [] source.toList

end Pseudocode.Token
