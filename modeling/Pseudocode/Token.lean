/-!
# Tokens

A program is read as a list of tokens.  A keyword or mark has one spelling; a
word, a number and a piece of text carry their own.  The end of input is a kind
of its own: it is what the reader sees behind the last token.
-/

namespace Pseudocode

/-- The kinds of tokens. -/
inductive Token.Kind where
  | moduleWord | beginWord | endWord | whileWord | ifWord | elseIfWord
  | elseWord | thenWord | variableWord | letWord | inputWord | outputWord
  | functionWord | classWord | methodWord | returnWord | callWord | trueWord
  | falseWord
  | word | number | text
  | assign | semicolon | dot | comma | colon | plus | minus | multiply | divide
  | leftParen | rightParen | leftBracket | rightBracket
  | less | lessOrEqual | greater | greaterOrEqual | equal | notEqual
  | andAnd | orOr
  | endOfInput
  deriving Repr, DecidableEq, Inhabited

namespace Token.Kind

/-- How a kind is written: the spelling of a keyword or mark, a description of
every other kind. -/
def spelling : Kind → String
  | moduleWord => "module"
  | beginWord => "begin"
  | endWord => "end"
  | whileWord => "while"
  | ifWord => "if"
  | elseIfWord => "elseif"
  | elseWord => "else"
  | thenWord => "then"
  | variableWord => "variable"
  | letWord => "let"
  | inputWord => "input"
  | outputWord => "output"
  | functionWord => "function"
  | classWord => "class"
  | methodWord => "method"
  | returnWord => "return"
  | callWord => "call"
  | trueWord => "true"
  | falseWord => "false"
  | word => "word"
  | number => "number"
  | text => "text"
  | assign => ":="
  | semicolon => ";"
  | dot => "."
  | comma => ","
  | colon => ":"
  | plus => "+"
  | minus => "-"
  | multiply => "*"
  | divide => "/"
  | leftParen => "("
  | rightParen => ")"
  | leftBracket => "["
  | rightBracket => "]"
  | less => "<"
  | lessOrEqual => "<="
  | greater => ">"
  | greaterOrEqual => ">="
  | equal => "=="
  | notEqual => "!="
  | andAnd => "&&"
  | orOr => "||"
  | endOfInput => "end of input"

/-- The name of a kind in a token listing. -/
def label : Kind → String
  | moduleWord => "MODULE"
  | beginWord => "BEGINNING"
  | endWord => "END"
  | whileWord => "WHILE"
  | ifWord => "IF"
  | elseIfWord => "ELSEIF"
  | elseWord => "ELSE"
  | thenWord => "THEN"
  | variableWord => "VARIABLE"
  | letWord => "LET"
  | inputWord => "INPUT"
  | outputWord => "OUTPUT"
  | functionWord => "FUNCTION"
  | classWord => "CLASS"
  | methodWord => "METHOD"
  | returnWord => "RETURN"
  | callWord => "CALL"
  | trueWord => "TRUE"
  | falseWord => "FALSE"
  | word => "WORD"
  | number => "NUMBER"
  | text => "TEXT"
  | assign => "ASSIGN"
  | semicolon => "SEMICOLON"
  | dot => "DOT"
  | comma => "COMMA"
  | colon => "COLON"
  | plus => "PLUS"
  | minus => "MINUS"
  | multiply => "MULTIPLY"
  | divide => "DIVIDE"
  | leftParen => "LPAREN"
  | rightParen => "RPAREN"
  | leftBracket => "LBRACKET"
  | rightBracket => "RBRACKET"
  | less => "LESS"
  | lessOrEqual => "LESS_OR_EQUAL"
  | greater => "GREATER"
  | greaterOrEqual => "GREATER_OR_EQUAL"
  | equal => "EQUAL"
  | notEqual => "NOT_EQUAL"
  | andAnd => "AND_AND"
  | orOr => "OR_OR"
  | endOfInput => "EOF"

/-- The kinds that are whole words. -/
def keywords : List Kind :=
  [moduleWord, beginWord, endWord, whileWord, ifWord, elseIfWord, elseWord,
   thenWord, variableWord, letWord, inputWord, outputWord, functionWord,
   classWord, methodWord, returnWord, callWord, trueWord, falseWord]

/-- The kinds that are marks, those of two characters first. -/
def marks : List Kind :=
  [assign, lessOrEqual, greaterOrEqual, equal, notEqual, andAnd, orOr,
   semicolon, dot, comma, colon, plus, minus, multiply, divide, leftParen,
   rightParen, leftBracket, rightBracket, less, greater]

/-- All kinds. -/
def all : List Kind :=
  keywords ++ [word, number, text] ++ marks ++ [endOfInput]

/-- The kind of a given name. -/
def ofLabel? (name : String) : Option Kind :=
  all.find? fun kind => kind.label = name

/-- The kind of a whole word: a keyword's own, or `word`. -/
def ofWord (s : String) : Kind :=
  (keywords.find? fun kind => kind.spelling = s).getD word

/-- Kinds in a list of alternatives, as messages name them. -/
def alternatives (kinds : List Kind) : String :=
  " or ".intercalate (kinds.map spelling)

end Token.Kind

/-- A token with the place of its first character; line 0 means that no place
is known. -/
structure Token where
  kind : Token.Kind
  text : String
  line : Nat := 0
  column : Nat := 0
  deriving Repr, DecidableEq, Inhabited

namespace Token

/-- What stands behind the last token. -/
def ending : Token := ⟨.endOfInput, "", 0, 0⟩

/-- A token of a kind with its usual spelling, at no known place. -/
def ofKind (kind : Kind) : Token := ⟨kind, kind.spelling, 0, 0⟩

/-- How messages show a token: its text if that is its own, else the spelling of
its kind. -/
def shown (t : Token) : String :=
  match t.kind with
  | .word | .number | .text => t.text
  | kind => kind.spelling

/-- The line of a token in a token listing. -/
def listing (t : Token) : String :=
  s!"{t.line}:{t.column} {t.kind.label} {t.text}"

end Token

end Pseudocode
