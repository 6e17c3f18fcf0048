import Pseudocode.Program
import Pseudocode.Proofs.Literal
import Pseudocode.Proofs.Tree

/-!
# The grammar of programs

Which tokens are a program, as rules.  What a name may be used for depends on what
stands before it, so the rules pass a *context* along: the names declared so far, in
the open module, in its classes and in the open function.  A declaration is read in
the context before it and leaves one with a name more; a name has to be new in the
table that it goes into, and every name that is used has to be found.

    item      := 'module' WORD ';' | 'begin' | 'function' function
               | 'class' WORD ('method' function)* 'end' WORD '.' | statement
    function  := WORD '(' (type WORD (',' type WORD)*)? ')' (':' type)?
                 statement* 'end' WORD '.'
    statement := 'variable' '-' type WORD (':=' expression)? ';'
               | 'let' WORD ('[' expression ']')? ':=' expression ';'
               | 'input' WORD ';' | 'output' expression ';'
               | 'call' primary ';' | 'return' expression? ';'
               | 'while' expression 'then' statement* 'end' 'while' '.'
               | 'if' expression 'then' statement*
                 ('elseif' expression 'then' statement*)*
                 ('else' statement*)? 'end' 'if' '.'
    type      := WORD ('[' NUMBER ']')?

An item is a tree: a function holds its statements, a class its methods.  A program
is a row of items.  In its forest the items of a module are nested in the header,
and what stands behind a `begin` is nested in that `begin` (`arrange`).

What the text of a number means is a parameter of the rules (`Numbering`).
-/

namespace Pseudocode.Source

open Grammar

/-- What numbers denote: as literals, with a minus before them or without, and as
lengths of arrays. -/
structure Numbering where
  literal : String → Bool → Value → Prop
  length : String → Int → Prop

/-- Numbers as the builder of programs reads them. -/
def Numbering.read : Numbering where
  literal := Reads
  length text n := hasPoint text = false ∧ Numeral.readInteger text = .ok n

/-- Numbers in base ten. -/
def Numbering.decimal : Numbering where
  literal := Denotes
  length text n := IsDigits text.toList ∧ n = decimalValue text.toList

/-! ## Contexts -/

/-- The header of a function. -/
structure Signature where
  name : String
  owner : Option String
  parameters : List Parameter
  result : Option DeclaredType
  module : String

/-- What has been declared before some point of a program. -/
structure Context where
  /-- The names of the modules so far; the last one is open. -/
  modules : List String := []
  /-- The variables of the open module. -/
  vars : List String := []
  /-- The functions of the open module, with their numbers. -/
  functions : List (String × Nat) := []
  /-- The classes of the open module, with their numbers. -/
  classes : List (String × Nat) := []
  /-- The methods of each class so far, with their numbers as functions. -/
  methods : List (List (String × Nat)) := []
  /-- The functions so far. -/
  signatures : List Signature := []
  /-- The number and the variables of the function that is open. -/
  opened : Option (Nat × List String) := none

/-- Where a function is declared: in a module, or in a class. -/
inductive Place where
  | module
  | classOf (name : String) (number : Nat)

/-- The class of a place. -/
def Place.owner : Place → Option String
  | module => none
  | classOf name _ => some name

/-- The operator of a function. -/
def Place.operator (place : Place) (name : String) (number : Nat) : Operator :=
  match place with
  | module => .function name number
  | classOf .. => .method name number

namespace Context

/-- The variables of the open function. -/
def own (Γ : Context) : List String := (Γ.opened.map Prod.snd).getD []

/-- An occurrence at this point of a variable that lives somewhere. -/
def occurrence (Γ : Context) (name : String) (home : Home) : Occurrence :=
  ⟨name, some ⟨Γ.modules.length - 1, Γ.opened.map Prod.fst, home⟩⟩

/-- The variable of a name: one of the open function, or else of the module. -/
def resolve (Γ : Context) (name : String) : Option Occurrence :=
  if name ∈ Γ.own then some (Γ.occurrence name .call)
  else if name ∈ Γ.vars then some (Γ.occurrence name .module)
  else none

/-- The function or method that a table has under a name. -/
def callee (table : List (String × Nat)) (name : String) : Except Fault Callee :=
  match table.lookup name with
  | none => .error (.undeclared .functionName name)
  | some number => .ok (.declared number)

/-- The names that expressions can use. -/
def names (Γ : Context) : Names where
  resolve := Γ.resolve
  function := callee Γ.functions
  method owner name :=
    match (Γ.classes.lookup owner).bind fun number => Γ.methods[number]? with
    | none => .error (.undeclared .className owner)
    | some table => callee table name

/-- The table that a variable is declared in: that of the open function, or else of
the module. -/
def table (Γ : Context) : List String :=
  match Γ.opened with
  | none => Γ.vars
  | some (_, own) => own

/-- Behind the declaration of a variable. -/
def declare (Γ : Context) (name : String) : Context :=
  match Γ.opened with
  | none => { Γ with vars := Γ.vars ++ [name] }
  | some (number, own) => { Γ with opened := some (number, own ++ [name]) }

/-- What the open function gives back. -/
def result? (Γ : Context) : Option (Option DeclaredType) :=
  Γ.opened.bind fun function => (Γ.signatures[function.1]?).map Signature.result

/-- Behind the header of a module. -/
def openModule (Γ : Context) (name : String) : Context :=
  { Γ with
    modules := Γ.modules ++ [name], vars := [], functions := [], classes := [] }

/-- The functions that are declared in a place. -/
def functionsOf (Γ : Context) : Place → List (String × Nat)
  | .module => Γ.functions
  | .classOf _ number => (Γ.methods[number]?).getD []

/-- The header of a function at this point. -/
def signature (Γ : Context) (place : Place) (name : String)
    (parameters : List Parameter) (result : Option DeclaredType) : Signature :=
  ⟨name, place.owner, parameters, result, Γ.modules.getLast?.getD ""⟩

/-- Behind the header of a function, which is declared and open. -/
def enter (Γ : Context) (place : Place) (s : Signature) : Context :=
  let functions := Γ.functionsOf place ++ [(s.name, Γ.signatures.length)]
  let Γ : Context :=
    { Γ with
      signatures := Γ.signatures ++ [s]
      opened := some (Γ.signatures.length, s.parameters.map Parameter.name) }
  match place with
  | .module => { Γ with functions }
  | .classOf _ number => { Γ with methods := Γ.methods.set number functions }

/-- Behind the end of a function. -/
def leave (Γ : Context) : Context := { Γ with opened := none }

/-- Behind the name of a class. -/
def openClass (Γ : Context) (name : String) : Context :=
  { Γ with
    classes := Γ.classes ++ [(name, Γ.methods.length)]
    methods := Γ.methods ++ [[]] }

end Context

/-! ## Small parts -/

/-- Tokens of given kinds. -/
def Marks (ts : List Token) (kinds : List Token.Kind) : Prop :=
  ts.map Token.kind = kinds

section

variable {α : Type}

/-- Something that may be left out. -/
inductive Optionally (r : List Token → α → Prop) : List Token → Option α → Prop where
  | absent : Optionally r [] none
  | present {ts a} (there : r ts a) : Optionally r ts (some a)

/-- Something behind a token of a kind. -/
inductive Behind (kind : Token.Kind) (r : List Token → α → Prop) :
    List Token → α → Prop where
  | mk {t ts a} (mark : t.kind = kind) (rest : r ts a) : Behind kind r (t :: ts) a

/-- Something between brackets. -/
inductive Bracketed (r : List Token → α → Prop) : List Token → α → Prop where
  | mk {opening ts a closing} (left : opening.kind = .leftBracket) (inside : r ts a)
      (right : closing.kind = .rightBracket) :
      Bracketed r (opening :: ts ++ [closing]) a

/-- Items between parentheses, with commas between them. -/
inductive Parenthesised (r : List Token → α → Prop) : List Token → List α → Prop where
  | none {opening closing} (left : opening.kind = .leftParen)
      (right : closing.kind = .rightParen) : Parenthesised r [opening, closing] []
  | some {opening ts a more closing} (left : opening.kind = .leftParen)
      (first : r ts a) (others : ∀ b ∈ more, Behind .comma r b.1 b.2)
      (right : closing.kind = .rightParen) :
      Parenthesised r
        (opening :: ts ++ (more : List (List Token × α)).flatMap Prod.fst ++ [closing])
        (a :: more.map Prod.snd)

end

/-- The kind that the word of a type names.  Every word but three names text. -/
inductive KindNamed : String → ScalarKind → Prop where
  | integer : KindNamed "integer" .integer
  | real : KindNamed "real" .real
  | boolean : KindNamed "boolean" .boolean
  | string {word} (other : word ∉ ["integer", "real", "boolean"]) : KindNamed word .string

/-- Which tokens are a type. -/
inductive TypeWritten (N : Numbering) : List Token → DeclaredType → Prop where
  | scalar {t kind} (word : t.kind = .word) (named : KindNamed t.text kind) :
      TypeWritten N [t] ⟨kind, none⟩
  | array {t kind opening size closing n} (word : t.kind = .word)
      (named : KindNamed t.text kind) (left : opening.kind = .leftBracket)
      (number : size.kind = .number) (length : N.length size.text n) (positive : 1 ≤ n)
      (right : closing.kind = .rightBracket) :
      TypeWritten N [t, opening, size, closing] ⟨kind, some n⟩

/-- Which tokens are a parameter. -/
inductive ParameterWritten (N : Numbering) : List Token → Parameter → Prop where
  | mk {ts type t} (kind : TypeWritten N ts type) (word : t.kind = .word) :
      ParameterWritten N (ts ++ [t]) ⟨type, t.text⟩

/-- Which tokens are an expression. -/
def ExprWritten (N : Numbering) (Γ : Context) (ts : List Token) (e : Expr) : Prop :=
  Derives Γ.names N.literal .disjunction ts e

/-- The end of a function or a class, which repeats its name. -/
inductive Closes (name : String) : List Token → Prop where
  | mk {ending t dot} (first : ending.kind = .endWord) (word : t.kind = .word)
      (same : t.text = name) (last : dot.kind = .dot) : Closes name [ending, t, dot]

/-! ## Statements -/

/-- What the rules for statements speak of: one statement, the statements of a body,
and the further branches of a conditional. -/
inductive Part where
  | statement | body | alternatives | fallback

/-- Which tokens are statements, and the context behind them. -/
inductive Written (N : Numbering) :
    Part → Context → List Token → List (Tree Operator) → Context → Prop where
  | declaration {Γ opening ts type name init initial semicolon}
      (head : Marks opening [.variableWord, .minus]) (kind : TypeWritten N ts type)
      (word : name.kind = .word)
      (value : Optionally (Behind .assign (ExprWritten N Γ)) init initial)
      (last : semicolon.kind = .semicolon) (fresh : name.text ∉ Γ.table) :
      Written N .statement Γ (opening ++ ts ++ name :: init ++ [semicolon])
        [.leaf (.declaration type name.text initial)] (Γ.declare name.text)
  | assignment {Γ opening name target place element assign ts value semicolon}
      (head : opening.kind = .letWord) (word : name.kind = .word)
      (found : Γ.resolve name.text = some target)
      (slot : Optionally (Bracketed (ExprWritten N Γ)) place element)
      (mark : assign.kind = .assign) (expression : ExprWritten N Γ ts value)
      (last : semicolon.kind = .semicolon) :
      Written N .statement Γ (opening :: name :: place ++ assign :: ts ++ [semicolon])
        [.leaf (.assignment target element value)] Γ
  | input {Γ opening name target semicolon} (head : opening.kind = .inputWord)
      (word : name.kind = .word) (found : Γ.resolve name.text = some target)
      (last : semicolon.kind = .semicolon) :
      Written N .statement Γ [opening, name, semicolon] [.leaf (.input target)] Γ
  | output {Γ opening ts value semicolon} (head : opening.kind = .outputWord)
      (expression : ExprWritten N Γ ts value) (last : semicolon.kind = .semicolon) :
      Written N .statement Γ (opening :: ts ++ [semicolon]) [.leaf (.output value)] Γ
  /-- An operand that is a call once its parentheses are dropped. -/
  | call {Γ opening ts name callee arguments semicolon}
      (head : opening.kind = .callWord)
      (operand : Derives Γ.names N.literal .primary ts (.call name callee arguments))
      (last : semicolon.kind = .semicolon) :
      Written N .statement Γ (opening :: ts ++ [semicolon])
        [.leaf (.call name callee arguments)] Γ
  /-- Only in a function, and with an expression exactly if that has a result. -/
  | giveBack {Γ opening ts result semicolon expected}
      (head : opening.kind = .returnWord)
      (value : Optionally (ExprWritten N Γ) ts result)
      (last : semicolon.kind = .semicolon) (function : Γ.result? = some expected)
      (agrees : result.isSome = expected.isSome) :
      Written N .statement Γ (opening :: ts ++ [semicolon])
        [.leaf (.giveBack result)] Γ
  | loop {Γ opening guard ts e body nested Γ' closing} (head : opening.kind = .whileWord)
      (condition : ExprWritten N Γ ts e) (mark : guard.kind = .thenWord)
      (inside : Written N .body Γ body nested Γ')
      (last : Marks closing [.endWord, .whileWord, .dot]) :
      Written N .statement Γ (opening :: ts ++ guard :: body ++ closing)
        [.node (.loop e) nested [] none] Γ'
  | branch {Γ opening guard ts e body nested Γ₁ others alternatives Γ₂ final fallback Γ'
        closing}
      (head : opening.kind = .ifWord) (condition : ExprWritten N Γ ts e)
      (mark : guard.kind = .thenWord) (inside : Written N .body Γ body nested Γ₁)
      (further : Written N .alternatives Γ₁ others alternatives Γ₂)
      (otherwise : Written N .fallback Γ₂ final (Option.toList fallback) Γ')
      (last : Marks closing [.endWord, .ifWord, .dot]) :
      Written N .statement Γ (opening :: ts ++ guard :: body ++ others ++ final ++ closing)
        [.node (.branch e) nested alternatives fallback] Γ'
  | done {Γ} : Written N .body Γ [] [] Γ
  | next {Γ ts tree Γ₁ us trees Γ'} (first : Written N .statement Γ ts [tree] Γ₁)
      (rest : Written N .body Γ₁ us trees Γ') :
      Written N .body Γ (ts ++ us) (tree :: trees) Γ'
  | noAlternative {Γ} : Written N .alternatives Γ [] [] Γ
  | alternative {Γ opening guard ts e body nested Γ₁ us trees Γ'}
      (head : opening.kind = .elseIfWord) (condition : ExprWritten N Γ ts e)
      (mark : guard.kind = .thenWord) (inside : Written N .body Γ body nested Γ₁)
      (rest : Written N .alternatives Γ₁ us trees Γ') :
      Written N .alternatives Γ (opening :: ts ++ guard :: body ++ us)
        (.node (.elseIf e) nested [] none :: trees) Γ'
  | noFallback {Γ} : Written N .fallback Γ [] [] Γ
  | fallback {Γ opening body nested Γ'} (head : opening.kind = .elseWord)
      (inside : Written N .body Γ body nested Γ') :
      Written N .fallback Γ (opening :: body) [.node .elseBranch nested [] none] Γ'

/-! ## Functions, classes and modules -/

/-- Which tokens are a function or method behind its leading word. -/
inductive FunctionWritten (N : Numbering) (place : Place) :
    Context → List Token → Tree Operator → Context → Prop where
  | mk {Γ name list parameters type result body nested Γ' closing}
      (word : name.kind = .word)
      (header : Parenthesised (ParameterWritten N) list parameters)
      (gives : Optionally (Behind .colon (TypeWritten N)) type result)
      (fresh : name.text ∉ (Γ.functionsOf place).map Prod.fst)
      (distinct : (parameters.map Parameter.name).Nodup)
      (inside : Written N .body
        (Γ.enter place (Γ.signature place name.text parameters result)) body nested Γ')
      (last : Closes name.text closing) :
      FunctionWritten N place Γ (name :: list ++ type ++ body ++ closing)
        (.node (place.operator name.text Γ.signatures.length) nested [] none) Γ'.leave

/-- Which tokens are the methods of a class. -/
inductive MethodsWritten (N : Numbering) (place : Place) :
    Context → List Token → List (Tree Operator) → Context → Prop where
  | done {Γ} : MethodsWritten N place Γ [] [] Γ
  | next {Γ opening ts tree Γ₁ us trees Γ'} (head : opening.kind = .methodWord)
      (first : FunctionWritten N place Γ ts tree Γ₁)
      (rest : MethodsWritten N place Γ₁ us trees Γ') :
      MethodsWritten N place Γ (opening :: ts ++ us) (tree :: trees) Γ'

/-- Which tokens are an item of a program.  All but the header of a module stand in
a module. -/
inductive ItemWritten (N : Numbering) :
    Context → List Token → Tree Operator → Context → Prop where
  | header {Γ opening name semicolon} (head : opening.kind = .moduleWord)
      (word : name.kind = .word) (last : semicolon.kind = .semicolon) :
      ItemWritten N Γ [opening, name, semicolon]
        (.leaf (.module name.text Γ.modules.length)) (Γ.openModule name.text)
  | beginning {Γ opening} (inside : Γ.modules ≠ []) (head : opening.kind = .beginWord) :
      ItemWritten N Γ [opening] (.leaf .beginning) Γ
  | function {Γ opening ts tree Γ'} (inside : Γ.modules ≠ [])
      (head : opening.kind = .functionWord)
      (function : FunctionWritten N .module Γ ts tree Γ') :
      ItemWritten N Γ (opening :: ts) tree Γ'
  | classDeclaration {Γ opening name ts methods Γ' closing} (inside : Γ.modules ≠ [])
      (head : opening.kind = .classWord) (word : name.kind = .word)
      (fresh : name.text ∉ Γ.classes.map Prod.fst)
      (members : MethodsWritten N (.classOf name.text Γ.methods.length)
        (Γ.openClass name.text) ts methods Γ')
      (last : Closes name.text closing) :
      ItemWritten N Γ (opening :: name :: ts ++ closing)
        (.node (.classDeclaration name.text Γ.methods.length) methods [] none) Γ'
  | statement {Γ ts tree Γ'} (inside : Γ.modules ≠ [])
      (statement : Written N .statement Γ ts [tree] Γ') : ItemWritten N Γ ts tree Γ'

/-- Which tokens are a row of items. -/
inductive ItemsWritten (N : Numbering) :
    Context → List Token → List (Tree Operator) → Context → Prop where
  | done {Γ} : ItemsWritten N Γ [] [] Γ
  | next {Γ ts tree Γ₁ us trees Γ'} (first : ItemWritten N Γ ts tree Γ₁)
      (rest : ItemsWritten N Γ₁ us trees Γ') :
      ItemsWritten N Γ (ts ++ us) (tree :: trees) Γ'

/-- Which tokens are a program: the items up to an `end` that belongs to none of
them, or up to the end of input.  What stands behind that is left alone. -/
def ProgramWritten (N : Numbering) (tokens : List Token) (items : List (Tree Operator))
    (Γ : Context) : Prop :=
  ∃ used rest, tokens = used ++ rest ∧ ItemsWritten N {} used items Γ ∧
    (Token.atEnd rest = true ∨ (Token.first rest).kind = .endWord)

/-- Items as a forest has them: what stands before the first header, and the modules.
The items behind a header are nested in it, up to the next header; those behind a
`begin` are nested in the `begin`, which is thus the last of its level. -/
def arrange : List (Tree Operator) → List (Tree Operator) × List (Tree Operator)
  | [] => ([], [])
  | tree :: rest =>
    match tree.operator with
    | .module .. => ([], tree.around (arrange rest).1 :: (arrange rest).2)
    | .beginning => ([tree.around (arrange rest).1], (arrange rest).2)
    | _ => (tree :: (arrange rest).1, (arrange rest).2)

end Pseudocode.Source
