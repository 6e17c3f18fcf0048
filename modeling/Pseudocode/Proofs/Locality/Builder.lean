import Pseudocode.Proofs.Locality
import Pseudocode.Proofs.Source.Items

/-!
# Nothing behind the closing `end` is looked at

An `end` at the top level closes a program, whatever follows it
(`draft_whatever_follows`).  The steps of the builder are local, as those of the
readers are: what it puts into the forest and into the tables does not depend on the
tokens ahead.

Bodies, functions and classes have an `end` as well, but are never left right behind
it: every item ends in another token (`Whole`).  So an `end` behind which the builder
stopped is one that belongs to no item.

The builder chooses by the next token and by what is built so far, which is the same in both
runs (`local_first`).  A step that neither looks at tokens nor takes any is local at once
(`local_blind`): placing, linking and declaring are of this kind.  The statements then follow
the shape of their definitions, and each of them ends in a semicolon, a point, or the token
that its tail ends in.
-/

namespace Pseudocode

open Source Grammar

namespace Builder

variable {α β : Type} {m m' : Nat} {taken : List Token → Prop}

/-- As a step of the builder, a local reader is local. -/
theorem local_tokens {reader : Reader α} (h : Local taken reader) :
    Local taken (tokens reader) := by
  intro m m' d a d' _ hrun
  unfold tokens at hrun
  cases hread : reader d.ahead with
  | error fault =>
    rw [hread] at hrun
    cases hrun
  | ok r =>
    rw [hread] at hrun
    cases hrun
    obtain ⟨used, htaken, hahead, hsame⟩ := h.run hread
    refine ⟨used, htaken, hahead, fun rest halike _ => ?_⟩
    exact tokens_run (hsame rest halike)

/-- To see the next token is local. -/
theorem local_sees (kinds : List Token.Kind) : Local Nothing (sees kinds) :=
  local_tokens (Reader.local_sees kinds)

/-- To take a token is local. -/
theorem local_take {kind : Token.Kind} (hend : kind ≠ .endOfInput) :
    Local Anything (take kind) :=
  local_tokens (Reader.local_take (by simpa using hend.symm)).any

/-- To take a token other than an `end` ends in another token. -/
theorem whole_take {kind : Token.Kind} (hend : kind ≠ .endOfInput)
    (hword : kind ≠ .endWord) : Local Whole (take kind) :=
  local_tokens (Reader.whole_take (by simpa using hend.symm) (by simpa using hword.symm))

/-- A step that neither looks at tokens nor takes any. -/
theorem local_blind {x : Builder α}
    (h : ∀ d ts, x (d.before ts) = (x d).map fun r => (r.1, r.2.before ts)) :
    Local Nothing x := by
  intro m m' d a d' _ hrun
  have hsame : ∀ ts, x (d.before ts) = .ok (a, d'.before ts) := by
    intro ts
    rw [h d ts, hrun]
    rfl
  have hahead : d' = d'.before d.ahead := by
    have hagain := hsame d.ahead
    rw [Draft.before_ahead, hrun] at hagain
    exact (Prod.mk.inj (Except.ok.inj hagain)).2
  refine ⟨[], rfl, ?_, fun rest _ _ => hsame rest⟩
  rw [hahead]
  rfl

/-- A step that is chosen by the first token and by what is built so far. -/
theorem tracks_look {f g : Token → Draft → Builder β}
    (h : ∀ t d, Tracks m m' taken (f t d) (g t d))
    (hsame : ∀ t d ts, g t (d.before ts) = g t d) :
    Tracks m m' taken (get >>= fun d => f (Token.first d.ahead) d)
      (get >>= fun d => g (Token.first d.ahead) d) := by
  intro d a d' hm hrun
  obtain ⟨used, htaken, hahead, htracks⟩ :=
    h (Token.first d.ahead) d d a d' hm hrun
  refine ⟨used, htaken, hahead, fun rest halike hm' => ?_⟩
  have hfirst : Token.first (used ++ rest) = Token.first d.ahead := by
    rw [show d.ahead = used ++ d'.ahead from hahead]
    exact (halike.append used).first
  show g (Token.first (used ++ rest)) (d.before (used ++ rest)) _ = _
  rw [hfirst, hsame]
  exact htracks rest halike hm'

/-- A step that is chosen by the first token, and by more than the tokens, is local. -/
theorem local_first {f : Token → Draft → Builder β} (h : ∀ t d, Local taken (f t d))
    (hsame : ∀ t d ts, f t (d.before ts) = f t d) :
    Local taken (get >>= fun d => f (Token.first d.ahead) d) :=
  fun m m' => tracks_look (fun t d => h t d m m') hsame

/-- The same for a step that is known to look at no more than the next token. -/
theorem local_looking {g : Draft → Builder β}
    (h : ∀ t (d : Draft), Local taken (g (d.before [t])))
    (hsame : ∀ d : Draft, g (d.before [Token.first d.ahead]) = g d) :
    Local taken (get >>= g) := by
  have hfirst : g = fun d => g (d.before [Token.first d.ahead]) :=
    funext fun d => (hsame d).symm
  rw [hfirst]
  exact local_first (f := fun t d => g (d.before [t])) h fun _ _ _ => rfl

/-- A step that is chosen by what is built so far is local. -/
theorem local_get {f : Draft → Builder β} (h : ∀ d, Local taken (f d))
    (hsame : ∀ d ts, f (d.before ts) = f d) : Local taken (get >>= f) :=
  local_first (f := fun _ => f) (fun _ => h) fun _ => hsame

/-- An expression is local, however deep it may be. -/
theorem local_expression (depth : Nat) : Local Anything (expression depth) :=
  local_get (fun _ => local_tokens (Reader.local_expression depth)) fun _ _ => rfl

/-- To find a variable takes nothing. -/
theorem local_target (name : String) : Local Nothing (target name) := by
  refine local_get (fun d => ?_) fun _ _ => rfl
  cases d.resolve name with
  | none => exact .throw _
  | some o => exact Local.pure o

/-! ## The forest and the tables

Steps that look at no tokens do the same whatever stands behind. -/

/-- To place an operator takes nothing. -/
theorem local_place (node : Node Operator) : Local Nothing (place node) :=
  local_blind fun _ _ => rfl

/-- To put an operator in takes nothing. -/
theorem local_insert (previous : Option Nat) (node : Node Operator) (asChild : Bool) :
    Local Nothing (insert previous node asChild) := by
  refine local_blind fun d ts => ?_
  show (d.program.forest.insert previous node asChild >>= fun p => Except.ok (p, _)) >>= _ =
    (((d.program.forest.insert previous node asChild >>= fun p => Except.ok (p, _)) >>=
      _)).map _
  cases d.program.forest.insert previous node asChild <;> rfl

/-- A way to nest an operator that does not look at the tokens ahead. -/
def Blind {π : Type} (nest : π → Nat → Builder π) : Prop :=
  ∀ owner index, Local Nothing (nest owner index)

/-- To nest an operator in a loose one takes nothing. -/
theorem blind_nestLoose : Blind nestLoose := fun _ _ => .lift _

/-- To nest an operator in one that is placed takes nothing. -/
theorem blind_nestPlaced : Blind nestPlaced := by
  intro owner index
  refine local_blind fun d ts => ?_
  show (d.program.forest.adopt owner index >>= fun f => Except.ok (f, _)) >>= _ =
    (((d.program.forest.adopt owner index >>= fun f => Except.ok (f, _)) >>= _)).map _
  cases d.program.forest.adopt owner index <;> rfl

/-- To attach an operator takes nothing. -/
theorem local_attach {π : Type} {nest : π → Nat → Builder π} (hnest : Blind nest)
    (owner : π) (previous : Option Nat) (node : Node Operator) :
    Local Nothing (attach nest owner previous node) := by
  cases previous with
  | none =>
    exact (local_place node).nothingThen fun index =>
      (hnest owner index).nothingThen fun _ => .pure _
  | some previous => exact (local_insert (some previous) node false).nothingThen fun _ => .pure _

/-- A declaration does not look at the tokens ahead. -/
theorem declareVariable_before (d : Draft) (ts : List Token) (name : String) (v : Variable) :
    (d.before ts).declareVariable name v = (d.declareVariable name v).map (·.before ts) := by
  have hmodule : (d.before ts).openModule? = d.openModule? := rfl
  unfold Draft.declareVariable
  rw [hmodule, show (d.before ts).function = d.function from rfl,
    show (d.before ts).module = d.module from rfl,
    show (d.before ts).program = d.program from rfl]
  cases d.function with
  | some number =>
    dsimp only
    cases d.program.functions[number]? with
    | none => rfl
    | some f =>
      dsimp only
      cases f.vars.declare name v <;> rfl
  | none =>
    cases d.module with
    | none => rfl
    | some number =>
      cases d.openModule? with
      | none => rfl
      | some m =>
        dsimp only
        cases m.vars.declare name v <;> rfl

/-- Entering a variable into its table. -/
theorem local_declare (name : String) (v : Variable) {f : PUnit → Builder β}
    (hf : Local taken (f ⟨⟩)) :
    Local taken (get >>= fun d => liftM (d.declareVariable name v) >>= fun d' =>
      set d' >>= f) := by
  have hblind : Local Nothing (get >>= fun d => liftM (d.declareVariable name v) >>= set :
      Builder PUnit) := by
    refine local_blind fun d ts => ?_
    show ((d.before ts).declareVariable name v >>= fun d' => Except.ok (d', _)) >>= _ =
      ((d.declareVariable name v >>= fun d' => Except.ok (d', _)) >>= _).map _
    rw [declareVariable_before]
    cases d.declareVariable name v <;> rfl
  have h := hblind.nothingThen (f := f) fun _ => hf
  simp only [bind_assoc] at h
  exact h

/-- To declare parameters takes nothing. -/
theorem local_declareParameters :
    ∀ parameters, Local Nothing (declareParameters parameters)
  | [] => .pure _
  | p :: rest => local_declare p.name ⟨p.type, none⟩ (local_declareParameters rest)

/-- A change that does not look at the tokens ahead takes nothing. -/
theorem local_modify {g : Draft → Draft} (h : ∀ d ts, g (d.before ts) = (g d).before ts) :
    Local Nothing (modify g : Builder PUnit) := by
  refine local_blind fun d ts => ?_
  show Except.ok (PUnit.unit, g (d.before ts)) = _
  rw [h]
  rfl

/-- To declare a function takes nothing. -/
theorem local_declareFunction (owner : Owner) (f : FunctionDeclaration) :
    Local Nothing (declareFunction owner f) := by
  refine local_blind fun d ts => ?_
  unfold declareFunction
  rw [get_bind, get_bind, show (d.before ts).program = d.program from rfl]
  cases owner with
  | module number =>
    dsimp only
    cases d.program.modules[number]? with
    | none => rfl
    | some m =>
      generalize d.program.functions.size = number'
      dsimp only
      generalize m.functions.declare f.name number' = e
      cases e <;> rfl
  | classOf number =>
    dsimp only
    cases d.program.classes[number]? with
    | none => rfl
    | some c =>
      generalize d.program.functions.size = number'
      dsimp only
      generalize c.methods.declare f.name number' = e
      cases e <;> rfl

/-! ## Statements

A statement ends in a point or a semicolon, so the `end` that is left for the code around is
never its last token. -/

/-- What ends in a token that is taken ends in it. -/
theorem whole_last {kind : Token.Kind} (hend : kind ≠ .endOfInput)
    (hword : kind ≠ .endWord) (a : α) : Local Whole (take kind >>= fun _ => pure a) :=
  (whole_take hend hword).wholeThen fun _ => .pure a

/-- The end of a loop or a conditional ends in a point. -/
theorem whole_closingWord (kind : Token.Kind) (hend : kind ≠ .endOfInput) :
    Local Whole (closingWord kind) :=
  (local_take (by decide)).thenWhole fun _ => (local_take hend).thenWhole fun _ =>
    whole_last (by decide) (by decide) _

/-- The end of a function or a class ends in a point. -/
theorem whole_closingName (name : String) : Local Whole (closingName name) := by
  refine (local_take (by decide)).thenWhole fun _ => (local_take (by decide)).thenWhole ?_
  have hrefused : ∀ fault, Local Nothing (refuse fault : Builder PUnit) :=
    fun fault => .throw _
  have hlast : Local Whole (take .dot >>= fun _ => pure ⟨⟩ : Builder PUnit) :=
    whole_last (by decide) (by decide) _
  exact fun t => .ite ((hrefused _).thenWhole fun _ => hlast) hlast

/-- A body is local whatever its owner is. -/
theorem local_body {π : Type} {nest : π → Nat → Builder π} (hnest : Blind nest)
    {statement : Builder (Node Operator)} (hstatement : Local Whole statement)
    (operator : Operator) (closing : List Token.Kind) (owner : π) :
    Local Anything (body nest statement operator closing owner) := by
  have htracks := tracks_rounds
    (x := fun bound (row : π × Option Nat) =>
      bodyRest nest statement (Captioned.line operator) closing bound row.1 row.2)
    (fun _ => Local.pure _) fun b b' bound bound' ih row => ?_
  · exact Local.rounds (fun bound bound' => htracks bound bound' (owner, none))
      [Token.ending]
  · refine (local_sees _).then_tracks fun seen => .ite (Local.returns _ _ _) ?_
    refine tracks_look
      (f := fun t _ => if decide (t.kind = .endOfInput) = true then _ else _)
      (g := fun t _ => if decide (t.kind = .endOfInput) = true then _ else _)
      (fun _ _ => .ite (Local.throw _ _ _) ?_) fun _ _ _ => rfl
    refine hstatement.whole_then_tracks fun node => ?_
    exact (local_attach hnest row.1 row.2 node).then_tracks fun attached =>
      ih (attached.1, some attached.2)

theorem whole_declarationTail (type : DeclaredType) (name : String)
    (initial : Option Expr) : Local Whole (declarationTail type name initial) :=
  (whole_take (by decide) (by decide)).wholeThen fun _ =>
    local_declare _ _ (Local.pure _)

/-- A declaration ends in its semicolon. -/
theorem whole_declaration (depth : Nat) : Local Whole (declaration depth) := by
  rw [declaration_eq]
  refine (local_take (by decide)).thenWhole fun _ => (local_take (by decide)).thenWhole ?_
  refine fun _ => (local_tokens Reader.local_declaredType).thenWhole fun type => ?_
  refine (local_take (by decide)).thenWhole fun name => (local_sees _).thenWhole ?_
  refine fun seen => .ite ?_ (whole_declarationTail type _ none)
  exact (local_take (by decide)).thenWhole fun _ =>
    (local_expression depth).thenWhole fun e => whole_declarationTail type _ (some e)

theorem whole_assignmentTail (depth : Nat) (target : Occurrence)
    (element : Option Expr) : Local Whole (assignmentTail depth target element) :=
  (local_take (by decide)).thenWhole fun _ =>
    (local_expression depth).thenWhole fun _ => whole_last (by decide) (by decide) _

/-- An assignment ends in its semicolon. -/
theorem whole_assignment (depth : Nat) : Local Whole (assignment depth) := by
  rw [assignment_eq]
  refine (local_take (by decide)).thenWhole fun _ => (local_take (by decide)).thenWhole ?_
  refine fun name => (local_target _).thenWhole fun target => (local_sees _).thenWhole ?_
  refine fun seen => .ite ?_ (whole_assignmentTail depth target none)
  refine (local_take (by decide)).thenWhole fun _ => ?_
  refine (local_expression depth).thenWhole fun e => ?_
  refine (local_take (by decide)).thenWhole fun _ => ?_
  exact whole_assignmentTail depth target (some e)

/-- An `input` ends in its semicolon. -/
theorem whole_input : Local Whole input := by
  refine (local_take (by decide)).thenWhole fun _ => ?_
  refine (local_take (by decide)).thenWhole fun _ => ?_
  refine (local_target _).thenWhole fun _ => ?_
  exact whole_last (by decide) (by decide) _

/-- An `output` ends in its semicolon. -/
theorem whole_output (depth : Nat) : Local Whole (output depth) :=
  (local_take (by decide)).thenWhole fun _ => (local_expression depth).thenWhole fun _ =>
    whole_last (by decide) (by decide) _

/-- A call ends in its semicolon. -/
theorem whole_call (depth : Nat) : Local Whole (call depth) := by
  refine (local_take (by decide)).thenWhole fun _ => ?_
  refine local_looking (fun t d => ?_) fun _ => rfl
  refine (local_tokens (Reader.local_primary (Reader.local_expression depth))).thenWhole ?_
  intro e
  cases e with
  | call name callee arguments => exact whole_last (by decide) (by decide) _
  | _ => exact .throw _

theorem whole_giveBackTail (f : FunctionDeclaration) (result : Option Expr) :
    Local Whole (giveBackTail f result) :=
  (whole_take (by decide) (by decide)).wholeThen fun _ =>
    .ite (.throw _) (.ite (.throw _) (.pure _))

/-- A `return` ends in its semicolon. -/
theorem whole_giveBack (depth : Nat) : Local Whole (giveBack depth) := by
  rw [giveBack_eq]
  refine (local_take (by decide)).thenWhole fun t => local_get (fun d => ?_) fun _ _ => rfl
  cases d.openFunction? with
  | none => exact .throw _
  | some f =>
    refine (local_sees _).thenWhole fun seen => .ite (whole_giveBackTail f none) ?_
    exact (local_expression depth).thenWhole fun e => whole_giveBackTail f (some e)

section

variable {statement : Builder (Node Operator)} (hstatement : Local Whole statement)
  (depth : Nat)

include hstatement

/-- A loop ends in the point behind its end. -/
theorem whole_loop : Local Whole (loop statement depth) := by
  refine (local_take (by decide)).thenWhole fun _ => ?_
  refine (local_expression depth).thenWhole fun _ => ?_
  refine (local_take (by decide)).thenWhole fun _ => ?_
  refine (local_body blind_nestLoose hstatement _ _ _).thenWhole fun _ => ?_
  exact (whole_closingWord _ (by decide)).wholeThen fun _ => .pure _

/-- A further branch is local; of its last token nothing is said. -/
theorem local_furtherBranch (operator : Operator) (closing : List Token.Kind) :
    Local Anything (furtherBranch statement operator closing) :=
  (local_place _).andThen fun index => local_body blind_nestPlaced hstatement _ _ index

/-- Further branches are local. -/
theorem local_alternatives (closing : List Token.Kind) :
    Local Anything (get >>= fun d => alternatives statement depth closing d.ahead) := by
  have htracks := tracks_rounds
    (x := fun bound (_ : Unit) => alternatives statement depth closing bound)
    (fun _ => Local.pure _) fun b b' bound bound' ih _ => ?_
  · exact Local.rounds (fun bound bound' => htracks bound bound' ()) []
  · refine (local_sees _).then_tracks fun seen => .ite ?_ (Local.returns _ _ _)
    refine (whole_take (by decide) (by decide)).whole_then_tracks fun _ => ?_
    refine (local_expression depth).then_tracks fun guard => ?_
    refine (local_take (by decide)).then_tracks fun _ => ?_
    refine (local_furtherBranch hstatement _ _).then_tracks fun index => ?_
    exact (ih ()).andThen fun _ => .returns _

omit hstatement in
theorem whole_branchTail (node : Node Operator) (further : List Nat)
    (fallback : Option Nat) : Local Whole (branchTail node further fallback) :=
  (whole_closingWord _ (by decide)).wholeThen fun _ => .pure _

/-- A conditional ends in the point behind its end. -/
theorem whole_branch : Local Whole (branch statement depth) := by
  rw [branch_eq]
  refine (local_take (by decide)).thenWhole fun _ => ?_
  refine (local_expression depth).thenWhole fun guard => ?_
  refine (local_take (by decide)).thenWhole fun _ => ?_
  refine (local_body blind_nestLoose hstatement _ _ _).thenWhole fun node => ?_
  rw [← bind_assoc]
  refine (local_alternatives hstatement depth _).thenWhole fun further => ?_
  refine (local_sees _).thenWhole fun seen => .ite ?_ (whole_branchTail node further none)
  refine (local_take (by decide)).thenWhole fun _ => ?_
  refine (local_furtherBranch hstatement _ _).thenWhole fun index => ?_
  exact whole_branchTail node further (some index)

end

/-- A statement does not depend on what stands behind an `end` that it left, and it ends
in another token. -/
theorem whole_statement : ∀ depth, Local Whole (statement depth)
  | 0 => .throw _
  | depth + 1 => by
    have hstatement := whole_statement depth
    unfold statement
    refine local_looking (fun t d => ?_) fun _ => rfl
    generalize d.before [t] = d
    dsimp only
    generalize Token.first d.ahead = t
    cases t.kind with
    | whileWord => exact whole_loop hstatement depth
    | ifWord => exact whole_branch hstatement depth
    | variableWord => exact whole_declaration depth
    | letWord => exact whole_assignment depth
    | inputWord => exact whole_input
    | outputWord => exact whole_output depth
    | callWord => exact whole_call depth
    | returnWord => exact whole_giveBack depth
    | _ => exact .throw _

/-! ## Functions and classes

These end in the point behind their name, too. -/

/-- A function behind its header ends in a point. -/
theorem whole_functionRest (owner : Owner) (f : FunctionDeclaration) :
    Local Whole (functionRest owner f) := by
  have hclose : ∀ number child, Local Nothing
      (modify fun d : Draft => d.closeFunction number child : Builder PUnit) := by
    refine fun number child => local_modify fun d ts => ?_
    unfold Draft.closeFunction
    rw [show (d.before ts).program = d.program from rfl]
    cases d.program.functions[number]? <;> rfl
  refine (local_declareFunction owner f).thenWhole fun number => ?_
  refine (local_modify fun _ _ => rfl).thenWhole fun _ => ?_
  refine (local_declareParameters f.parameters).thenWhole fun _ => ?_
  refine (local_body blind_nestLoose (whole_statement nestingLimit) _ _ _).thenWhole ?_
  refine fun node => (hclose number node.links.child).thenWhole fun _ => ?_
  exact (whole_closingName f.name).wholeThen fun _ => .pure _

/-- A function ends in a point. -/
theorem whole_function (owner : Owner) (className : Option String) (moduleName : String) :
    Local Whole (function owner className moduleName) := by
  refine (local_take (by decide)).thenWhole fun name => ?_
  refine (local_tokens (Reader.local_parenthesised Reader.local_parameter)).thenWhole ?_
  refine fun parameters => (local_sees _).thenWhole fun seen => .ite ?_ ?_
  · exact (local_take (by decide)).thenWhole fun _ =>
      (local_tokens Reader.local_declaredType).thenWhole fun _ => whole_functionRest _ _
  · exact whole_functionRest _ _

/-- The methods of a class are local. -/
theorem local_methods {π : Type} {nest : π → Nat → Builder π} (hnest : Blind nest)
    (number : Nat) (className moduleName : String) (owner : π) :
    Local Anything
      (get >>= fun d => methods nest number className moduleName d.ahead owner none) := by
  have htracks := tracks_rounds
    (x := fun bound (row : π × Option Nat) =>
      methods nest number className moduleName bound row.1 row.2)
    (fun _ => Local.pure _) fun b b' bound bound' ih row => ?_
  · exact Local.rounds (fun bound bound' => htracks bound bound' (owner, none)) []
  · refine (local_sees _).then_tracks fun seen => .ite ?_ (Local.returns _ _ _)
    refine (whole_take (by decide) (by decide)).whole_then_tracks fun _ => ?_
    refine (whole_function _ _ _).then_tracks fun node => ?_
    exact (local_attach hnest row.1 row.2 node).then_tracks fun attached =>
      ih (attached.1, some attached.2)

/-- Enters a class without methods: its number. -/
def declareClass (module : Nat) (m : ModuleDeclaration) (name : String) : Builder Nat := do
  let d ← get
  let classes ← m.classes.declare name d.program.classes.size
  let d' := d.setModule module { m with classes }
  set { d' with program :=
      { d'.program with classes := d'.program.classes.push { name } } }
  return d.program.classes.size

/-- To declare a class takes nothing. -/
theorem local_declareClass (module : Nat) (m : ModuleDeclaration) (name : String) :
    Local Nothing (declareClass module m name) := by
  refine local_blind fun d ts => ?_
  unfold declareClass
  rw [get_bind, get_bind, show (d.before ts).program = d.program from rfl]
  generalize d.program.classes.size = number
  generalize m.classes.declare name number = e
  cases e <;> rfl

/-- A class is declared behind its name, and then its methods are read. -/
theorem classDeclaration_eq (module : Nat) (m : ModuleDeclaration) :
    classDeclaration module m = do
      let _ ← take .classWord
      let name := (← take .word).text
      let number ← declareClass module m name
      let owner : Node Operator := { operator := .classDeclaration name number }
      let node ← methods nestLoose number name m.name (← get).ahead owner none
      closingName name
      return node := by
  unfold classDeclaration declareClass
  simp only [bind_assoc, pure_bind]

/-- A class ends in a point. -/
theorem whole_classDeclaration (module : Nat) (m : ModuleDeclaration) :
    Local Whole (classDeclaration module m) := by
  rw [classDeclaration_eq]
  refine (local_take (by decide)).thenWhole fun _ => (local_take (by decide)).thenWhole ?_
  refine fun name => (local_declareClass module m _).thenWhole fun number => ?_
  rw [← bind_assoc]
  refine (local_methods blind_nestLoose number _ _ _).thenWhole fun node => ?_
  exact (whole_closingName _).wholeThen fun _ => .pure _

/-- A header ends in its semicolon. -/
theorem whole_moduleHeader : Local Whole moduleHeader := by
  refine (local_take (by decide)).thenWhole fun _ => (local_take (by decide)).thenWhole ?_
  refine fun name => (whole_take (by decide) (by decide)).wholeThen fun _ => ?_
  exact local_blind fun _ _ => rfl

/-- An item does not depend on what stands behind an `end` that it left, and it ends in
another token. -/
theorem whole_item : Local Whole item := by
  unfold item
  refine local_looking (fun t d => ?_) fun _ => rfl
  generalize d.before [t] = d
  dsimp only
  generalize Token.first d.ahead = t
  refine .ite whole_moduleHeader ?_
  cases d.module with
  | none => exact .throw _
  | some module =>
    cases d.openModule? with
    | none => exact .throw _
    | some m =>
      dsimp only
      cases t.kind with
      | beginWord => exact whole_last (by decide) (by decide) _
      | functionWord =>
        exact (local_take (by decide)).thenWhole fun _ => whole_function _ _ _
      | classWord => exact whole_classDeclaration module m
      | _ => exact whole_statement nestingLimit

/-- To hang an operator takes nothing. -/
theorem local_hang (node : Node Operator) : Local Nothing (hang node) := by
  have hinsert : ∀ previous asChild (g : Nat → Draft → Draft),
      (∀ index d ts, g index (d.before ts) = (g index d).before ts) →
      Local Nothing (insert previous node asChild >>= fun index => modify (g index)) :=
    fun previous asChild g hg => (local_insert previous node asChild).nothingThen
      fun index => local_modify (hg index)
  refine local_get (fun d => ?_) fun _ _ => rfl
  cases node.operator with
  | module => exact hinsert _ _ _ fun _ _ _ => rfl
  | _ =>
    cases d.block with
    | none => exact .throw _
    | some block => exact hinsert _ _ _ fun _ _ _ => rfl

/-! ## Programs

At the top level it is the `end` itself that is taken; what stands behind it is not looked at. -/

/-- Items do the same whatever stands behind the tokens that they use, if the last of
these is an `end`. -/
def Closed (d d' : Draft) (used : List Token) : Prop :=
  ∀ shared closing, used = shared ++ [closing] → closing.kind = .endWord →
    ∀ behind bound : List Token, (used ++ behind).length ≤ bound.length →
      items bound (d.before (used ++ behind)) = .ok ((), d'.before behind)

/-- Where nothing was taken there is no `end` behind which one could be. -/
theorem closed_nothing (d d' : Draft) : Closed d d' [] :=
  fun shared closing h => by simp at h

/-- The `end` that closes a program, alone. -/
theorem closed_end (d : Draft) {closing : Token} (hkind : closing.kind = .endWord) :
    Closed d d [closing] := by
  intro _ _ _ _ behind bound hbound
  cases bound with
  | nil => simp at hbound
  | cons b bound => exact items_at_end hkind

/-- An item, and the items behind it. -/
theorem Closed.behind_item {d d₁ d₂ d' : Draft} {node : Node Operator}
    {used₁ used₂ : List Token} (h : Closed d₂ d' used₂)
    (hend : ¬ Token.atEnd d.ahead = true)
    (hword : ¬ Token.firstIs [.endWord] d.ahead = true) (hwhole : Whole used₁)
    (htaken : d.ahead = used₁ ++ d₂.ahead) (hahead : d₂.ahead = used₂ ++ d'.ahead)
    (hitem : ∀ rest, Alike d₂.ahead rest →
      item (d.before (used₁ ++ rest)) = .ok (node, d₁.before rest))
    (hhang : ∀ rest, Alike d₂.ahead rest →
      hang node (d₁.before rest) = .ok ((), d₂.before rest)) :
    Closed d d' (used₁ ++ used₂) := by
  intro shared closing hused hkind behind bound hbound
  -- the item ends in another token, so the `end` is among those behind it
  rcases List.eq_nil_or_concat used₂ with rfl | ⟨shared₂, closing₂, hconcat⟩
  · obtain ⟨us, t, rfl, ht⟩ := hwhole
    rw [List.append_nil] at hused
    have hlast : t = closing := by simpa using congrArg List.getLast? hused
    exact absurd hkind (hlast ▸ ht)
  rw [List.concat_eq_append] at hconcat
  subst hconcat
  have hlast : closing₂ = closing := by simpa using congrArg List.getLast? hused
  subst hlast
  have halike : Alike d₂.ahead (shared₂ ++ [closing₂] ++ behind) :=
    ⟨shared₂, closing₂, d'.ahead, behind, hkind, by simp [hahead], by simp⟩
  have halike₁ : Alike d.ahead (used₁ ++ (shared₂ ++ [closing₂] ++ behind)) :=
    htaken ▸ halike.append used₁
  have hpos := hwhole.pos
  rw [List.append_assoc] at hbound ⊢
  rw [List.length_append] at hbound
  cases bound with
  | nil =>
    rw [List.length_nil] at hbound
    omega
  | cons b bound =>
    rw [List.length_cons] at hbound
    have hrest := h shared₂ closing₂ rfl hkind behind bound (by omega)
    rw [← halike₁.atEnd] at hend
    rw [← halike₁.firstIs] at hword
    rw [items_step hend hword, bind_ok]
    refine ⟨node, d₁.before _, hitem _ halike, ?_⟩
    exact bind_ok.mpr ⟨_, d₂.before _, hhang _ halike, hrest⟩

/-- Items that stop at an `end` do the same whatever stands behind it. -/
theorem items_closed :
    ∀ (bound : List Token) {d d' : Draft}, d.ahead.length ≤ bound.length →
      items bound d = .ok ((), d') →
      ∃ used, d.ahead = used ++ d'.ahead ∧ Closed d d' used := by
  intro bound
  induction bound with
  | nil =>
    intro d d' _ hrun
    cases pure_ok.mp hrun
    exact ⟨[], rfl, closed_nothing d d⟩
  | cons b bound ih =>
    intro d d' hbound hrun
    by_cases hend : Token.atEnd d.ahead = true
    · -- no `end` was taken
      rw [items, get_bind, if_pos hend] at hrun
      cases pure_ok.mp hrun
      exact ⟨[], rfl, closed_nothing d d⟩
    by_cases hword : Token.firstIs [.endWord] d.ahead = true
    · -- the first token is the `end`
      cases hts : d.ahead with
      | nil => rw [hts] at hword; cases hword
      | cons closing rest =>
        rw [hts] at hword
        have hkind : closing.kind = .endWord :=
          List.mem_singleton.mp (List.contains_iff_mem.mp hword)
        rw [← Draft.before_of_ahead hts, items_at_end hkind] at hrun
        cases hrun
        exact ⟨[closing], rfl, closed_end d hkind⟩
    · rw [items_step hend hword, bind_ok] at hrun
      obtain ⟨node, d₁, hitem, hrun⟩ := hrun
      obtain ⟨_, d₂, hhang, hrun⟩ := bind_ok.mp hrun
      obtain ⟨used₁, hwhole, hahead₁, hsame₁⟩ := whole_item.run hitem
      obtain ⟨_, rfl, hahead₂, hsame₂⟩ := (local_hang node).run hhang
      have hleft : d₁.ahead = d₂.ahead := hahead₂
      have htaken : d.ahead = used₁ ++ d₂.ahead := hleft ▸ hahead₁
      have hpos := hwhole.pos
      have hlength : d₂.ahead.length ≤ bound.length := by
        rw [htaken, List.length_append, List.length_cons] at hbound
        omega
      obtain ⟨used₂, hahead, hclosed⟩ := ih hlength hrun
      refine ⟨used₁ ++ used₂, by rw [htaken, hahead, List.append_assoc], ?_⟩
      exact hclosed.behind_item hend hword hwhole htaken hahead
        (fun rest halike => hsame₁ rest (hahead₂ ▸ halike)) hsame₂

end Builder

namespace Program

/-- A draft is what the items leave behind. -/
theorem draft_ok {tokens : List Token} {d : Draft} :
    draft tokens = .ok d ↔ Builder.items tokens { ahead := tokens } = .ok ((), d) := by
  show (Builder.items tokens { ahead := tokens } >>= fun r => pure r.2) = _ ↔ _
  cases Builder.items tokens { ahead := tokens } with
  | error fault => exact ⟨nofun, nofun⟩
  | ok r =>
    constructor
    · intro h
      cases h
      rfl
    · intro h
      cases h
      rfl

/-- A program that was closed by an `end` is the same, and is read as far, with
whatever tokens behind that `end`. -/
theorem draft_whatever_follows {tokens : List Token} {d : Draft} {k : Nat}
    (hdraft : draft tokens = .ok d) (hclosing : tokens[k]?.map Token.kind = some .endWord)
    (hahead : d.ahead = tokens.drop (k + 1)) (behind : List Token) :
    draft (tokens.take (k + 1) ++ behind) = .ok { d with ahead := behind } := by
  obtain ⟨closing, hfound, hkind⟩ := Option.map_eq_some_iff.mp hclosing
  obtain ⟨used, hused, hsame⟩ :=
    Builder.items_closed tokens (Nat.le_refl _) (draft_ok.mp hdraft)
  have hsplit : tokens = used ++ tokens.drop (k + 1) := hahead ▸ hused
  have htake : used = tokens.take (k + 1) := by
    refine List.append_cancel_right (hsplit.symm.trans ?_)
    exact (List.take_append_drop (k + 1) tokens).symm
  have hlast : used = tokens.take k ++ [closing] := by
    rw [htake, List.take_add_one, hfound]
    rfl
  rw [← htake, draft_ok]
  exact hsame _ closing hlast hkind behind _ (Nat.le_refl _)

/-- A loop, whose own `end` is not the last one, and some tokens that are no item:

    module M; variable - integer x;
    begin while x then output x; end while.
    end ( . M ( -/
def repeating : List Token :=
  let word text : Token := { kind := .word, text }
  [.ofKind .moduleWord, word "M", .ofKind .semicolon,
    .ofKind .variableWord, .ofKind .minus, word "integer", word "x", .ofKind .semicolon,
    .ofKind .beginWord, .ofKind .whileWord, word "x", .ofKind .thenWord,
    .ofKind .outputWord, word "x", .ofKind .semicolon,
    .ofKind .endWord, .ofKind .whileWord, .ofKind .dot,
    .ofKind .endWord, .ofKind .leftParen, .ofKind .dot, word "M", .ofKind .leftParen]

/-- Behind the `end` that closes the program stands what could go on with an expression.  It
is left ahead, and so are any other tokens there. -/
theorem draft_repeating_whatever_follows : ∃ d, draft repeating = .ok d ∧
    repeating[18]?.map Token.kind = some .endWord ∧ d.ahead = repeating.drop 19 ∧
    ∀ behind, draft (repeating.take 19 ++ behind) = .ok { d with ahead := behind } := by
  obtain ⟨d, hdraft, hahead⟩ := exists_ok (fun d => d.ahead = repeating.drop 19)
    (by decide +kernel : (draft repeating).toOption.any _ = true)
  have hahead := decide_eq_true_eq.mp hahead
  have hclosing : repeating[18]?.map Token.kind = some .endWord := rfl
  exact ⟨d, hdraft, hclosing, hahead,
    fun behind => draft_whatever_follows hdraft hclosing hahead behind⟩

end Program

end Pseudocode
