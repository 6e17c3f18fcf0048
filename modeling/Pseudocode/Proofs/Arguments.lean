import Pseudocode.Proofs.Evaluation

/-!
# How arguments are passed

A call evaluates its arguments from left to right, and only when all of them have been
evaluated are the parameters bound, to copies converted to the declared types.  Until then
an argument that is the array of a variable is just this array, so if it belongs to a
module, a call in a later argument can change what is copied; anything else is passed with
the value that it had when it was evaluated (`arguments_bound`, `arguments_overtaken`).

A trail of the arguments has the state behind each of them.  So "the value when it was
evaluated" and "the value when the parameters are bound" are both there to be compared, the
one in the state behind the argument and the other in the last one, and the theorem says for
which arguments they may differ.  A call as an expression and a call as a statement pass
arguments in the same way, and both are brought to it (`evaluate_call`, `execute_call`).
-/

namespace Pseudocode

open Exec Machine

namespace Level

/-- A call: its arguments are evaluated one after another, and the function is called with
them. -/
def callWith (below : Level) (evaluate : Expr → Exec Operand) (callee : Callee)
    (arguments : List Expr) : Exec (Option Operand) := do
  let operands ← arguments.mapM evaluate
  below.call callee operands

/-- A call as an expression evaluates its arguments and then calls. -/
theorem evaluate_call (p : Program) (depth : Nat) (scope : Option Nat) (name : String)
    (callee : Callee) (arguments : List Expr) :
    (running p (depth + 1)).evaluate scope (.call name callee arguments) = (do
      tick
      match ← (running p depth).callWith ((running p depth).evaluate scope) callee
        arguments with
      | some result => return result
      | none => fail (.execution (.noResult name))) := by
  have hnode : (running p (depth + 1)).evaluate scope (.call name callee arguments) =
      evaluateNode (running p depth) scope (.call name callee arguments) := rfl
  rw [hnode]
  unfold evaluateNode callWith
  exact congrArg (bind (tick none)) (funext fun _ => (bind_assoc _ _ _).symm)

/-- A call as a statement evaluates its arguments in the innermost scope and then calls. -/
theorem execute_call {p : Program} {index : Nat} {node : Node Operator}
    (hnode : p.forest.nodes[index]? = some node) {shown : String} {callee : Callee}
    {arguments : List Expr} (hoperator : node.operator = .call shown callee arguments)
    (depth : Nat) :
    ∃ message, (running p (depth + 1)).execute index = (do
      tick
      trace 1 message
      let _ ← (running p depth).callWith (running p depth).evaluateHere callee arguments) := by
  have hexecute : (running p (depth + 1)).execute index =
      executeNode p (running p depth) index := rfl
  rw [hexecute]
  unfold executeNode callWith
  rw [hnode]
  dsimp only
  rw [hoperator]
  simp only [bind_assoc]
  exact ⟨_, rfl⟩

/-- How a call started in a state passes its arguments.  Their evaluation ends early, or
there is a state behind the last one; and from there the call fails before its body starts,
or the body starts with the parameters bound to the values that the operands have in that
state, converted.  An operand has another value there than when it was evaluated only if
it is the array of a module's variable and a later argument makes a call. -/
def Passes (p : Program) (depth : Nat) (evaluate : Expr → Exec Operand) (callee : Callee)
    (arguments : List Expr) (m : Machine) : Prop :=
  let call := (running p depth).callWith evaluate callee arguments
  (∃ halt m', arguments.mapM evaluate m = .error halt m' ∧ call m = .error halt m') ∨
  ∃ steps m', Trail evaluate m arguments steps m' ∧
    (∀ k a mₖ, steps[k]? = some (a, mₖ) →
      m'.store.reveal a = mₖ.store.reveal a ∨
        mₖ.Shared a ∧ ∃ e ∈ arguments.drop (k + 1), e.isCallFree = false) ∧
    ((∃ fault store refused, call m = .error (.fault fault) { m' with store, refused }) ∨
      ∃ below m₁, depth = below + 1 ∧
        Entered (p.function callee) ((steps.map Prod.fst).map m'.store.reveal) m' m₁ ∧
        call m = (callBody p (running p below) (p.function callee)).thenTick.andThenTidy
          popScope m₁)

/-- Whatever evaluates the arguments, the call passes them as it is said to. -/
theorem passes {p : Program} {evaluate : Expr → Exec Operand} (heval : Evaluates p evaluate)
    {m : Machine} (howned : m.Owned p) (hseparate : m.Separate) (depth : Nat)
    (callee : Callee) (arguments : List Expr) :
    Passes p depth evaluate callee arguments m := by
  unfold Passes callWith
  dsimp only
  rw [bind_apply]
  cases harguments : arguments.mapM evaluate m with
  | error halt m' => exact .inl ⟨halt, m', rfl, rfl⟩
  | ok operands m' =>
    obtain ⟨steps, htrail, rfl⟩ := trail_of_mapM harguments
    obtain ⟨-, hshielded⟩ := htrail.later heval howned hseparate
    have hmade := htrail.made heval howned hseparate
    exact .inr ⟨steps, m', htrail, fun k a mₖ hk => htrail.reveal_eq heval howned hseparate hk,
      call_cases hshielded.separate p depth callee hmade⟩

end Level

/-- Arguments are passed by value, with the value that they have when the last one has been
evaluated.  So do call expressions and call statements, from every state of a run: both
evaluate their arguments one after another, in one scope or the innermost one, and go on
from there. -/
theorem arguments_bound {p : Program} {m : Machine} (hm : p.Reaches m) (depth : Nat)
    (callee : Callee) (arguments : List Expr) (ticks : Nat) (log : Array Event) :
    (∀ scope name,
      (Level.running p (depth + 1)).evaluate scope (.call name callee arguments) = (do
        tick
        match ← (Level.running p depth).callWith ((Level.running p depth).evaluate scope)
          callee arguments with
        | some result => return result
        | none => fail (.execution (.noResult name))) ∧
      Level.Passes p depth ((Level.running p depth).evaluate scope) callee arguments
        (m.elapsed ticks log)) ∧
    ∀ index node shown, p.forest.nodes[index]? = some node →
      node.operator = .call shown callee arguments →
      (∃ message, (Level.running p (depth + 1)).execute index = (do
        tick
        trace 1 message
        let _ ← (Level.running p depth).callWith (Level.running p depth).evaluateHere callee
          arguments)) ∧
      Level.Passes p depth (Level.running p depth).evaluateHere callee arguments
        (m.elapsed ticks log) := by
  have howned := Level.owned_elapsed hm.owned ticks log
  have hseparate := (Shielded.elapsed hm.separate ticks log).separate
  refine ⟨fun scope name => ⟨Level.evaluate_call p depth scope name callee arguments, ?_⟩,
    fun index node shown hnode hoperator => ⟨Level.execute_call hnode hoperator depth, ?_⟩⟩
  · exact Level.passes (Level.evaluates p depth scope) howned hseparate depth callee arguments
  · exact Level.passes (Level.evaluatesHere p depth) howned hseparate depth callee arguments

/-! ## A later argument that overtakes an earlier one -/

/-- The tokens of a program that passes its array beside a call that sets its slot:

    module m; variable - integer[1] a;
    function g() : integer let a[0] := 9; return 0; end g.
    function f(integer[1] x, integer y) : integer output x[0]; return 0; end f.
    begin let a[0] := 1; call f(a, 0); call f(a, g()); end. -/
def overtaking : List Token :=
  let word text : Token := { kind := .word, text }
  let number text : Token := { kind := .number, text }
  [.ofKind .moduleWord, word "m", .ofKind .semicolon,
    .ofKind .variableWord, .ofKind .minus, word "integer", .ofKind .leftBracket,
    number "1", .ofKind .rightBracket, word "a", .ofKind .semicolon,
    .ofKind .functionWord, word "g", .ofKind .leftParen, .ofKind .rightParen,
    .ofKind .colon, word "integer",
    .ofKind .letWord, word "a", .ofKind .leftBracket, number "0", .ofKind .rightBracket,
    .ofKind .assign, number "9", .ofKind .semicolon,
    .ofKind .returnWord, number "0", .ofKind .semicolon,
    .ofKind .endWord, word "g", .ofKind .dot,
    .ofKind .functionWord, word "f", .ofKind .leftParen, word "integer",
    .ofKind .leftBracket, number "1", .ofKind .rightBracket, word "x", .ofKind .comma,
    word "integer", word "y", .ofKind .rightParen, .ofKind .colon, word "integer",
    .ofKind .outputWord, word "x", .ofKind .leftBracket, number "0",
    .ofKind .rightBracket, .ofKind .semicolon,
    .ofKind .returnWord, number "0", .ofKind .semicolon,
    .ofKind .endWord, word "f", .ofKind .dot,
    .ofKind .beginWord,
    .ofKind .letWord, word "a", .ofKind .leftBracket, number "0", .ofKind .rightBracket,
    .ofKind .assign, number "1", .ofKind .semicolon,
    .ofKind .callWord, word "f", .ofKind .leftParen, word "a", .ofKind .comma, number "0",
    .ofKind .rightParen, .ofKind .semicolon,
    .ofKind .callWord, word "f", .ofKind .leftParen, word "a", .ofKind .comma, word "g",
    .ofKind .leftParen, .ofKind .rightParen, .ofKind .rightParen, .ofKind .semicolon,
    .ofKind .endWord, .ofKind .dot, .ending]

/-- The function that a call statement calls, and its arguments. -/
def Operator.call? : Operator → Option (Callee × List Expr)
  | .call _ callee arguments => some (callee, arguments)
  | _ => none

/-- What can be computed of an operator says that it is a call. -/
theorem Operator.eq_of_call? {op : Operator} {callee : Callee} {arguments : List Expr}
    (h : op.call? = some (callee, arguments)) :
    ∃ shown, op = .call shown callee arguments := by
  unfold call? at h
  split at h
  · cases h
    exact ⟨_, rfl⟩
  · cases h

/-- The first call passes the array with the value that it had when it was evaluated. -/
theorem arguments_bound_plainly : ∃ p m callee arguments steps m' m₁,
    Program.ofTokens overtaking = .ok p ∧ p.Reaches m ∧
      (p.forest.nodes[10]?).bind (fun node => node.operator.call?) =
        some (callee, arguments) ∧
      Trail (Level.running p 20).evaluateHere (m.elapsed 40 m.log) arguments steps m' ∧
      Level.Entered (p.function callee) ((steps.map Prod.fst).map m'.store.reveal) m' m₁ ∧
      ∀ (k : Nat) a (mₖ : Machine), steps[k]? = some (a, mₖ) →
        m'.store.reveal a = mₖ.store.reveal a := by
  obtain ⟨p, hp, hholds⟩ := Program.exists_ofTokens (fun p =>
    let m := p.stateAfter [] false 0 10
    ((p.forest.nodes[10]?).bind fun node => node.operator.call?).any fun called =>
      called.2.all Expr.isCallFree &&
        ((Level.running p 20).callWith (Level.running p 20).evaluateHere called.1
          called.2).succeeds (m.elapsed 40 m.log) fun _ => true)
    (by decide +kernel : (Program.ofTokens overtaking).toOption.any _ = true)
  have hreaches : p.Reaches (p.stateAfter [] false 0 10) := ⟨_, _, _, _, rfl⟩
  generalize p.stateAfter [] false 0 10 = m at hholds hreaches
  obtain ⟨⟨callee, arguments⟩, hcall, hholds⟩ := (Option.any_eq_true _ _).mp hholds
  obtain ⟨hfree, hrun⟩ := Bool.and_eq_true_iff.mp hholds
  obtain ⟨result, mₑ, hrun, -⟩ := exists_of_succeeds hrun
  obtain ⟨node, hnode, hoperator⟩ := Option.bind_eq_some_iff.mp hcall
  obtain ⟨shown, hoperator⟩ := Operator.eq_of_call? hoperator
  obtain ⟨-, hpasses⟩ :=
    (arguments_bound hreaches 20 callee arguments 40 m.log).2 10 node shown hnode hoperator
  obtain ⟨halt, m', -, hfails⟩ | ⟨steps, m', htrail, hvalues, hends⟩ := hpasses
  · cases hfails.symm.trans hrun
  obtain ⟨fault, store, refused, hfails⟩ | ⟨below, m₁, -, hentered, -⟩ := hends
  · cases hfails.symm.trans hrun
  refine ⟨p, m, callee, arguments, steps, m', m₁, hp, hreaches, hcall, htrail, hentered,
    fun k a mₖ hk => ?_⟩
  rcases hvalues k a mₖ hk with hsame | ⟨-, e, hmem, hcalls⟩
  · exact hsame
  · rw [List.all_eq_true.mp hfree e (List.mem_of_mem_drop hmem)] at hcalls
    cases hcalls

/-- The texts of the values that variables are bound to. -/
def Level.textsOf (contents : List (String × DeclaredType × Option Expr)) :
    List (Option String) :=
  contents.map fun entry =>
    match entry.2.2 with
    | some (.literal v) => v.toText.toOption
    | _ => none

/-- The two arguments of a call as they are evaluated, and the values that the parameters
would have if the first argument had been converted at once, and have. -/
def Level.twoWays (below : Level) (evaluate : Expr → Exec Operand) (f : FunctionDeclaration)
    (callee : Callee) (first second : Expr) : Exec (List Value × List Value) := do
  let a ← evaluate first
  let early ← reveal a
  let b ← evaluate second
  let late ← reveal a
  let other ← reveal b
  let atOnce ← lift (converted f.parameters [early, other])
  let atLast ← lift (converted f.parameters [late, other])
  let _ ← below.call callee [a, b]
  return (atOnce, atLast)

/-- What can be computed of two arguments says how they were evaluated, and with what
values. -/
theorem Level.twoWays_ok {below : Level} {evaluate : Expr → Exec Operand}
    {f : FunctionDeclaration} {callee : Callee} {first second : Expr} {m m' : Machine}
    {early late : List Value}
    (h : below.twoWays evaluate f callee first second m = .ok (early, late) m') :
    ∃ a m₁ b m₂ result, evaluate first m = .ok a m₁ ∧ evaluate second m₁ = .ok b m₂ ∧
      converted f.parameters [m₁.store.reveal a, m₂.store.reveal b] = .ok early ∧
      converted f.parameters [m₂.store.reveal a, m₂.store.reveal b] = .ok late ∧
      below.call callee [a, b] m₂ = .ok result m' := by
  obtain ⟨a, m₁, hfirst, h₁⟩ := bind_eq_ok h
  obtain ⟨_, _, ⟨⟩, h₂⟩ := bind_eq_ok h₁
  obtain ⟨b, m₂, hsecond, h₃⟩ := bind_eq_ok h₂
  obtain ⟨_, _, ⟨⟩, h₄⟩ := bind_eq_ok h₃
  obtain ⟨_, _, ⟨⟩, h₅⟩ := bind_eq_ok h₄
  obtain ⟨_, _, hatOnce, h₆⟩ := bind_eq_ok h₅
  obtain ⟨hearly, rfl⟩ := lift_eq_ok hatOnce
  obtain ⟨_, _, hatLast, h₇⟩ := bind_eq_ok h₆
  obtain ⟨hlate, rfl⟩ := lift_eq_ok hatLast
  obtain ⟨result, _, hcall, h₈⟩ := bind_eq_ok h₇
  cases h₈
  exact ⟨a, m₁, b, _, result, hfirst, hsecond, hearly, hlate, hcall⟩

/-- In the second call, the array is evaluated as `[1]`, and the parameter is bound to
`[9]`. -/
theorem arguments_overtaken : ∃ p m callee first second a m₁ b m₂ m₃ values,
    Program.ofTokens overtaking = .ok p ∧ p.Reaches m ∧
      (p.forest.nodes[11]?).bind (fun node => node.operator.call?) =
        some (callee, [first, second]) ∧
      Trail (Level.running p 20).evaluateHere (m.elapsed 40 m.log) [first, second]
        [(a, m₁), (b, m₂)] m₂ ∧
      Level.Entered (p.function callee) [m₂.store.reveal a, m₂.store.reveal b] m₂ m₃ ∧
      Level.converted (p.function callee).parameters
        [m₁.store.reveal a, m₂.store.reveal b] = .ok values ∧
      m₃.contents m₂.environment.scopes.size ≠
        Level.bound (p.function callee).parameters values := by
  obtain ⟨p, hp, hholds⟩ := Program.exists_ofTokens (fun p =>
    let m := p.stateAfter [] false 0 10
    ((p.forest.nodes[11]?).bind fun node => node.operator.call?).any fun called =>
      called.2.length = 2 &&
        let f := p.function called.1
        ((Level.running p 20).twoWays (Level.running p 20).evaluateHere f called.1
          called.2[0]! called.2[1]!).succeeds (m.elapsed 40 m.log) fun values =>
            Level.textsOf (Level.bound f.parameters values.1) = [some "[1]", some "0"] &&
              Level.textsOf (Level.bound f.parameters values.2) = [some "[9]", some "0"])
    (by decide +kernel : (Program.ofTokens overtaking).toOption.any _ = true)
  have hreaches : p.Reaches (p.stateAfter [] false 0 10) := ⟨_, _, _, _, rfl⟩
  generalize p.stateAfter [] false 0 10 = m at hholds hreaches
  obtain ⟨⟨callee, arguments⟩, hcall, hholds⟩ := (Option.any_eq_true _ _).mp hholds
  obtain ⟨hlength, hrun⟩ := Bool.and_eq_true_iff.mp hholds
  obtain ⟨first, second, rfl⟩ := List.length_eq_two.mp (of_decide_eq_true hlength)
  obtain ⟨⟨early, late⟩, m₄, hrun, htexts⟩ := exists_of_succeeds hrun
  simp only [Bool.and_eq_true, decide_eq_true_eq] at htexts
  obtain ⟨a, m₁, b, m₂, result, hfirst, hsecond, hearly, hlate, hrun⟩ :=
    Level.twoWays_ok hrun
  have htrail : Trail (Level.running p 20).evaluateHere (m.elapsed 40 m.log)
      [first, second] [(a, m₁), (b, m₂)] m₂ := .cons hfirst (.cons hsecond .nil)
  have heval := Level.evaluatesHere p 20
  have howned := Level.owned_elapsed hreaches.owned 40 m.log
  have hseparate := (Shielded.elapsed hreaches.separate 40 m.log).separate
  obtain ⟨-, hshielded⟩ := htrail.later heval howned hseparate
  obtain ⟨fault, store, refused, hfails⟩ | ⟨below, m₃, -, hentered, -⟩ :=
    Level.call_cases hshielded.separate p 20 callee (htrail.made heval howned hseparate)
  · cases hfails.symm.trans hrun
  refine ⟨p, m, callee, first, second, a, m₁, b, m₂, m₃, early, hp, hreaches, hcall, htrail,
    hentered, hearly, fun hsame => ?_⟩
  obtain ⟨values, hvalues, hcontents⟩ := hentered.parameters
  cases hlate.symm.trans hvalues
  have hbound := congrArg Level.textsOf (hcontents.symm.trans hsame)
  rw [htexts.1, htexts.2] at hbound
  exact absurd hbound (by decide)

end Pseudocode
