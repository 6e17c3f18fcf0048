import Pseudocode.Proofs.Evaluation

/-!
# Assigning to a slot

An assignment to a slot evaluates its value, looks up the variable, and then evaluates the
index; what it writes to is the array that the variable held before that (`SlotCourse`).
If the variable still holds this array afterwards, the slot is set, and reading it gives
what was assigned.  But the index may call a function that binds the variable anew.  Then
the variable keeps the array that the function has given it, and what was assigned does
not show in it (`slots_assigned`, `slot_lost`).

Every successful assignment takes this course (`slotCourse`), so nothing else has to be known
of it.  Between its states lie two evaluations.  An evaluation leaves the frames open and
their variables declared, and spares the arrays of the calls around (`Machine.Behind`).  So
the name still means the same variable (`SlotCourse.resolves`), and it holds the same array
if the index calls nothing, or if the variable is the innermost call's own
(`SlotCourse.lasts`): a function that is called can reach only its own variables and those
of the module.

The value may have changed, too.  It is converted when the index is known, and if it is the
array of a module's variable, then a call in the index may have written to it
(`SlotCourse.reveal_eq`).
-/

namespace Pseudocode

open Exec Machine

/-- The course of an assignment to a slot from one state to another, in the innermost
scope. -/
structure SlotCourse (p : Program) (depth scope : Nat) (target : Occurrence)
    (element value : Expr) (m m' : Machine) where
  /-- What the value is evaluated to, and the state behind it. -/
  operand : Operand
  before : Machine
  /-- The scope where the variable is found then, and the array that it holds. -/
  owner : Nat
  held : Variable
  address : Nat
  /-- What the index is evaluated to, and the state behind it. -/
  index : Int
  behind : Machine
  /-- What is written: the value as it is then, converted. -/
  content : Value
  active : m.frames.head? = some scope
  valued : ∃ ticks log, (Level.running p depth).evaluate (some scope) value
    (m.elapsed ticks log) = .ok operand before
  resolved : before.environment.owner? scope target.name = some owner
  found : (before.environment.scope owner).vars.find? target.name = some held
  holds : held.binding = some (.held (.cell address))
  indexed : ∃ ticks log, (Level.running p depth).evaluateInteger (some scope) element
    (before.elapsed ticks log) = .ok index behind
  converted : (behind.store.reveal operand).convert held.type.element = .ok content
  inside : 0 ≤ index ∧ index < (behind.store.slots address).length
  written : ∃ ticks log, m' = { behind with
    ticks, log
    store := behind.store.write address
      ((behind.store.slots address).set index.toNat (some content)) }

/-- Reading a slot of a variable, with an index that changes nothing, gives a value. -/
def Machine.ReadsSlot (p : Program) (m : Machine) (scope : Nat) (target : Occurrence)
    (index : Int) (content : Value) : Prop :=
  ∀ depth e ticks ticks' log,
    (Level.running p depth).evaluateInteger (some scope) e { m with ticks } =
      .ok index (m.elapsed ticks' log) →
    (Level.running p (depth + 1)).evaluate (some scope) (.slot target e)
      { m with ticks := ticks + 2 } = .ok (.value content) (m.elapsed ticks' log)

/-- What is known of the state behind an expression that has been evaluated. -/
structure Machine.Behind (p : Program) (m m' : Machine) : Prop where
  spared : ∃ ticks log, (m.elapsed ticks log).Spared p m'
  shielded : m.Shielded m'
  tidy : m'.Tidy
  later : m.Later m'

namespace Level

variable {p : Program}

/-- An evaluation leads from one state to a later one. -/
theorem behind_evaluate {m m' : Machine} (howned : m.Owned p)
    (hseparate : m.Separate) (htidy : m.Tidy) {depth ticks : Nat} {log : Array Event}
    {scope : Option Nat} {e : Expr} {a : Operand}
    (h : (running p depth).evaluate scope e (m.elapsed ticks log) = .ok a m') :
    m.Behind p m' := by
  have hstart := owned_elapsed howned ticks log
  have hshielded := Shielded.elapsed hseparate ticks log
  have halike : m.Alike (m.elapsed ticks log) := ⟨rfl, rfl⟩
  obtain ⟨-, hshields⟩ :=
    shields_evaluate p depth scope e _ _ _ hstart hshielded.separate h
  have hsteady := (steady_running p depth).evaluate scope e _ (halike.tidy htidy)
  rw [h] at hsteady
  obtain ⟨hkept, -⟩ := hsteady
  exact ⟨⟨ticks, log, (spared_evaluate depth scope e hstart h).1⟩,
    hshielded.trans hshields, hkept.tidy, halike.later.trans hkept.later⟩

/-- An integer is the value of an expression. -/
theorem evaluateInteger_ok {below : Level} {scope : Option Nat} {e : Expr} {i : Int}
    {m m' : Machine} (h : below.evaluateInteger scope e m = .ok i m') :
    ∃ a, below.evaluate scope e m = .ok a m' := by
  obtain ⟨a, m₁, hrun, h₁⟩ := bind_eq_ok h
  obtain ⟨v, _, ⟨⟩, h₂⟩ := bind_eq_ok h₁
  obtain ⟨-, rfl⟩ := settle_eq_ok h₂
  exact ⟨a, hrun⟩

/-- Every successful assignment to a slot takes this course. -/
theorem slotCourse {m m' : Machine} (hm : p.Reaches m) {depth index ticks : Nat}
    {node : Node Operator} (hnode : p.forest.nodes[index]? = some node)
    {target : Occurrence} {element value : Expr}
    (hoperator : node.operator = .assignment target (some element) value)
    (h : executeNode p (running p depth) index { m with ticks } = .ok () m') :
    ∃ scope, Nonempty (SlotCourse p depth scope target element value m m') := by
  obtain ⟨scope, ticks₁, log₁, operand, before, hactive, hvalue, hassign⟩ :=
    executeNode_assignment (running p depth) hnode hoperator h
  obtain ⟨⟨_, _, hspared⟩, hshielded, -, -⟩ :=
    behind_evaluate hm.owned hm.separate hm.tidy hvalue
  obtain ⟨_, owner, v, address, hactive', howner, hv, hbinding, ticks₂, log₂, i, behind,
    content, ticks₃, log₃, hindex, hcontent, hrange, hwritten⟩ :=
    assignSlot_ok hspared.owned (running p depth) hassign
  rw [hshielded.frames] at hactive'
  cases hactive.symm.trans hactive'
  exact ⟨scope, ⟨operand, before, owner, v, address, i, behind, content, hactive,
    ⟨ticks₁, log₁, hvalue⟩, howner, hv, hbinding, ⟨ticks₂, log₂, hindex⟩, hcontent, hrange,
    ⟨ticks₃, log₃, hwritten⟩⟩⟩

/-- Reading a slot gives its content. -/
theorem readsSlot {m : Machine} {scope owner address : Nat} {target : Occurrence}
    {index : Int} {content : Value}
    (howner : m.environment.owner? scope target.name = some owner)
    {v : Variable} (hv : (m.environment.scope owner).vars.find? target.name = some v)
    (hbinding : v.binding = some (.held (.cell address)))
    (hslot : Value.slotAt (m.store.slots address) index = .ok (some content)) :
    m.ReadsSlot p scope target index content := by
  intro depth e ticks ticks' log hindex
  have hlookup : m.environment.lookup scope target.name = .ok v := by
    unfold Environment.lookup Environment.find?
    rw [howner, Option.bind_some, hv]
  have hvariable : variableIn scope target { m with ticks := ticks + 1 } =
      .ok v { m with ticks } := by
    unfold variableIn
    rw [bind_apply, tick_of_succ rfl]
    dsimp only
    rw [get_bind_apply, hlookup]
    rfl
  have hread : (running p depth).readVariable (some scope) target
      { m with ticks := ticks + 1 } = .ok (.cell address) { m with ticks } := by
    unfold readVariable
    dsimp only
    rw [bind_apply, hvariable]
    dsimp only
    rw [hbinding]
    rfl
  have hcontent : readSlot target.name (.cell address) index (m.elapsed ticks' log) =
      .ok (.value content) (m.elapsed ticks' log) := by
    unfold readSlot
    rw [bind_apply]
    show (lift (Value.slotAt (m.store.slots address) index) >>= _) (m.elapsed ticks' log) = _
    rw [hslot]
    rfl
  show evaluateNode (running p depth) (some scope) (.slot target e) _ = _
  unfold evaluateNode
  rw [bind_apply, tick_of_succ rfl]
  dsimp only
  rw [bind_apply, hread]
  dsimp only
  rw [bind_apply, hindex]
  exact hcontent

end Level

/-- A slot that has been set is read. -/
theorem Value.slotAt_set {slots : List (Option Value)} {index : Int} (content : Value)
    (h : 0 ≤ index ∧ index < slots.length) :
    slotAt (slots.set index.toNat (some content)) index = .ok (some content) := by
  have hlt : index.toNat < slots.length := by omega
  unfold slotAt
  rw [if_neg (by omega), List.getElem?_set_self hlt]

/-- A name is looked for in the scope itself first. -/
theorem Environment.owner?_self {env : Environment} {id : Nat} {name : String}
    (h : (env.scope id).vars.has name = true) : env.owner? id name = some id := by
  unfold owner? path
  exact List.find?_cons_of_pos h

/-- Then it is looked for in the one scope around it. -/
theorem Environment.owner?_inside {env : Environment} {id root : Nat} {name : String}
    (h : (env.scope id).outer = [root]) :
    env.owner? id name =
      if (env.scope id).vars.has name = true then some id
      else if (env.scope root).vars.has name = true then some root
      else none := by
  unfold owner? path
  rw [h]
  by_cases hid : (env.scope id).vars.has name = true
  · rw [if_pos hid, List.find?_cons_of_pos (by exact hid)]
  · rw [if_neg hid, List.find?_cons_of_neg (by exact hid)]
    by_cases hroot : (env.scope root).vars.has name = true
    · rw [if_pos hroot, List.find?_cons_of_pos (by exact hroot)]
    · rw [if_neg hroot, List.find?_cons_of_neg (by exact hroot), List.find?_nil]

/-- Where a run is, there is at most one scope around the innermost one. -/
theorem Program.Reaches.outer_cases {tokens : List Token} {p : Program}
    (h : Program.ofTokens tokens = .ok p) {m : Machine} (hm : p.Reaches m) {scope : Nat}
    (hactive : m.frames.head? = some scope) :
    (m.environment.scope scope).outer = [] ∨
      ∃ root, (m.environment.scope scope).outer = [root] := by
  obtain ⟨c, hlayout, hanchored⟩ := Program.ofTokens_layout h
  obtain ⟨⟨w, hw⟩, -⟩ := hm.admitted hlayout hanchored
  rw [hw.frames] at hactive
  cases hframes : w.frames with
  | nil =>
    rw [hframes] at hactive
    cases hactive
  | cons top rest =>
    rw [hframes] at hactive
    cases hactive
    obtain ⟨-, hstack⟩ | ⟨calls, root, -, hstack⟩ := hw.top_cases hframes
    · exact .inl hstack.outer
    · exact .inr ⟨root.scope, (hstack.calls top (List.mem_cons_self ..)).1⟩

namespace SlotCourse

variable {p : Program} {depth scope : Nat} {target : Occurrence} {element value : Expr}
  {m m' : Machine} (c : SlotCourse p depth scope target element value m m')

/-- What is known of the states behind the value and behind the index. -/
theorem states (hm : p.Reaches m) :
    m.Behind p c.before ∧ c.before.store.Made c.operand ∧ c.before.Behind p c.behind := by
  obtain ⟨ticks, log, hvalue⟩ := c.valued
  obtain ⟨ticks', log', hindex⟩ := c.indexed
  obtain ⟨a, hrun⟩ := Level.evaluateInteger_ok hindex
  have hbehind := Level.behind_evaluate hm.owned hm.separate hm.tidy hvalue
  have howned := Level.owned_elapsed hm.owned ticks log
  obtain ⟨hspared, hmade⟩ := Level.spared_evaluate depth (some scope) value howned hvalue
  exact ⟨hbehind, hmade,
    Level.behind_evaluate hspared.owned hbehind.shielded.separate hbehind.tidy hrun⟩

/-- If the index calls nothing, it changes nothing. -/
theorem behind_of_callFree (hm : p.Reaches m) (hfree : element.isCallFree = true) :
    ∃ ticks log, c.behind = c.before.elapsed ticks log := by
  obtain ⟨⟨⟨_, _, hspared⟩, -⟩, -⟩ := c.states hm
  obtain ⟨ticks, log, hindex⟩ := c.indexed
  exact Level.idle_evaluateInteger hspared.owned depth (some scope) hfree _ _ _ _ hindex

/-- The value is what it was, unless it is the array of a module's variable and the index
makes a call. -/
theorem reveal_eq (hm : p.Reaches m) :
    c.behind.store.reveal c.operand = c.before.store.reveal c.operand ∨
      c.before.Shared c.operand ∧ element.isCallFree = false := by
  cases hfree : element.isCallFree with
  | true =>
    obtain ⟨ticks, log, hsame⟩ := c.behind_of_callFree hm hfree
    rw [hsame]
    exact .inl rfl
  | false =>
    obtain ⟨-, hmade, ⟨ticks, log, hspared⟩, hshielded, -, -⟩ := c.states hm
    have hmade' : (c.before.elapsed ticks log).store.Made c.operand := hmade
    have hshielded' : (c.before.elapsed ticks log).Shielded c.behind :=
      { hshielded with }
    rcases reveal_later hmade' hspared hshielded' with hsame | hshared
    · exact .inl hsame
    · exact .inr ⟨hshared, rfl⟩

/-- Nothing but the store is written at the end. -/
theorem environment_eq : m'.environment = c.behind.environment := by
  obtain ⟨ticks, log, hwritten⟩ := c.written
  have henvironment := congrArg Machine.environment hwritten
  exact henvironment

/-- The scope that has the variable is open, and keeps it. -/
theorem has_behind (hm : p.Reaches m) :
    (c.behind.environment.scope c.owner).vars.has target.name = true := by
  obtain ⟨hbehind, -, hbehind'⟩ := c.states hm
  have hopen : c.owner ∈ c.before.frames := by
    by_contra hclosed
    exact Variables.entries_ne_nil_of_has (has_of_owner? c.resolved)
      (hbehind.tidy.closed c.owner hclosed)
  have hopen' : c.owner ∈ c.behind.frames := by
    rw [hbehind'.shielded.frames]
    exact hopen
  obtain ⟨v, hv, -⟩ :=
    hbehind'.later.type_eq (hbehind.tidy.made c.owner hopen) hopen' c.found
  unfold Table.has
  rw [hv]
  rfl

/-- The name means the same variable afterwards. -/
theorem resolves {tokens : List Token} (h : Program.ofTokens tokens = .ok p)
    (hm : p.Reaches m) :
    m'.environment.owner? scope target.name = some c.owner := by
  rw [c.environment_eq]
  obtain ⟨hbehind, -, hbehind'⟩ := c.states hm
  have hlt := hm.tidy.made scope (List.mem_of_mem_head? c.active)
  have hlt' := Nat.lt_of_lt_of_le hlt hbehind.later.more
  have houter := hbehind.later.outer scope hlt
  have houter' := hbehind'.later.outer scope hlt'
  have hhas := c.has_behind hm
  by_cases hself : c.owner = scope
  · rw [hself] at hhas ⊢
    exact Environment.owner?_self hhas
  have hfound := c.resolved
  obtain hnone | ⟨root, hroot⟩ := hm.outer_cases h c.active
  · unfold Environment.owner? Environment.path at hfound
    rw [houter, hnone] at hfound
    exact absurd (List.mem_singleton.mp (List.mem_of_find?_eq_some hfound)) hself
  · rw [hroot] at houter
    -- the innermost scope is that of a call, and has the name no more than before
    have hno : ¬ c.before.Records scope := fun hrecords => by
      obtain ⟨-, hnone⟩ := hbehind.shielded.separate.recorded scope hrecords
      rw [houter] at hnone
      cases hnone
    have hscope := hbehind'.shielded.scopes scope hlt' hno
    rw [Environment.owner?_inside houter] at hfound
    rw [Environment.owner?_inside (houter'.trans houter), hscope]
    split at hfound
    · exact absurd (Option.some.inj hfound).symm hself
    · next hnot =>
      split at hfound
      · rw [← Option.some.inj hfound] at hhas
        rw [if_neg hnot, if_pos hhas, hfound]
      · cases hfound

/-- If the index calls nothing, or the variable is the innermost call's own, it holds the
same array behind the index. -/
theorem lasts (hm : p.Reaches m)
    (h : element.isCallFree = true ∨ c.owner = scope ∧ ¬ c.before.Records scope) :
    c.behind.Owns c.owner target.name c.address := by
  have howns : c.before.Owns c.owner target.name c.address :=
    ⟨c.held, Variables.mem_of_find? c.found, c.holds⟩
  rcases h with hfree | ⟨hlocal, hno⟩
  · obtain ⟨ticks, log, hsame⟩ := c.behind_of_callFree hm hfree
    rw [hsame]
    exact howns
  · obtain ⟨-, -, -, hshielded, -, -⟩ := c.states hm
    have hheld : c.before.Holds c.owner c.address := howns.holds
    have hlt := hheld.lt
    rw [hlocal] at hlt howns ⊢
    -- the scope of a call is as it was
    have hscope := hshielded.scopes scope hlt hno
    unfold Owns
    rw [hscope]
    exact howns

/-- If the variable holds the array still, the slot is set, and it is read back. -/
theorem sets (hm : p.Reaches m)
    (howner : m'.environment.owner? scope target.name = some c.owner)
    (howns : c.behind.Owns c.owner target.name c.address) :
    c.behind.SetsSlot m' c.owner target.name c.index c.content ∧
      m'.ReadsSlot p scope target c.index c.content := by
  obtain ⟨-, -, ⟨_, _, hspared⟩, -⟩ := c.states hm
  obtain ⟨ticks, log, hwritten⟩ := c.written
  have hsets := hspared.owned.setsSlot howns c.inside c.content ticks log
  rw [← hwritten] at hsets
  refine ⟨hsets, ?_⟩
  obtain ⟨v, hmem, hbinding⟩ := howns
  have hv := (hspared.owned.plain c.owner).find? hmem
  rw [← c.environment_eq] at hv
  have hslots : m'.store.slots c.address =
      (c.behind.store.slots c.address).set c.index.toNat (some c.content) :=
    (congrArg (fun n : Machine => n.store.slots c.address) hwritten).trans
      ((Store.slots_write ..).trans
        (if_pos ⟨rfl, hspared.owned.owns_lt ⟨v, hmem, hbinding⟩⟩))
  refine Level.readsSlot howner hv hbinding ?_
  rw [hslots]
  exact Value.slotAt_set c.content c.inside

/-- If it holds another one, the assignment does not show in it. -/
theorem loses (hm : p.Reaches m) (hno : ¬ c.behind.Owns c.owner target.name c.address) :
    m'.valueOf c.owner target.name = c.behind.valueOf c.owner target.name := by
  obtain ⟨-, -, ⟨_, _, hspared⟩, -⟩ := c.states hm
  obtain ⟨ticks, log, hwritten⟩ := c.written
  exact (congrArg (fun n : Machine => n.valueOf c.owner target.name) hwritten).trans
    (hspared.owned.valueOf_write hno _ ticks log)

end SlotCourse

/-- Whatever the value and the index are, a successful assignment to a slot writes the
value that its operand has behind the index, converted to the type of the elements, into
the array that the variable held before the index was evaluated.  If the variable holds
this array still, just this slot of it has changed, and it is read back; if not, nothing
has changed in the variable.  It does hold it if the index makes no call or the variable
belongs to the innermost call. -/
theorem slots_assigned {tokens : List Token} {p : Program}
    (h : Program.ofTokens tokens = .ok p) {m m' : Machine} (hm : p.Reaches m)
    {ticks depth index : Nat} {node : Node Operator}
    (hnode : p.forest.nodes[index]? = some node) {target : Occurrence}
    {element value : Expr}
    (hoperator : node.operator = .assignment target (some element) value)
    (hrun : (Level.running p depth).execute index { m with ticks } = .ok () m') :
    ∃ below scope, ∃ c : SlotCourse p below scope target element value m m',
      depth = below + 1 ∧
      (c.behind.store.reveal c.operand = c.before.store.reveal c.operand ∨
        c.before.Shared c.operand ∧ element.isCallFree = false) ∧
      m'.environment.owner? scope target.name = some c.owner ∧
      (c.behind.Owns c.owner target.name c.address →
        c.behind.SetsSlot m' c.owner target.name c.index c.content ∧
          m'.ReadsSlot p scope target c.index c.content) ∧
      (¬ c.behind.Owns c.owner target.name c.address →
        m'.valueOf c.owner target.name = c.behind.valueOf c.owner target.name) ∧
      (element.isCallFree = true ∨ c.owner = scope ∧ ¬ c.before.Records scope →
        c.behind.Owns c.owner target.name c.address) := by
  cases depth with
  | zero => cases hrun
  | succ below =>
    obtain ⟨scope, ⟨c⟩⟩ := Level.slotCourse hm hnode hoperator hrun
    have howner := c.resolves h hm
    exact ⟨below, scope, c, rfl, c.reveal_eq hm, howner, c.sets hm howner, c.loses hm,
      c.lasts hm⟩

/-! ## An index that displaces the array -/

/-- The tokens of a program whose index binds the variable anew:

    module m; variable - integer[1] a; variable - integer[1] b;
    function f() : integer let a := b; return 0; end f.
    begin let b[0] := 7; let a[f()] := 5; output a[0]; end. -/
def displacing : List Token :=
  let word text : Token := { kind := .word, text }
  let number text : Token := { kind := .number, text }
  [.ofKind .moduleWord, word "m", .ofKind .semicolon,
    .ofKind .variableWord, .ofKind .minus, word "integer", .ofKind .leftBracket,
    number "1", .ofKind .rightBracket, word "a", .ofKind .semicolon,
    .ofKind .variableWord, .ofKind .minus, word "integer", .ofKind .leftBracket,
    number "1", .ofKind .rightBracket, word "b", .ofKind .semicolon,
    .ofKind .functionWord, word "f", .ofKind .leftParen, .ofKind .rightParen,
    .ofKind .colon, word "integer",
    .ofKind .letWord, word "a", .ofKind .assign, word "b", .ofKind .semicolon,
    .ofKind .returnWord, number "0", .ofKind .semicolon,
    .ofKind .endWord, word "f", .ofKind .dot,
    .ofKind .beginWord,
    .ofKind .letWord, word "b", .ofKind .leftBracket, number "0", .ofKind .rightBracket,
    .ofKind .assign, number "7", .ofKind .semicolon,
    .ofKind .letWord, word "a", .ofKind .leftBracket, word "f", .ofKind .leftParen,
    .ofKind .rightParen, .ofKind .rightBracket, .ofKind .assign, number "5",
    .ofKind .semicolon,
    .ofKind .outputWord, word "a", .ofKind .leftBracket, number "0",
    .ofKind .rightBracket, .ofKind .semicolon,
    .ofKind .endWord, .ofKind .dot, .ending]

/-- The slot of `b` is set, and read back. -/
theorem slots_assigned_plainly : ∃ p m m' below scope target element value,
    ∃ c : SlotCourse p below scope target element value m m',
      Program.ofTokens displacing = .ok p ∧ p.Reaches m ∧
        (Level.running p 20).execute 7 { m with ticks := 40 } = .ok () m' ∧
        target.name = "b" ∧ m'.environment.owner? scope "b" = some c.owner ∧
        c.behind.SetsSlot m' c.owner "b" c.index c.content ∧
        m'.ReadsSlot p scope target c.index c.content := by
  obtain ⟨p, hp, hholds⟩ := Program.exists_ofTokens (fun p =>
    (p.forest.nodes[7]?.any fun node => node.operator.setsSlotOf "b") &&
    ((Level.running p 20).execute 7).succeeds
      { p.stateAfter [] false 0 6 with ticks := 40 } fun _ => true)
    (by decide +kernel : (Program.ofTokens displacing).toOption.any _ = true)
  have hreaches : p.Reaches (p.stateAfter [] false 0 6) := ⟨_, _, _, _, rfl⟩
  generalize p.stateAfter [] false 0 6 = m at hholds hreaches
  obtain ⟨hnode, hrun⟩ := Bool.and_eq_true_iff.mp hholds
  obtain ⟨node, heq, hslot⟩ := (Option.any_eq_true _ _).mp hnode
  obtain ⟨target, element, value, hoperator, htarget, helement, -⟩ :=
    Operator.exists_of_setsSlotOf hslot
  obtain ⟨⟨⟩, m', hok, -⟩ := exists_of_succeeds hrun
  obtain ⟨below, scope, c, -, -, howner, hsets, -, hlasts⟩ :=
    slots_assigned hp hreaches heq hoperator hok
  obtain ⟨hset, hread⟩ := hsets (hlasts (.inl helement))
  rw [htarget] at howner hset
  exact ⟨p, m, m', below, scope, target, element, value, c, hp, hreaches, hok, htarget, howner,
    hset, hread⟩

/-- The variable whose slot an assignment sets to a literal, the index and the literal, if
the operator is one. -/
def Operator.literalToSlot? : Operator → Option (Occurrence × Expr × Value)
  | .assignment target (some element) (.literal v) => some (target, element, v)
  | _ => none

/-- The assignment of a literal to a slot is recognized. -/
theorem Operator.eq_of_literalToSlot? {op : Operator} {target : Occurrence} {element : Expr}
    {v : Value} (h : op.literalToSlot? = some (target, element, v)) :
    op = .assignment target (some element) (.literal v) := by
  unfold literalToSlot? at h
  split at h
  · cases h
    rfl
  · cases h

/-- Whether all slots of an array have a text. -/
def Value.isFilledWith (text : String) : Value → Bool
  | .array slots => slots.all fun slot => slot.any fun v => v.toText.toOption = some text
  | _ => false

/-- In an array that is filled with a text, every slot that is set has that text. -/
theorem Value.slots_of_isFilledWith {text : String} {v : Value}
    (h : v.isFilledWith text = true) : ∃ slots, v = .array slots ∧
      ∀ content, some content ∈ slots → content.toText.toOption = some text := by
  unfold isFilledWith at h
  split at h
  · refine ⟨_, rfl, fun content hmem => ?_⟩
    have hslot := List.all_eq_true.mp h _ hmem
    rw [Option.any_some, decide_eq_true_eq] at hslot
    exact hslot
  · cases h

/-- A literal has its value. -/
theorem Level.evaluate_literal {p : Program} {depth : Nat} {scope : Option Nat} {v : Value}
    {m m' : Machine} {a : Operand}
    (h : (running p depth).evaluate scope (.literal v) m = .ok a m') : a = .value v := by
  cases depth with
  | zero => cases h
  | succ depth =>
    obtain ⟨_, _, -, hpure⟩ := bind_eq_ok h
    cases hpure
    rfl

/-- Before an assignment of a literal looks up the variable, nothing happens. -/
theorem SlotCourse.of_literal {p : Program} {depth scope : Nat} {target : Occurrence}
    {element : Expr} {v : Value} {m m' : Machine}
    (c : SlotCourse p depth scope target element (.literal v) m m') (hm : p.Reaches m) :
    m.environment.owner? scope target.name = some c.owner ∧
      (m.environment.scope c.owner).vars.find? target.name = some c.held ∧
      v.convert c.held.type.element = .ok c.content := by
  obtain ⟨ticks, log, hvalue⟩ := c.valued
  obtain ⟨ticks', log', hbefore⟩ :=
    Level.idle_evaluate hm.owned depth (some scope) (.literal v) rfl _ _ _ _ hvalue
  have hresolved := c.resolved
  have hfound := c.found
  have hconverted := c.converted
  rw [hbefore] at hresolved hfound
  rw [Level.evaluate_literal hvalue] at hconverted
  exact ⟨hresolved, hfound, hconverted⟩

/-- Five is assigned to the slot of `a`, and seven is in it afterwards. -/
theorem slot_lost : ∃ p m m' node target element value below scope,
    ∃ c : SlotCourse p below scope target element value m m',
      Program.ofTokens displacing = .ok p ∧ p.Reaches m ∧
        p.forest.nodes[8]? = some node ∧
        node.operator = .assignment target (some element) value ∧
        (Level.running p (below + 1)).execute 8 { m with ticks := 40 } = .ok () m' ∧
        m'.environment.owner? scope target.name = some c.owner ∧
        ∃ slots : List (Option Value), m'.valueOf c.owner target.name = some (.array slots) ∧
          slots[c.index.toNat]? ≠ some (some c.content) := by
  obtain ⟨p, hp, hholds⟩ := Program.exists_ofTokens (fun p =>
    let m := p.stateAfter [] false 0 10
    (p.forest.nodes[8]?).any fun node =>
      node.operator.literalToSlot?.any fun (target, _, v) =>
        (m.environment.owner? 0 target.name = some 0 && m.frames.head? = some 0) &&
        (((m.environment.scope 0).vars.find? target.name).any fun held =>
          (v.convert held.type.element).toOption.any fun content =>
            content.toText.toOption = some "5") &&
        (do
          (Level.running p 20).execute 8
          get).succeeds { m with ticks := 40 } fun m' =>
            (m'.valueOf 0 target.name).any (Value.isFilledWith "7"))
    (by decide +kernel : (Program.ofTokens displacing).toOption.any _ = true)
  have hreaches : p.Reaches (p.stateAfter [] false 0 10) := ⟨_, _, _, _, rfl⟩
  generalize p.stateAfter [] false 0 10 = m at hholds hreaches
  obtain ⟨node, hnode, hliteral⟩ := (Option.any_eq_true _ _).mp hholds
  obtain ⟨⟨target, element, v⟩, hoperator, hholds⟩ := (Option.any_eq_true _ _).mp hliteral
  simp only [Bool.and_eq_true, decide_eq_true_eq] at hholds
  obtain ⟨⟨⟨howner, hactive⟩, hcontent⟩, hrun⟩ := hholds
  replace hoperator := Operator.eq_of_literalToSlot? hoperator
  obtain ⟨m', m'', hget, hfilled⟩ := exists_of_succeeds hrun
  obtain ⟨⟨⟩, _, hexecute, hsame⟩ := bind_eq_ok hget
  cases hsame
  obtain ⟨scope, ⟨c⟩⟩ := Level.slotCourse hreaches hnode hoperator hexecute
  cases c.active.symm.trans hactive
  obtain ⟨hresolved, hfound, hconverted⟩ := c.of_literal hreaches
  have howns : c.owner = 0 := Option.some.inj (hresolved.symm.trans howner)
  rw [howns] at hfound
  have hfive : c.content.toText.toOption = some "5" := by
    obtain ⟨held, hheld, hcontent⟩ := (Option.any_eq_true _ _).mp hcontent
    cases hfound.symm.trans hheld
    rw [hconverted] at hcontent
    exact of_decide_eq_true hcontent
  obtain ⟨w, hw, hfill⟩ := (Option.any_eq_true _ _).mp hfilled
  obtain ⟨slots, rfl, hseven⟩ := Value.slots_of_isFilledWith hfill
  rw [← howns] at hw
  refine ⟨p, m, m', node, target, element, _, 19, 0, c, hp, hreaches, hnode, hoperator, hexecute,
    c.resolves hp hreaches, slots, hw, fun hslot => ?_⟩
  have htexts := hfive.symm.trans (hseven c.content (List.mem_of_getElem? hslot))
  exact absurd htexts (by decide)

end Pseudocode
