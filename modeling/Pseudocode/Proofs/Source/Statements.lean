import Pseudocode.Proofs.Source.Reading
import Pseudocode.Proofs.Source.Tables

/-!
# Statements that the rules allow are laid out

The builder reads statements that the rules allow and leaves a forest that shows
them (`Written.laid`).  The induction follows the rules.

What one run of the builder does to a draft is said in one structure (`Draft.Lays`): which
tokens are left, that the names are those of the new context, that the operators placed
before are as they were, and that the new places show the new trees and nothing else.  So
two runs, one behind the other, lay out what each of them does (`Lays.trans`), and nothing
below looks at a forest field by field.

There is one exception to "as they were": in a body each operator is linked to the
one before it, so reading the rest of a body also sets the sibling of the operator
that was placed last.  And the first operator of a body is hung below its owner, which may
be loose still or have its place already: a body is read the same way for both
(`BodyGets`), and the owner has no child before, so that the check whether it has one
passes.

An operator is placed behind what is nested in it, but a further branch of a
conditional before it.  Whatever the order, the new places are those that the new
trees take, each once.

> `BodyGets.cons`: an operator is placed and linked, and then the rest of the row is.
>
> `LaysRow.branch`: body, further branches and fallback are the parts of a conditional.
>
> `Written.laid`: so whatever the rules allow is laid out.
-/

namespace Pseudocode

open Source Grammar

/-! ## First tokens

Which kind of statement is read is decided by its first token, and each kind has one of its
own. -/

/-- The kinds of tokens that a statement can start with. -/
def Source.statementWords : List Token.Kind :=
  [.whileWord, .ifWord, .variableWord, .letWord, .inputWord, .outputWord, .callWord,
    .returnWord]

/-- The kinds of tokens that can end a body. -/
def Source.closers : List Token.Kind := [.elseIfWord, .elseWord, .endWord]

namespace Source

variable {N : Numbering} {Γ Γ' : Context} {ts : List Token} {trees : List (Tree Operator)}

/-- Marks of some kinds start with one of the first kind. -/
theorem Marks.cons {kind : Token.Kind} {kinds : List Token.Kind}
    (h : Marks ts (kind :: kinds)) : ∃ t us, ts = t :: us ∧ t.kind = kind ∧ Marks us kinds := by
  unfold Marks at h
  rw [List.map_eq_cons_iff] at h
  exact h

/-- No marks are no tokens. -/
theorem Marks.nil (h : Marks ts []) : ts = [] := List.map_eq_nil_iff.mp h

/-- A statement starts with the word for it. -/
theorem Written.starts {part : Part} (h : Written N part Γ ts trees Γ')
    (hpart : part = .statement) : ∃ t us, ts = t :: us ∧ t.kind ∈ statementWords := by
  cases h with
  | @declaration _ opening _ _ _ _ _ _ head =>
    obtain ⟨t, us, rfl, hkind, -⟩ := head.cons
    exact ⟨t, _, rfl, by rw [hkind]; decide⟩
  | assignment head => exact ⟨_, _, rfl, by rw [head]; decide⟩
  | input head => exact ⟨_, _, rfl, by rw [head]; decide⟩
  | output head => exact ⟨_, _, rfl, by rw [head]; decide⟩
  | call head => exact ⟨_, _, rfl, by rw [head]; decide⟩
  | giveBack head => exact ⟨_, _, rfl, by rw [head]; decide⟩
  | loop head => exact ⟨_, _, rfl, by rw [head]; decide⟩
  | branch head => exact ⟨_, _, rfl, by rw [head]; decide⟩
  | _ => cases hpart

/-- To declare a variable opens no module and adds no class. -/
theorem Context.declare_kept (Γ : Context) (name : String) :
    (Γ.declare name).modules = Γ.modules ∧ (Γ.declare name).methods = Γ.methods := by
  unfold declare
  split <;> exact ⟨rfl, rfl⟩

/-- Statements open no module, and declare no function. -/
theorem Written.kept {part : Part} (h : Written N part Γ ts trees Γ') :
    Γ'.modules = Γ.modules ∧ Γ'.methods = Γ.methods := by
  have htrans : ∀ {Γ₁ Γ₂ Γ₃ : Context}, Γ₂.modules = Γ₁.modules ∧ Γ₂.methods = Γ₁.methods →
      Γ₃.modules = Γ₂.modules ∧ Γ₃.methods = Γ₂.methods →
      Γ₃.modules = Γ₁.modules ∧ Γ₃.methods = Γ₁.methods :=
    fun h h' => ⟨h'.1.trans h.1, h'.2.trans h.2⟩
  induction h with
  | declaration => exact Context.declare_kept _ _
  | loop _ _ _ _ _ ih => exact ih
  | branch _ _ _ _ _ _ _ ih₁ ih₂ ih₃ => exact htrans (htrans ih₁ ih₂) ih₃
  | next _ _ ih₁ ih₂ => exact htrans ih₁ ih₂
  | alternative _ _ _ _ _ ih₁ ih₂ => exact htrans ih₁ ih₂
  | fallback _ _ ih => exact ih
  | _ => exact ⟨rfl, rfl⟩

/-- The same for modules alone. -/
theorem Written.modules {part : Part} (h : Written N part Γ ts trees Γ') :
    Γ'.modules = Γ.modules := h.kept.1

end Source

/-! ## What is laid out

What a builder leaves is told by what can be seen of the draft: the tokens behind, the context
it agrees with, and the part of the forest that is new (`Lays`).  Nodes from before stay, but
one of them may be linked now. -/

namespace Draft

/-- The number of operators that were placed. -/
def size (d : Draft) : Nat := d.program.forest.nodes.size

/-- What reading leaves: the tokens behind, a draft that agrees with the context
there, tables with what the trees of a row enter, and the new operators, which are all
shown.  An operator that was placed before may be linked now. -/
structure Lays (d d' : Draft) (linked : Option Nat) (rest : List Token) (Γ : Context)
    (row : Option Place) (trees : List (Tree Operator)) (shown : List Nat → Prop) :
    Prop where
  ahead : d'.ahead = rest
  agrees : d'.Agrees Γ
  old : ∀ i < d.size, linked ≠ some i →
    d'.program.forest.nodes[i]? = d.program.forest.nodes[i]?
  roots : d'.program.forest.roots = d.program.forest.roots
  block : d'.block = d.block
  last : d'.last = d.last
  tables : d.tables.Enters row trees d'.tables
  new : ∃ used, shown used ∧ Covers used d.size d'.size

namespace Lays

variable {d d₁ d' : Draft} {linked : Option Nat} {rest rest₁ : List Token}
  {Γ Γ₁ : Context} {row row₁ : Option Place} {trees trees₁ : List (Tree Operator)}
  {shown shown₁ : List Nat → Prop}

/-- Nothing is taken out of a forest. -/
theorem size_le (h : d.Lays d' linked rest Γ row trees shown) : d.size ≤ d'.size := by
  obtain ⟨used, -, hcovers⟩ := h.new
  exact hcovers.le

/-- Nothing new. -/
theorem unchanged (hforest : d'.program.forest = d.program.forest)
    (hblock : d'.block = d.block) (hlast : d'.last = d.last) (hahead : d'.ahead = rest)
    (hagrees : d'.Agrees Γ) (htables : d.tables.Enters row trees d'.tables)
    (hshown : shown []) : d.Lays d' none rest Γ row trees shown := by
  refine ⟨hahead, hagrees, fun i _ _ => by rw [hforest], by rw [hforest], hblock, hlast,
    htables, [], hshown, ?_⟩
  unfold size
  rw [hforest]
  exact .nil _

/-- An operator in which nothing is nested. -/
theorem leaf {operator : Operator} (hforest : d'.program.forest = d.program.forest)
    (hblock : d'.block = d.block) (hlast : d'.last = d.last) (hahead : d'.ahead = rest)
    (hagrees : d'.Agrees Γ) (htables : d.tables.Enters row [.leaf operator] d'.tables) :
    d.Lays d' none rest Γ row [.leaf operator]
      (d'.program.forest.Holds { operator } (.leaf operator)) :=
  unchanged hforest hblock hlast hahead hagrees htables (Forest.holds_leaf _ _)

/-- Only forests and where they are hung matter, and what is entered. -/
theorem congr {d₀ d₀' : Draft} {rest₀ : List Token} {Γ₀ : Context}
    (h : d₀.Lays d₀' linked rest₀ Γ₀ row₁ trees₁ shown)
    (hforest : d₀.program.forest = d.program.forest) (hblock : d₀.block = d.block)
    (hlast : d₀.last = d.last) (hforest' : d'.program.forest = d₀'.program.forest)
    (hblock' : d'.block = d₀'.block) (hlast' : d'.last = d₀'.last)
    (hahead : d'.ahead = rest) (hagrees : d'.Agrees Γ)
    (htables : d.tables.Enters row trees d'.tables) :
    d.Lays d' linked rest Γ row trees shown := by
  obtain ⟨-, -, old, roots, block, last, -, new⟩ := h
  unfold size at old new
  rw [hforest] at old roots new
  rw [← hforest'] at old roots new
  exact ⟨hahead, hagrees, old, roots, hblock'.trans (block.trans hblock),
    hlast'.trans (last.trans hlast), htables, new⟩

/-- Tokens that are taken behind it. -/
theorem reading (h : d.Lays d' linked rest Γ row trees shown) (ts : List Token) :
    d.Lays (d'.before ts) linked ts Γ row trees shown :=
  ⟨rfl, h.agrees.before ts, h.old, h.roots, h.block, h.last, h.tables, h.new⟩

/-- The same as something else that is shown. -/
theorem imp (h : d.Lays d' linked rest Γ row trees shown)
    (htables : d.tables.Enters row trees d'.tables → d.tables.Enters row₁ trees₁ d'.tables)
    (hshown : ∀ used, shown used → shown₁ used) :
    d.Lays d' linked rest Γ row₁ trees₁ shown₁ := by
  obtain ⟨used, hused, hcovers⟩ := h.new
  exact ⟨h.ahead, h.agrees, h.old, h.roots, h.block, h.last, htables h.tables, used,
    hshown used hused, hcovers⟩

/-- One part behind the other. -/
theorem trans (h₁ : d.Lays d₁ none rest₁ Γ₁ row trees₁ shown₁)
    {d₂ : Draft} {shown₂ : List Nat → Prop} (h₂ : d₁.Lays d₂ none rest Γ row trees shown₂)
    (hshown : ∀ used used', shown₁ used → shown₂ used' →
      (∀ i ∈ used, d₂.program.forest.nodes[i]? = d₁.program.forest.nodes[i]?) →
      shown (used ++ used')) :
    d.Lays d₂ none rest Γ row (trees₁ ++ trees) shown := by
  obtain ⟨used, hused, hcovers⟩ := h₁.new
  obtain ⟨used', hused', hcovers'⟩ := h₂.new
  refine ⟨h₂.ahead, h₂.agrees, fun i hi _ => ?_, h₂.roots.trans h₁.roots,
    h₂.block.trans h₁.block, h₂.last.trans h₁.last, h₁.tables.append h₂.tables,
    used ++ used', ?_, hcovers.append hcovers'⟩
  · have hlt := Nat.lt_of_lt_of_le hi h₁.size_le
    exact (h₂.old i hlt (by simp)).trans (h₁.old i hi (by simp))
  · refine hshown used used' hused hused' fun i hi => ?_
    exact h₂.old i (hcovers.mem_iff.mp hi).2 (by simp)

/-- An operator that is placed with what it holds, and a row that is linked to it. -/
theorem next {node : Node Operator} {tree : Tree Operator}
    (h₁ : d.Lays d₁ none rest₁ Γ₁ row [tree] (d₁.program.forest.Holds node tree))
    (d₂ : Draft) (hlinked : ∀ q, linked = some q → q < d.size)
    (hold : ∀ i < d₁.size, linked ≠ some i →
      d₂.program.forest.nodes[i]? = d₁.program.forest.nodes[i]?)
    (hsize : d₂.size = d₁.size + 1)
    (hroots : d₂.program.forest.roots = d₁.program.forest.roots)
    (hblock : d₂.block = d₁.block) (hlast : d₂.last = d₁.last)
    (htables : d₂.tables = d₁.tables) {behind : Option Nat}
    (h₂ : d₂.Lays d' (some d₁.size) rest Γ row trees
      (d'.program.forest.Shows (.row behind) trees))
    (hfound : d'.program.forest.nodes[d₁.size]? =
      some { node.at d₁.size with links := { node.links with sibling := behind } }) :
    d.Lays d' linked rest Γ row (tree :: trees)
      (d'.program.forest.Shows (.row (some d₁.size)) (tree :: trees)) := by
  obtain ⟨used, hholds, hcovers⟩ := h₁.new
  obtain ⟨used', hshows, hcovers'⟩ := h₂.new
  rw [hsize] at hcovers'
  -- what the first operator holds is not touched by the others
  have hkept : ∀ i < d₁.size, linked ≠ some i →
      d'.program.forest.nodes[i]? = d₁.program.forest.nodes[i]? := by
    intro i hi hne
    refine (h₂.old i (by omega) ?_).trans (hold i hi hne)
    simp only [ne_eq, Option.some.injEq]
    omega
  have hheld : d'.program.forest.Holds node tree used := by
    refine hholds.frame fun i hi => hkept i (hcovers.mem_iff.mp hi).2 fun heq => ?_
    have hlt := hlinked i heq
    have hle := (hcovers.mem_iff.mp hi).1
    omega
  refine ⟨h₂.ahead, h₂.agrees, fun i hi hne => ?_, ?_, ?_, ?_, ?_, _,
    hheld.shows hfound hshows, hcovers.behind hcovers'⟩
  · exact (hkept i (Nat.lt_of_lt_of_le hi h₁.size_le) hne).trans (h₁.old i hi (by simp))
  · exact h₂.roots.trans (hroots.trans h₁.roots)
  · exact h₂.block.trans (hblock.trans h₁.block)
  · exact h₂.last.trans (hlast.trans h₁.last)
  · exact h₁.tables.append (htables ▸ h₂.tables)

end Lays

end Draft

namespace Builder

variable {β : Type} {d : Draft} {node : Node Operator}

/-- A node that is placed gets the first place that is free, and is told so. -/
theorem place_bind (hloose : node.index = none) (f : Nat → Builder β) :
    (place node >>= f) d =
      f d.size (d.withForest (d.program.forest.placed node)) := by
  unfold place
  rw [bind_assoc, get_bind, Forest.add_of_loose hloose]
  rfl

/-- The first operator of a row is nested in an owner that is loose. -/
theorem attach_loose_bind {owner : Node Operator} (hloose : node.index = none)
    (hnone : owner.links.child = none) (f : Node Operator × Nat → Builder β) :
    (attach nestLoose owner none node >>= f) d =
      f ({ owner with links := { owner.links with child := some d.size } }, d.size)
        (d.withForest (d.program.forest.placed node)) := by
  unfold attach
  rw [bind_assoc, place_bind hloose, nestLoose, Node.adopt_ok.mpr ⟨hnone, rfl⟩]
  rfl

/-- An owner that is in the forest takes in its first operator. -/
theorem nestPlaced_childless {k i : Nat} {owner : Node Operator}
    (hk : d.program.forest.nodes[k]? = some owner) (hnone : owner.links.child = none) :
    nestPlaced k i d = .ok (k, d.withForest (d.program.forest.adopted k i)) := by
  unfold nestPlaced
  rw [get_bind]
  show ((d.program.forest.adopt k i >>= fun p => Except.ok (p, d)) >>= _) = _
  rw [Forest.adopt_of_childless hk hnone]
  rfl

/-- The first operator of a row is nested in an owner that is in the forest. -/
theorem attach_placed_bind {k : Nat} {owner : Node Operator} (hloose : node.index = none)
    (hk : d.program.forest.nodes[k]? = some owner) (hnone : owner.links.child = none)
    (f : Nat × Nat → Builder β) :
    (attach nestPlaced k none node >>= f) d =
      f (k, d.size) (d.withForest ((d.program.forest.placed node).adopted k d.size)) := by
  have hnest : nestPlaced k d.size (d.withForest (d.program.forest.placed node)) = _ :=
    nestPlaced_childless (Forest.found_placed hk) hnone
  unfold attach
  rw [bind_assoc, place_bind hloose, bind_assoc]
  show (nestPlaced k d.size (d.withForest (d.program.forest.placed node)) >>= _) = _
  rw [hnest]
  rfl

/-- Every other operator of a row follows one without a sibling. -/
theorem attach_next_bind {π : Type} (nest : π → Nat → Builder π) (owner : π) {q : Nat}
    {before : Node Operator} (hloose : node.index = none)
    (hq : d.program.forest.nodes[q]? = some before)
    (hnone : before.links.sibling = none) (f : π × Nat → Builder β) :
    (attach nest owner (some q) node >>= f) d =
      f (owner, d.size)
        (d.withForest ((d.program.forest.placed node).followed q d.size)) := by
  unfold attach insert
  rw [bind_assoc, bind_assoc, get_bind, bind_assoc]
  show ((d.program.forest.insert (some q) node false >>= fun p => Except.ok (p, d)) >>=
    _) = _
  rw [Forest.insert_behind hq hloose hnone]
  rfl

/-! ## Simple statements -/

section

variable {Γ : Context} {rest : List Token} {depth : Nat}

/-- A statement that is laid out as a tree. -/
def LaysTree (row : Option Place) (d : Draft) (rest : List Token) (Γ : Context)
    (tree : Tree Operator) (node : Node Operator) (d' : Draft) : Prop :=
  d.Lays d' none rest Γ row [tree] (d'.program.forest.Holds node tree)

/-- A statement in which nothing is nested is read and placed later: it lays out a leaf. -/
theorem laysTree_leaf {row : Option Place} (hagrees : d.Agrees Γ) (rest : List Token)
    {operator : Operator} (mixed : Mixed row) (plain : operator.Plain)
    (uses : operator.Uses (fun _ => True) d.tables.Calls) :
    LaysTree row d rest Γ (.leaf operator) { operator } (d.before rest) :=
  .leaf rfl rfl rfl rfl (hagrees.before rest) (.around mixed plain uses .nothing)

/-- An expression ends at a semicolon. -/
theorem stops_semicolon {t : Token} (h : t.kind = .semicolon) :
    Stops .disjunction (t :: rest) := by
  show t.kind ∉ _
  rw [h]
  decide

/-- An `output` that the rules allow is read. -/
theorem output_gets {opening semicolon : Token} {ts : List Token} {value : Expr}
    (hagrees : d.Agrees Γ) (hopen : Γ.modules ≠ []) (head : opening.kind = .outputWord)
    (expression : ExprWritten .read Γ ts value) (last : semicolon.kind = .semicolon) :
    Gets (output depth (d.before (opening :: (ts ++ semicolon :: rest))))
      (depth ≤ ts.length) (LaysTree none d rest Γ (.leaf (.output value))) := by
  unfold output
  rw [take_bind head (by decide)]
  refine (expression_gets expression hagrees hopen (stops_semicolon last) depth).bind id ?_
  rintro _ _ ⟨rfl, rfl⟩
  rw [take_bind last (by decide)]
  exact .ok (laysTree_leaf hagrees rest trivial trivial (hagrees.uses hopen expression))

/-- An `input` of a variable that is visible is read. -/
theorem input_gets {opening name semicolon : Token} {o : Occurrence}
    (hagrees : d.Agrees Γ) (hopen : Γ.modules ≠ []) (head : opening.kind = .inputWord)
    (word : name.kind = .word) (found : Γ.resolve name.text = some o)
    (last : semicolon.kind = .semicolon) :
    Gets (input (d.before (opening :: name :: semicolon :: rest))) False
      (LaysTree none d rest Γ (.leaf (.input o))) := by
  unfold input
  rw [take_bind head (by decide), take_bind word (by decide)]
  have hresolve : (d.before (semicolon :: rest)).resolve name.text = some o :=
    ((hagrees.before _).resolve hopen _).trans found
  rw [target_bind_of_resolve hresolve, take_bind last (by decide)]
  exact .ok (laysTree_leaf hagrees rest trivial trivial trivial)

/-- An assignment behind its target is read. -/
theorem assignmentTail_gets {assign semicolon : Token} {o : Occurrence}
    {ts : List Token} {element : Option Expr} {value : Expr} (hagrees : d.Agrees Γ)
    (hopen : Γ.modules ≠ [])
    (helement : ∀ e ∈ element, e.Uses (fun _ => True) d.tables.Calls)
    (mark : assign.kind = .assign) (written : ExprWritten .read Γ ts value)
    (last : semicolon.kind = .semicolon) :
    Gets (assignmentTail depth o element (d.before (assign :: (ts ++ semicolon :: rest))))
      (depth ≤ ts.length) (LaysTree none d rest Γ (.leaf (.assignment o element value))) := by
  unfold assignmentTail
  rw [take_bind mark (by decide)]
  refine (expression_gets written hagrees hopen (stops_semicolon last) depth).bind id ?_
  rintro _ _ ⟨rfl, rfl⟩
  rw [take_bind last (by decide)]
  exact .ok (laysTree_leaf hagrees rest trivial trivial
    ⟨trivial, helement, hagrees.uses hopen written⟩)

/-- An assignment that the rules allow is read, to a variable or to an element. -/
theorem assignment_gets {opening name assign semicolon : Token} {o : Occurrence}
    {place ts : List Token} {element : Option Expr} {value : Expr}
    (hagrees : d.Agrees Γ) (hopen : Γ.modules ≠ []) (head : opening.kind = .letWord)
    (word : name.kind = .word) (found : Γ.resolve name.text = some o)
    (slot : Optionally (Bracketed (ExprWritten .read Γ)) place element)
    (mark : assign.kind = .assign) (written : ExprWritten .read Γ ts value)
    (last : semicolon.kind = .semicolon) :
    Gets (assignment depth
        (d.before (opening :: name :: (place ++ assign :: (ts ++ semicolon :: rest)))))
      (depth ≤ place.length + ts.length)
      (LaysTree none d rest Γ (.leaf (.assignment o element value))) := by
  have hend : (∀ e ∈ element, e.Uses (fun _ => True) d.tables.Calls) →
      Gets (assignmentTail depth o element (d.before (assign :: (ts ++ semicolon :: rest))))
        (depth ≤ place.length + ts.length)
        (LaysTree none d rest Γ (.leaf (.assignment o element value))) :=
    fun helement => (assignmentTail_gets hagrees hopen helement mark written last).imp
      (by omega) fun _ _ h => h
  rw [assignment_eq, take_bind head (by decide), take_bind word (by decide),
    target_bind_of_resolve (((hagrees.before _).resolve hopen _).trans found), sees_bind]
  cases slot with
  | absent =>
    rw [List.nil_append]
    have hnot : Token.firstIs [.leftBracket]
        (d.before (assign :: (ts ++ semicolon :: rest))).ahead = false :=
      firstIs_cons_of_not (by rw [mark]; decide) _
    rw [hnot]
    exact hend (by simp)
  | present there =>
    obtain @⟨bracket, us, e, closing, left, inside, right⟩ := there
    simp only [List.cons_append, List.append_assoc, List.nil_append]
    have hsees : Token.firstIs [.leftBracket] (d.before (bracket :: (us ++ closing ::
        assign :: (ts ++ semicolon :: rest)))).ahead = true :=
      firstIs_cons (by simp [left]) _
    rw [hsees, if_pos rfl, take_bind left (by decide)]
    have hstops : Stops .disjunction (closing :: assign :: (ts ++ semicolon :: rest)) := by
      show closing.kind ∉ _
      rw [right]
      decide
    refine (expression_gets inside hagrees hopen hstops depth).bind ?_ ?_
    · simp only [List.length_cons, List.length_append]
      omega
    · rintro _ _ ⟨rfl, rfl⟩
      rw [take_bind right (by decide)]
      exact hend (by simpa using hagrees.uses hopen inside)

/-- A call that the rules allow is read as a statement. -/
theorem call_gets {opening semicolon : Token} {ts : List Token} {name : String}
    {callee : Callee} {arguments : List Expr} (hagrees : d.Agrees Γ)
    (hopen : Γ.modules ≠ []) (head : opening.kind = .callWord)
    (operand : Derives Γ.names Reads .primary ts (.call name callee arguments))
    (last : semicolon.kind = .semicolon) :
    Gets (call depth (d.before (opening :: (ts ++ semicolon :: rest))))
      (depth ≤ ts.length)
      (LaysTree none d rest Γ (.leaf (.call name callee arguments))) := by
  have hnames : (d.before (ts ++ semicolon :: rest)).names = Γ.names :=
    (hagrees.before _).names hopen
  have hstops : Stops .primary (semicolon :: rest) := by
    show semicolon.kind ∉ _
    rw [last]
    decide
  unfold call
  rw [take_bind head (by decide), get_bind, hnames]
  refine (primary_gets operand hstops depth).bind id ?_
  rintro _ _ ⟨rfl, rfl⟩
  dsimp only
  rw [take_bind last (by decide)]
  have huses : (Expr.call name callee arguments).Uses (fun _ => True) d.tables.Calls :=
    hagrees.uses hopen operand
  cases huses with
  | call h harguments => exact .ok (laysTree_leaf hagrees rest trivial trivial ⟨h, harguments⟩)

/-- A `return` behind its result is read if it has one exactly where one is due. -/
theorem giveBackTail_gets {semicolon : Token} {f : FunctionDeclaration}
    {result : Option Expr} {deep : Prop} (hagrees : d.Agrees Γ)
    (hresult : ∀ e ∈ result, e.Uses (fun _ => True) d.tables.Calls)
    (last : semicolon.kind = .semicolon) (agrees : result.isSome = f.result.isSome) :
    Gets (giveBackTail f result (d.before (semicolon :: rest))) deep
      (LaysTree none d rest Γ (.leaf (.giveBack result))) := by
  have hfits : (f.result.isSome && result.isNone) = false ∧
      (f.result.isNone && result.isSome) = false := by
    rw [agrees]
    cases hr : f.result <;> cases result <;> simp_all
  unfold giveBackTail
  rw [take_bind last (by decide), hfits.1, hfits.2]
  exact .ok (laysTree_leaf hagrees rest trivial trivial hresult)

/-- A `return` that the rules allow is read; it has to stand in a function. -/
theorem giveBack_gets {opening semicolon : Token} {ts : List Token}
    {result : Option Expr} {expected : Option DeclaredType} (hagrees : d.Agrees Γ)
    (hopen : Γ.modules ≠ []) (head : opening.kind = .returnWord)
    (value : Optionally (ExprWritten .read Γ) ts result)
    (last : semicolon.kind = .semicolon) (function : Γ.result? = some expected)
    (agrees : result.isSome = expected.isSome) :
    Gets (giveBack depth (d.before (opening :: (ts ++ semicolon :: rest))))
      (depth ≤ ts.length) (LaysTree none d rest Γ (.leaf (.giveBack result))) := by
  obtain ⟨f, hf, rfl⟩ : ∃ f, d.openFunction? = some f ∧ f.result = expected := by
    have hresult := hagrees.result?.trans function
    rwa [Option.map_eq_some_iff] at hresult
  rw [giveBack_eq, take_bind head (by decide), get_bind,
    show (d.before (ts ++ semicolon :: rest)).openFunction? = some f from hf]
  dsimp only
  rw [sees_bind]
  cases value with
  | absent =>
    rw [List.nil_append]
    have hsees : Token.firstIs [.semicolon] (d.before (semicolon :: rest)).ahead = true :=
      firstIs_cons (by simp [last]) _
    rw [hsees]
    exact giveBackTail_gets hagrees (by simp) last agrees
  | @present _ e there =>
    have hnot : Token.firstIs [.semicolon] (d.before (ts ++ semicolon :: rest)).ahead =
        false := by
      apply firstIs_eq_false
      show (Token.first (ts ++ semicolon :: rest)).kind ≠ _
      rw [first_append there.ne_nil]
      intro hkind
      have hmem := there.first_mem.1
      rw [hkind] at hmem
      revert hmem
      decide
    rw [hnot]
    refine (expression_gets there hagrees hopen (stops_semicolon last) depth).bind id ?_
    rintro _ _ ⟨rfl, rfl⟩
    exact giveBackTail_gets hagrees (by simpa using hagrees.uses hopen there) last agrees

/-- A declaration behind its initial value is entered if its name is new. -/
theorem declarationTail_gets {name : String} {semicolon : Token} {type : DeclaredType}
    {initial : Option Expr} {deep : Prop} (hagrees : d.Agrees Γ) (hopen : Γ.modules ≠ [])
    (hinitial : ∀ e ∈ initial, e.Uses (fun _ => True) d.tables.Calls)
    (last : semicolon.kind = .semicolon) (fresh : name ∉ Γ.table) :
    Gets (declarationTail type name initial (d.before (semicolon :: rest))) deep
      (LaysTree none d rest (Γ.declare name) (.leaf (.declaration type name initial))) := by
  obtain ⟨d', hdeclare, hagrees', hforest, hahead, hblock, hlast⟩ :=
    (hagrees.before rest).declareVariable hopen fresh ⟨type, initial.map .deferred⟩
  obtain ⟨htables, hnew⟩ := Draft.declareVariable_tables hdeclare
  unfold declarationTail
  rw [take_bind last (by decide), get_bind]
  show Gets (((d.before rest).declareVariable name ⟨type, initial.map .deferred⟩
    >>= fun p => Except.ok (p, d.before rest)) >>= _) _ _
  rw [hdeclare]
  exact .ok (.leaf hforest hblock hlast hahead hagrees'
    (.declaration trivial hinitial hnew (htables ▸ .nothing)))

/-- A declaration that the rules allow is read and entered. -/
theorem declaration_gets {opening ts init : List Token} {name semicolon : Token}
    {type : DeclaredType} {initial : Option Expr} (hagrees : d.Agrees Γ)
    (hopen : Γ.modules ≠ []) (head : Marks opening [.variableWord, .minus])
    (kind : TypeWritten .read ts type) (word : name.kind = .word)
    (value : Optionally (Behind .assign (ExprWritten .read Γ)) init initial)
    (last : semicolon.kind = .semicolon) (fresh : name.text ∉ Γ.table) :
    Gets (declaration depth
        (d.before (opening ++ (ts ++ name :: (init ++ semicolon :: rest)))))
      (depth ≤ init.length)
      (LaysTree none d rest (Γ.declare name.text)
        (.leaf (.declaration type name.text initial))) := by
  obtain ⟨first, opening, rfl, hfirst, hmore⟩ := head.cons
  obtain ⟨minus, opening, rfl, hminus, hnil⟩ := hmore.cons
  cases hnil.nil
  have hends : EndsType (name :: (init ++ semicolon :: rest)) := by
    show name.kind ≠ _
    rw [word]
    decide
  simp only [List.cons_append, List.nil_append]
  rw [declaration_eq, take_bind hfirst (by decide), take_bind hminus (by decide),
    tokens_read (declaredType_complete kind hends), take_bind word (by decide), sees_bind]
  cases value with
  | absent =>
    rw [List.nil_append]
    have hnot : Token.firstIs [.assign] (d.before (semicolon :: rest)).ahead = false :=
      firstIs_cons_of_not (by rw [last]; decide) _
    rw [hnot]
    exact declarationTail_gets hagrees hopen (by simp) last fresh
  | @present _ e there =>
    obtain @⟨assign, us, _, mark, written⟩ := there
    rw [List.cons_append]
    have hsees : Token.firstIs [.assign]
        (d.before (assign :: (us ++ semicolon :: rest))).ahead = true :=
      firstIs_cons (by simp [mark]) _
    rw [hsees, if_pos rfl, take_bind mark (by decide)]
    refine (expression_gets written hagrees hopen (stops_semicolon last) depth).bind
      ?_ ?_
    · rw [List.length_cons]
      omega
    · rintro _ _ ⟨rfl, rfl⟩
      exact declarationTail_gets hagrees hopen
        (by simpa using hagrees.uses hopen written) last fresh

end

/-! ## Bodies

A row is laid out in three ways that differ only in what the first operator is linked to: an
owner that has not been placed, one that has, and an operator before it.  They are proved
together (`BodyGets`), since each goes on as the third. -/

/-- Statements that are laid out along the siblings from a place on. -/
def LaysRow (row : Option Place) (d : Draft) (linked : Option Nat) (rest : List Token)
    (Γ : Context) (trees : List (Tree Operator)) (start : Option Nat) (d' : Draft) : Prop :=
  d.Lays d' linked rest Γ row trees (d'.program.forest.Shows (.row start) trees)

/-- Operators that are laid out each at a place of its own. -/
def LaysEach (d : Draft) (rest : List Token) (Γ : Context)
    (trees : List (Tree Operator)) (places : List Nat) (d' : Draft) : Prop :=
  d.Lays d' none rest Γ none trees (d'.program.forest.Shows (.each places) trees)

/-- Statements that are laid out as a row, the first of which an operator that was placed
before is linked to: it gets a child, or a sibling. -/
def LaysLinked (row : Option Place) (link : Option Nat → Links → Links) (d : Draft) (q : Nat)
    (rest : List Token) (Γ : Context) (trees : List (Tree Operator)) (d' : Draft) : Prop :=
  ∃ node start, d.program.forest.nodes[q]? = some node ∧
    d'.program.forest.nodes[q]? = some { node with links := link start node.links } ∧
    LaysRow row d (some q) rest Γ trees start d'

/-- What a row does on its tokens: in an owner that is loose, in one that was placed, and
behind an operator.  None of them is linked to anything there yet. -/
structure BodyGets (row : Option Place) (deep : Prop)
    (run : ∀ π : Type, (π → Nat → Builder π) → π → Option Nat → Builder π) (d : Draft)
    (ts rest : List Token) (Γ : Context) (trees : List (Tree Operator)) : Prop where
  loose : ∀ owner : Node Operator, owner.links.child = none →
    Gets (run _ nestLoose owner none (d.before (ts ++ rest))) deep fun owner' d' =>
      ∃ start, owner' = { owner with links := { owner.links with child := start } } ∧
        LaysRow row d none rest Γ trees start d'
  below : ∀ k node, d.program.forest.nodes[k]? = some node → node.links.child = none →
    Gets (run _ nestPlaced k none (d.before (ts ++ rest))) deep fun k' d' => k' = k ∧
      LaysLinked row (fun start links => { links with child := start }) d k rest Γ trees d'
  behind : ∀ (π : Type) (nest : π → Nat → Builder π) (owner : π) q node,
    d.program.forest.nodes[q]? = some node → node.links.sibling = none →
    Gets (run _ nest owner (some q) (d.before (ts ++ rest))) deep fun owner' d' =>
      owner' = owner ∧ LaysLinked row (fun start links => { links with sibling := start }) d q
        rest Γ trees d'

/-- The reason for being nested too deeply may be weakened. -/
theorem BodyGets.imp {row : Option Place} {deep deep' : Prop}
    {run : ∀ π : Type, (π → Nat → Builder π) → π → Option Nat → Builder π}
    {ts rest : List Token} {Γ : Context} {trees : List (Tree Operator)}
    (h : BodyGets row deep run d ts rest Γ trees) (hdeep : deep → deep') :
    BodyGets row deep' run d ts rest Γ trees where
  loose owner hnone := (h.loose owner hnone).imp hdeep fun _ _ h => h
  below k node hk hnone := (h.below k node hk hnone).imp hdeep fun _ _ h => h
  behind π nest owner q node hq hnone :=
    (h.behind π nest owner q node hq hnone).imp hdeep fun _ _ h => h

/-- What the rules say of statements, as the builder carries it out. -/
def Laid (part : Part) (Γ : Context) (ts : List Token) (trees : List (Tree Operator))
    (Γ' : Context) : Prop :=
  ∀ (depth : Nat) (d : Draft) (rest : List Token), d.Agrees Γ →
    match part with
    | .statement => ∀ tree, trees = [tree] →
      Gets (statement depth (d.before (ts ++ rest))) (depth ≤ ts.length)
        (LaysTree none d rest Γ' tree)
    | .body => ∀ line closing bound, (∀ kind ∈ closing, kind ∈ closers) →
      (Token.first rest).kind ∈ closing → (ts ++ rest).length < bound.length →
      BodyGets none (depth ≤ ts.length)
        (fun _ nest => bodyRest nest (statement depth) line closing bound) d ts rest Γ' trees
    | .alternatives => ∀ bound, (Token.first rest).kind ∈ [.elseWord, .endWord] →
      (ts ++ rest).length ≤ bound.length →
      Gets (alternatives (statement depth) depth closers bound (d.before (ts ++ rest)))
        (depth ≤ ts.length) (LaysEach d rest Γ' trees)
    | .fallback => (Token.first rest).kind = .endWord →
      (ts = [] ∧ trees = [] ∧ Γ' = Γ) ∨
      ∃ opening body, ts = opening :: body ∧ opening.kind = .elseWord ∧
        Gets (furtherBranch (statement depth) .elseBranch [.endWord]
            (d.before (body ++ rest))) (depth ≤ body.length)
          fun i d' => LaysEach d rest Γ' trees [i] d'

section

variable {Γ Γ₁ Γ' : Context} {ts us : List Token} {trees : List (Tree Operator)}
  {tree : Tree Operator}

/-- A row that is over leaves its owner as it is. -/
theorem BodyGets.done {row : Option Place} {deep : Prop}
    {run : ∀ π : Type, (π → Nat → Builder π) → π → Option Nat → Builder π} {rest : List Token}
    (hagrees : d.Agrees Γ)
    (hover : ∀ π nest owner previous, run π nest owner previous (d.before ([] ++ rest)) =
      .ok (owner, d.before rest)) : BodyGets row deep run d [] rest Γ [] := by
  have hrow : ∀ linked, LaysRow row d linked rest Γ [] none (d.before rest) :=
    fun linked => ⟨rfl, hagrees.before rest, fun _ _ _ => rfl, rfl, rfl, rfl, .nothing, [],
      .nothing, .nil _⟩
  refine ⟨fun owner hnone => ?_, fun k node hk hnone => ?_,
    fun π nest owner q node hq hnone => ?_⟩
  · rw [hover]
    exact .ok ⟨none, by rw [← hnone], hrow none⟩
  · rw [hover]
    exact .ok ⟨rfl, node, none, hk, by rw [← hnone]; exact hk, hrow _⟩
  · rw [hover]
    exact .ok ⟨rfl, node, none, hq, by rw [← hnone]; exact hq, hrow _⟩

/-- A body without statements is laid out. -/
theorem laid_done : Laid .body Γ [] [] Γ := by
  intro depth d rest hagrees line closing bound hclosing hrest hbound
  cases bound with
  | nil => simp at hbound
  | cons b bound =>
    have hsees : Token.firstIs closing (d.before rest).ahead = true := by
      unfold Token.firstIs
      rw [List.contains_iff_mem]
      exact hrest
    refine .done hagrees fun π nest owner previous => ?_
    rw [bodyRest, sees_bind, List.nil_append, hsees]
    rfl

/-- A body in which another statement is due. -/
theorem bodyRest_next {π : Type} {nest : π → Nat → Builder π} {owner : π} {depth : Nat}
    {line : String} {closing : List Token.Kind} {b : Token} {bound : List Token}
    {previous : Option Nat} (hclosing : ¬ Token.firstIs closing d.ahead = true)
    (hend : ¬ Token.atEnd d.ahead = true) :
    bodyRest nest (statement depth) line closing (b :: bound) owner previous d =
      (statement depth >>= fun node => attach nest owner previous node >>= fun attached =>
        bodyRest nest (statement depth) line closing bound attached.1 (some attached.2)) d := by
  rw [bodyRest, sees_bind, if_neg hclosing, get_bind, if_neg hend]

/-- What has to be shown of the rest of a row, whatever it is nested in. -/
def Continues (row : Option Place) (deep : Prop)
    (more : ∀ π : Type, (π → Nat → Builder π) → π → Option Nat → Builder π) (us : List Token)
    (rest : List Token) (Γ₁ Γ' : Context) (trees : List (Tree Operator)) : Prop :=
  ∀ d, d.Agrees Γ₁ → BodyGets row deep more d us rest Γ' trees

section

variable {row : Option Place} {deep : Prop} {rest : List Token} {d₁ : Draft}
  {more : ∀ π : Type, (π → Nat → Builder π) → π → Option Nat → Builder π} {π : Type}

/-- An operator that has been placed, and the rest of the row behind it. -/
theorem Continues.behind (hmore : Continues row deep more us rest Γ₁ Γ' trees)
    (h₁ : LaysTree row d (us ++ rest) Γ₁ tree node d₁) (nest : π → Nat → Builder π)
    (owner : π) (linked : Option Nat) (f : Forest Operator)
    (hlt : ∀ q, linked = some q → q < d.size)
    (hnew : f.nodes[d₁.size]? = some (node.at d₁.size)) (hsize : f.nodes.size = d₁.size + 1)
    (hold : ∀ i < d₁.size, linked ≠ some i → f.nodes[i]? = d₁.program.forest.nodes[i]?)
    (hroots : f.roots = d₁.program.forest.roots) :
    Gets (more π nest owner (some d₁.size) (d₁.withForest f)) deep fun owner' d₃ =>
      owner' = owner ∧ LaysRow row d linked rest Γ' (tree :: trees) (some d₁.size) d₃ ∧
        ∀ i < d₁.size, d₃.program.forest.nodes[i]? = f.nodes[i]? := by
  obtain ⟨used, hholds, -⟩ := h₁.new
  have hbody := (hmore (d₁.withForest f) (h₁.agrees.withForest f)).behind π nest owner
    d₁.size (node.at d₁.size) hnew hholds.sibling
  rw [Draft.before_of_ahead (show (d₁.withForest f).ahead = us ++ rest from h₁.ahead)]
    at hbody
  refine hbody.imp id ?_
  rintro _ d₃ ⟨rfl, node', behind, hnode', hfound, hrow⟩
  cases hnew.symm.trans hnode'
  refine ⟨rfl, h₁.next (d₁.withForest f) hlt hold hsize hroots rfl rfl rfl hrow
    hfound, fun i hi => ?_⟩
  refine hrow.old i ?_ ?_
  · show i < f.nodes.size
    omega
  · simp only [ne_eq, Option.some.injEq]
    omega

/-- The same if an operator that stood there before has been linked to the one placed. -/
theorem Continues.linked (hmore : Continues row deep more us rest Γ₁ Γ' trees)
    (h₁ : LaysTree row d (us ++ rest) Γ₁ tree node d₁) (nest : π → Nat → Builder π)
    (owner : π) {q : Nat} {before : Node Operator}
    (hq : d.program.forest.nodes[q]? = some before) (link : Option Nat → Links → Links) :
    Gets (more π nest owner (some d₁.size) (d₁.withForest
        ((d₁.program.forest.placed node).relink q (link (some d₁.size))))) deep
      fun owner' d₃ => owner' = owner ∧ LaysLinked row link d q rest Γ' (tree :: trees) d₃ := by
  have hlt : q < d.size := (Array.getElem?_eq_some_iff.mp hq).1
  have hlt₁ : q < d₁.size := Nat.lt_of_lt_of_le hlt h₁.size_le
  have hq₁ : (d₁.program.forest.placed node).nodes[q]? = some before :=
    Forest.found_placed ((h₁.old q hlt (by simp)).trans hq)
  refine (hmore.behind h₁ nest owner (some q)
    ((d₁.program.forest.placed node).relink q (link (some d₁.size)))
    (by rintro _ ⟨⟩; exact hlt) ?_ ?_ (fun i hi hne => ?_) rfl).imp id ?_
  · rw [Forest.nodes_relink, if_neg (Nat.ne_of_lt hlt₁)]
    exact Forest.nodes_placed_last
  · rw [Forest.size_relink]
    exact Forest.size_placed
  · rw [Forest.nodes_relink, if_neg fun h => hne (by rw [h]),
      Forest.nodes_placed (Nat.ne_of_lt hi)]
  · rintro _ d₃ ⟨rfl, hrow, hkept⟩
    refine ⟨rfl, before, some d₁.size, hq, (hkept q hlt₁).trans ?_, hrow⟩
    rw [Forest.nodes_relink, if_pos rfl, hq₁]
    rfl

end

/-- A row that starts with an operator: this is placed, and the rest of the row is linked
to it. -/
theorem BodyGets.cons {row : Option Place}
    {run more : ∀ π : Type, (π → Nat → Builder π) → π → Option Nat → Builder π}
    {step : Builder (Node Operator)} {deep deep₁ : Prop} {whole rest : List Token}
    (hrun : ∀ π nest owner previous, run π nest owner previous (d.before (whole ++ rest)) =
      (step >>= fun node => attach nest owner previous node >>= fun attached =>
        more π nest attached.1 (some attached.2)) (d.before (ts ++ (us ++ rest))))
    (hstep : Gets (step (d.before (ts ++ (us ++ rest)))) deep₁
      (LaysTree row d (us ++ rest) Γ₁ tree))
    (hmore : Continues row deep more us rest Γ₁ Γ' trees) (hdeep₁ : deep₁ → deep) :
    BodyGets row deep run d whole rest Γ' (tree :: trees) := by
  refine ⟨fun owner hnone => ?_, fun k parent hk hnone => ?_,
    fun π nest owner q before hq hnone => ?_⟩
  · rw [hrun]
    refine hstep.bind hdeep₁ fun node d₁ h₁ => ?_
    obtain ⟨used, hholds, -⟩ := h₁.new
    rw [attach_loose_bind hholds.loose hnone]
    refine (hmore.behind h₁ nestLoose _ none _ (by simp) Forest.nodes_placed_last
      Forest.size_placed (fun i hi _ => Forest.nodes_placed (Nat.ne_of_lt hi)) rfl).imp id ?_
    rintro _ d₃ ⟨rfl, hrow, -⟩
    exact ⟨_, rfl, hrow⟩
  · rw [hrun]
    refine hstep.bind hdeep₁ fun node d₁ h₁ => ?_
    obtain ⟨used, hholds, -⟩ := h₁.new
    have hlt : k < d.size := (Array.getElem?_eq_some_iff.mp hk).1
    rw [attach_placed_bind hholds.loose ((h₁.old k hlt (by simp)).trans hk) hnone]
    exact hmore.linked h₁ nestPlaced k hk fun start links => { links with child := start }
  · rw [hrun]
    refine hstep.bind hdeep₁ fun node d₁ h₁ => ?_
    obtain ⟨used, hholds, -⟩ := h₁.new
    have hlt : q < d.size := (Array.getElem?_eq_some_iff.mp hq).1
    rw [attach_next_bind nest owner hholds.loose ((h₁.old q hlt (by simp)).trans hq) hnone]
    exact hmore.linked h₁ nest owner hq fun start links => { links with sibling := start }

/-- A statement in front of a body that is laid out. -/
theorem laid_next (hstart : ∃ t vs, ts = t :: vs ∧ t.kind ∈ statementWords)
    (first : Laid .statement Γ ts [tree] Γ₁) (more : Laid .body Γ₁ us trees Γ') :
    Laid .body Γ (ts ++ us) (tree :: trees) Γ' := by
  intro depth d rest hagrees line closing bound hclosing hrest hbound
  obtain ⟨t, vs, hts, ht⟩ := hstart
  cases bound with
  | nil => simp at hbound
  | cons b bound =>
    -- a statement starts neither with a closing word nor with the end of input
    have hfirst : Token.first (ts ++ us ++ rest) = t := by
      rw [hts]
      rfl
    have hnot : Token.firstIs closing (d.before (ts ++ us ++ rest)).ahead = false := by
      have hdisjoint : ∀ kind ∈ statementWords, kind ∉ closers := by decide
      apply firstIs_of_not_mem
      show (Token.first (ts ++ us ++ rest)).kind ∉ closing
      rw [hfirst]
      exact fun hmem => hdisjoint _ ht (hclosing _ hmem)
    have hahead : Token.atEnd (d.before (ts ++ us ++ rest)).ahead = false := by
      unfold Token.atEnd
      show decide ((Token.first (ts ++ us ++ rest)).kind = _) = false
      rw [hfirst]
      refine decide_eq_false fun heq => ?_
      rw [heq] at ht
      revert ht
      decide
    have hlength : (us ++ rest).length < bound.length := by
      simp only [List.length_append, List.length_cons, hts] at hbound ⊢
      omega
    refine BodyGets.cons (fun π nest owner previous => ?_)
      (first depth d (us ++ rest) hagrees tree rfl)
      (fun d hagrees => (more depth d rest hagrees line closing bound hclosing hrest
        hlength).imp ?_) ?_
    · rw [bodyRest_next (by rw [hnot]; decide) (by rw [hahead]; decide), List.append_assoc]
    · rw [List.length_append]
      omega
    · rw [List.length_append]
      omega

/-- The whole body of an operator, in which nothing is nested before. -/
theorem Laid.body (h : Laid .body Γ ts trees Γ') {depth : Nat} {rest : List Token}
    {closing : List Token.Kind} (hagrees : d.Agrees Γ)
    (hclosing : ∀ kind ∈ closing, kind ∈ closers)
    (hrest : (Token.first rest).kind ∈ closing) (operator : Operator) :
    Gets (body nestLoose (statement depth) operator closing { operator }
        (d.before (ts ++ rest)))
      (depth ≤ ts.length) fun node d' =>
        ∃ start, node = { operator, links := { child := start } } ∧
          LaysRow none d none rest Γ' trees start d' := by
  unfold Builder.body
  rw [get_bind]
  exact (h depth d rest hagrees _ closing _ hclosing hrest (Nat.lt_succ_self _)).loose
    { operator } rfl

/-! ## Loops and conditionals

The parts are laid out each at a place of its own, and the statement that is placed last links
to all of them. -/

/-- A further branch of a conditional, with its body. -/
theorem furtherBranch_gets (h : Laid .body Γ ts trees Γ') {depth : Nat}
    {rest : List Token} {closing : List Token.Kind} (hagrees : d.Agrees Γ)
    (hclosing : ∀ kind ∈ closing, kind ∈ closers)
    (hrest : (Token.first rest).kind ∈ closing) (operator : Operator)
    (plain : operator.Plain) (uses : operator.Uses (fun _ => True) d.tables.Calls) :
    Gets (furtherBranch (statement depth) operator closing (d.before (ts ++ rest)))
      (depth ≤ ts.length)
      fun i d' => LaysEach d rest Γ' [.node operator trees [] none] [i] d' := by
  unfold furtherBranch
  rw [place_bind rfl]
  have hagrees₁ : (d.withForest (d.program.forest.placed { operator })).Agrees Γ :=
    hagrees.withForest _
  unfold Builder.body
  rw [get_bind]
  refine ((h depth _ rest hagrees₁ _ closing _ hclosing hrest (Nat.lt_succ_self _)).below
    d.size _ Forest.nodes_placed_last rfl).imp id ?_
  rintro _ d₂ ⟨rfl, node, start, hnode, hfound, h₂⟩
  cases Forest.nodes_placed_last.symm.trans hnode
  have hsize : (d.withForest (d.program.forest.placed { operator })).size = d.size + 1 :=
    Forest.size_placed
  obtain ⟨used, hshows, hcovers⟩ := h₂.new
  rw [hsize] at hcovers
  -- the branch comes before what is nested in it
  have hbranch : d₂.program.forest.Shows (.each [d.size]) [.node operator trees [] none] _ :=
    .alone (.operator hfound rfl hshows .none .none .nothing) .none
  refine ⟨h₂.ahead, h₂.agrees, fun i hi _ => ?_, h₂.roots, h₂.block, h₂.last,
    .around trivial plain uses h₂.tables, _, hbranch, ?_⟩
  · refine (h₂.old i (by omega) ?_).trans (Forest.nodes_placed (Nat.ne_of_lt hi))
    simp only [ne_eq, Option.some.injEq]
    omega
  · simpa using (Covers.single d.size).append hcovers

/-- No further branches are laid out. -/
theorem laid_noAlternative : Laid .alternatives Γ [] [] Γ := by
  intro depth d rest hagrees bound hrest hbound
  have hlays : LaysEach d rest Γ [] [] (d.before rest) :=
    .unchanged rfl rfl rfl rfl (hagrees.before rest) .nothing .none
  cases bound with
  | nil => exact .ok hlays
  | cons b bound =>
    have hnot : Token.firstIs [.elseIfWord] (d.before rest).ahead = false := by
      apply firstIs_eq_false
      intro hkind
      rw [show (d.before rest).ahead = rest from rfl] at hkind
      rw [hkind] at hrest
      revert hrest
      decide
    rw [alternatives, sees_bind, List.nil_append, hnot]
    exact .ok hlays

/-- A condition ends at the word behind it. -/
theorem stops_then {t : Token} {rest : List Token} (h : t.kind = .thenWord) :
    Stops .disjunction (t :: rest) := by
  show t.kind ∉ _
  rw [h]
  decide

/-- A further branch in front of others that are laid out. -/
theorem laid_alternative {opening guard : Token} {e : Expr} {body : List Token}
    {nested : List (Tree Operator)} (hopen : Γ.modules ≠ [])
    (head : opening.kind = .elseIfWord) (condition : ExprWritten .read Γ ts e)
    (mark : guard.kind = .thenWord) (inside : Laid .body Γ body nested Γ₁)
    (hfollows : ∀ rest, (Token.first rest).kind ∈ [Token.Kind.elseWord, .endWord] →
      (Token.first (us ++ rest)).kind ∈ closers)
    (more : Laid .alternatives Γ₁ us trees Γ') :
    Laid .alternatives Γ (opening :: ts ++ guard :: body ++ us)
      (.node (.elseIf e) nested [] none :: trees) Γ' := by
  intro depth d rest hagrees bound hrest hbound
  simp only [List.cons_append, List.append_assoc] at hbound ⊢
  cases bound with
  | nil => simp at hbound
  | cons b bound =>
    have hsees : Token.firstIs [.elseIfWord]
        (d.before (opening :: (ts ++ guard :: (body ++ (us ++ rest))))).ahead = true :=
      firstIs_cons (by simp [head]) _
    rw [alternatives, sees_bind, hsees, if_pos rfl, take_bind head (by decide)]
    simp only [List.length_cons, List.length_append] at hbound ⊢
    refine (expression_gets condition hagrees hopen (stops_then mark) depth).bind
      (by omega) ?_
    rintro _ _ ⟨rfl, rfl⟩
    rw [take_bind mark (by decide)]
    refine (furtherBranch_gets inside hagrees (fun _ h => h) (hfollows rest hrest)
      (.elseIf _) trivial (hagrees.uses hopen condition)).bind (by omega) fun i d₁ h₁ => ?_
    have hmore := more depth d₁ rest h₁.agrees bound hrest (by
      rw [List.length_append]
      omega)
    rw [Draft.before_of_ahead h₁.ahead] at hmore
    refine hmore.bind (by omega) fun places d₂ h₂ => ?_
    exact .ok (h₁.trans h₂ fun used used' hshows hshows' hsame =>
      (hshows.frame hsame).each_append hshows')

/-- The last branch is laid out if its body is. -/
theorem laid_fallback {opening : Token} (head : opening.kind = .elseWord)
    (inside : Laid .body Γ ts trees Γ') :
    Laid .fallback Γ (opening :: ts) [.node .elseBranch trees [] none] Γ' := by
  intro depth d rest hagrees hrest
  refine .inr ⟨opening, ts, rfl, head, ?_⟩
  exact furtherBranch_gets inside hagrees (by decide) (by simp [hrest]) _ trivial trivial

/-- The end of a loop or a conditional is read. -/
theorem closingWord_read {f : Unit → Builder β} {closing rest : List Token}
    {kind : Token.Kind} (h : Marks closing [.endWord, kind, .dot])
    (hkind : kind ≠ .endOfInput) :
    (closingWord kind >>= f) (d.before (closing ++ rest)) = f () (d.before rest) := by
  obtain ⟨first, closing, rfl, hfirst, h⟩ := h.cons
  obtain ⟨second, closing, rfl, hsecond, h⟩ := h.cons
  obtain ⟨dot, closing, rfl, hdot, h⟩ := h.cons
  cases h.nil
  unfold closingWord
  simp only [bind_assoc, List.cons_append, List.nil_append]
  rw [take_bind hfirst (by decide), take_bind hsecond hkind, take_bind hdot (by decide),
    pure_bind]

/-- A loop that the rules allow is read, and its body with it. -/
theorem loop_gets {opening guard : Token} {e : Expr} {body closing rest : List Token}
    {depth : Nat} (hagrees : d.Agrees Γ) (hopen : Γ.modules ≠ [])
    (head : opening.kind = .whileWord) (condition : ExprWritten .read Γ ts e)
    (mark : guard.kind = .thenWord) (inside : Laid .body Γ body trees Γ')
    (last : Marks closing [.endWord, .whileWord, .dot]) :
    Gets (loop (statement depth) depth
        (d.before (opening :: (ts ++ guard :: (body ++ (closing ++ rest))))))
      (depth ≤ ts.length + body.length)
      (LaysTree none d rest Γ' (.node (.loop e) trees [] none)) := by
  have hend : (Token.first (closing ++ rest)).kind ∈ [Token.Kind.endWord] := by
    obtain ⟨first, closing, rfl, hfirst, -⟩ := last.cons
    exact List.mem_singleton.mpr hfirst
  unfold loop
  rw [take_bind head (by decide)]
  refine (expression_gets condition hagrees hopen (stops_then mark) depth).bind
    (by omega) ?_
  rintro _ _ ⟨rfl, rfl⟩
  rw [take_bind mark (by decide)]
  refine (inside.body hagrees (by decide) hend _).bind (by omega) ?_
  rintro _ d₁ ⟨start, rfl, h₁⟩
  rw [← Draft.before_of_ahead h₁.ahead, closingWord_read last (by decide)]
  refine .ok ((h₁.reading rest).imp (.around trivial trivial (hagrees.uses hopen condition))
    fun used hshows => ?_)
  exact ⟨rfl, rfl, trees, [], none, used, [], [], rfl, hshows, .none, .none, by simp⟩

/-- A body, further branches and a fallback that are laid out one behind another are
the parts of a conditional. -/
theorem LaysRow.branch {e : Expr} {alternatives : List (Tree Operator)}
    {fallback : Option (Tree Operator)} {Γ₂ : Context} {rest rest₁ rest₂ : List Token}
    {d₁ d₂ d₃ : Draft} {start place : Option Nat} {places : List Nat}
    (uses : (Operator.branch e).Uses (fun _ => True) d.tables.Calls)
    (h₁ : LaysRow none d none rest₁ Γ₁ trees start d₁)
    (h₂ : LaysEach d₁ rest₂ Γ₂ alternatives places d₂)
    (h₃ : LaysEach d₂ rest Γ' fallback.toList place.toList d₃) :
    LaysTree none d rest Γ' (.node (.branch e) trees alternatives fallback)
      { operator := .branch e,
        links := { child := start, alternatives := places, fallback := place } } d₃ := by
  have hfurther : d.Lays d₂ none rest₂ Γ₂ none (trees ++ alternatives) fun used =>
      ∃ body others, used = body ++ others ∧
        d₂.program.forest.Shows (.row start) trees body ∧
        d₂.program.forest.Shows (.each places) alternatives others :=
    h₁.trans h₂ fun body others hbody hothers hsame =>
      ⟨body, others, rfl, hbody.frame hsame, hothers⟩
  refine (hfurther.trans h₃ ?_).imp
    (fun htables => .plain trivial trivial uses htables .nothing) fun _ hholds => hholds
  rintro _ final ⟨body, others, rfl, hbody, hothers⟩ hfinal hsame
  refine ⟨rfl, rfl, trees, alternatives, fallback, body, others, final, rfl, hbody.frame ?_,
    hothers.frame ?_, hfinal, rfl⟩
  · exact fun i hi => hsame i (List.mem_append_left _ hi)
  · exact fun i hi => hsame i (List.mem_append_right _ hi)

/-- A conditional behind its branches is closed, and has them all. -/
theorem branchTail_gets {d' : Draft} {e : Expr} {closing rest : List Token}
    {start place : Option Nat} {places : List Nat} {deep : Prop}
    (last : Marks closing [.endWord, .ifWord, .dot])
    (h : LaysTree none d (closing ++ rest) Γ' tree
      { operator := .branch e,
        links := { child := start, alternatives := places, fallback := place } } d') :
    Gets (branchTail { operator := .branch e, links := { child := start } } places place d')
      deep (LaysTree none d rest Γ' tree) := by
  unfold branchTail
  rw [← Draft.before_of_ahead h.ahead, closingWord_read last (by decide)]
  exact .ok (h.reading rest)

/-- A conditional that the rules allow is read: guard, body, further branches, fallback. -/
theorem branch_gets {opening guard : Token} {e : Expr}
    {body others final closing rest : List Token} {alternatives : List (Tree Operator)}
    {fallback : Option (Tree Operator)} {Γ₂ : Context} {depth : Nat}
    (hagrees : d.Agrees Γ) (hopen : Γ.modules ≠ []) (head : opening.kind = .ifWord)
    (condition : ExprWritten .read Γ ts e) (mark : guard.kind = .thenWord)
    (inside : Laid .body Γ body trees Γ₁)
    (hfollows : ∀ rest, (Token.first rest).kind ∈ [Token.Kind.elseWord, .endWord] →
      (Token.first (others ++ rest)).kind ∈ closers)
    (further : Laid .alternatives Γ₁ others alternatives Γ₂)
    (hfinal : ∀ rest, (Token.first rest).kind = .endWord →
      (Token.first (final ++ rest)).kind ∈ [Token.Kind.elseWord, .endWord])
    (otherwise : Laid .fallback Γ₂ final fallback.toList Γ')
    (last : Marks closing [.endWord, .ifWord, .dot]) :
    Gets (branch (statement depth) depth (d.before
        (opening :: (ts ++ guard :: (body ++ (others ++ (final ++ (closing ++ rest))))))))
      (depth ≤ ts.length + body.length + others.length + final.length)
      (LaysTree none d rest Γ' (.node (.branch e) trees alternatives fallback)) := by
  have hend : (Token.first (closing ++ rest)).kind = .endWord := by
    obtain ⟨first, closing, rfl, hfirst, -⟩ := last.cons
    exact hfirst
  have hbehind := hfinal (closing ++ rest) hend
  rw [branch_eq, take_bind head (by decide)]
  refine (expression_gets condition hagrees hopen (stops_then mark) depth).bind
    (by omega) ?_
  rintro e _ ⟨rfl, rfl⟩
  rw [take_bind mark (by decide)]
  refine (inside.body hagrees (fun _ h => h) (hfollows _ hbehind) _).bind (by omega) ?_
  rintro _ d₁ ⟨start, rfl, h₁⟩
  rw [get_bind, ← Draft.before_of_ahead h₁.ahead]
  refine (further depth d₁ _ h₁.agrees _ hbehind (Nat.le_refl _)).bind (by omega)
    fun places d₂ h₂ => ?_
  rw [sees_bind, h₂.ahead]
  have uses := hagrees.uses hopen condition
  obtain ⟨hnil, hnone, hsame⟩ | ⟨word, us, hus, hword, hgets⟩ :=
    otherwise depth d₂ (closing ++ rest) h₂.agrees hend
  · subst hnil hsame
    have hnot : Token.firstIs [.elseWord] ([] ++ (closing ++ rest)) = false := by
      apply firstIs_eq_false
      rw [List.nil_append, hend]
      decide
    have hnothing : LaysEach d₂ (closing ++ rest) Γ' fallback.toList none.toList d₂ := by
      rw [hnone]
      exact .unchanged rfl rfl rfl h₂.ahead h₂.agrees .nothing .none
    rw [hnot, if_neg (by decide)]
    exact branchTail_gets last (h₁.branch uses h₂ hnothing)
  · subst hus
    rw [List.cons_append]
    have hsees : Token.firstIs [.elseWord] (word :: (us ++ (closing ++ rest))) = true :=
      firstIs_cons (by simp [hword]) _
    rw [hsees, if_pos rfl, ← Draft.before_of_ahead h₂.ahead, List.cons_append,
      take_bind hword (by decide)]
    refine hgets.bind ?_ fun place d₃ h₃ => ?_
    · rw [List.length_cons]
      omega
    · have hlast : LaysEach d₂ (closing ++ rest) Γ' fallback.toList (some place).toList d₃ :=
        h₃
      exact branchTail_gets last (h₁.branch uses h₂ hlast)

/-! ## Statements

The induction is on the rules, and every case says how the builder is called on such tokens. -/

/-- The statement that starts with a token of a kind. -/
def statementFor (depth : Nat) (t : Token) : Token.Kind → Builder (Node Operator)
  | .whileWord => loop (statement depth) depth
  | .ifWord => branch (statement depth) depth
  | .variableWord => declaration depth
  | .letWord => assignment depth
  | .inputWord => input
  | .outputWord => output depth
  | .callWord => call depth
  | .returnWord => giveBack depth
  | _ => refuse (.statementExpected t)

/-- A statement is told by the token ahead, one level further down. -/
theorem statement_eq (depth : Nat) : statement (depth + 1) d =
    statementFor depth (Token.first d.ahead) (Token.first d.ahead).kind d := rfl

/-- The same, where the token ahead is known. -/
theorem statement_succ {depth : Nat} {kind : Token.Kind} {t : Token} {ts : List Token}
    (h : t.kind = kind) : statement (depth + 1) (d.before (t :: ts)) =
      statementFor depth t kind (d.before (t :: ts)) := by
  subst h
  rfl

/-- A statement is laid out if it is read at every depth that is not too small. -/
theorem laid_statement
    (h : ∀ (depth : Nat) (d : Draft) (rest : List Token), d.Agrees Γ →
      Gets (statement (depth + 1) (d.before (ts ++ rest))) (depth < ts.length)
        (LaysTree none d rest Γ' tree)) : Laid .statement Γ ts [tree] Γ' := by
  intro depth d rest hagrees tree' htree
  cases htree
  cases depth with
  | zero => exact .inr ⟨rfl, Nat.zero_le _⟩
  | succ depth => exact h depth d rest hagrees

end

end Builder

namespace Source

open Builder

variable {Γ Γ' : Context} {ts : List Token} {trees : List (Tree Operator)}

/-- Behind a body there are the branches that follow, or the end. -/
theorem Written.follows_alternatives {part : Part} {N : Numbering}
    (h : Written N part Γ ts trees Γ') (hpart : part = .alternatives) (rest : List Token)
    (hrest : (Token.first rest).kind ∈ [Token.Kind.elseWord, .endWord]) :
    (Token.first (ts ++ rest)).kind ∈ closers := by
  cases h with
  | noAlternative => exact List.mem_cons_of_mem _ hrest
  | @alternative _ opening _ _ _ _ _ _ _ _ _ head =>
    show opening.kind ∈ _
    rw [head]
    decide
  | _ => cases hpart

/-- Behind the further branches there is the fallback, or the end. -/
theorem Written.follows_fallback {part : Part} {N : Numbering}
    (h : Written N part Γ ts trees Γ') (hpart : part = .fallback) (rest : List Token)
    (hrest : (Token.first rest).kind = .endWord) :
    (Token.first (ts ++ rest)).kind ∈ [Token.Kind.elseWord, .endWord] := by
  cases h with
  | noFallback =>
    rw [List.nil_append, hrest]
    decide
  | @fallback _ opening _ _ _ head =>
    show opening.kind ∈ _
    rw [head]
    decide
  | _ => cases hpart

/-- Statements that the rules allow are laid out. -/
theorem Written.laid {part : Part} (h : Written .read part Γ ts trees Γ')
    (hopen : Γ.modules ≠ []) : Laid part Γ ts trees Γ' := by
  induction h with
  | declaration head kind word value last fresh =>
    obtain ⟨first, opening, rfl, hfirst, hmore⟩ := head.cons
    refine laid_statement fun depth d rest hagrees => ?_
    simp only [List.cons_append, List.append_assoc, List.nil_append]
    rw [statement_succ hfirst]
    refine (declaration_gets hagrees hopen head kind word value last fresh).imp ?_
      fun _ _ h => h
    simp only [List.length_cons, List.length_append]
    omega
  | assignment head word found slot mark written last =>
    refine laid_statement fun depth d rest hagrees => ?_
    simp only [List.cons_append, List.append_assoc, List.nil_append]
    rw [statement_succ head]
    refine (assignment_gets hagrees hopen head word found slot mark written last).imp ?_
      fun _ _ h => h
    simp only [List.length_cons, List.length_append]
    omega
  | input head word found last =>
    refine laid_statement fun depth d rest hagrees => ?_
    simp only [List.cons_append, List.nil_append]
    rw [statement_succ head]
    exact (input_gets hagrees hopen head word found last).imp False.elim fun _ _ h => h
  | output head written last =>
    refine laid_statement fun depth d rest hagrees => ?_
    simp only [List.cons_append, List.append_assoc, List.nil_append]
    rw [statement_succ head]
    refine (output_gets hagrees hopen head written last).imp ?_ fun _ _ h => h
    simp only [List.length_cons, List.length_append]
    omega
  | call head operand last =>
    refine laid_statement fun depth d rest hagrees => ?_
    simp only [List.cons_append, List.append_assoc, List.nil_append]
    rw [statement_succ head]
    refine (call_gets hagrees hopen head operand last).imp ?_ fun _ _ h => h
    simp only [List.length_cons, List.length_append]
    omega
  | giveBack head value last function agrees =>
    refine laid_statement fun depth d rest hagrees => ?_
    simp only [List.cons_append, List.append_assoc, List.nil_append]
    rw [statement_succ head]
    refine (giveBack_gets hagrees hopen head value last function agrees).imp ?_
      fun _ _ h => h
    simp only [List.length_cons, List.length_append]
    omega
  | loop head condition mark inside last ih =>
    refine laid_statement fun depth d rest hagrees => ?_
    simp only [List.cons_append, List.append_assoc]
    rw [statement_succ head]
    refine (loop_gets hagrees hopen head condition mark (ih hopen) last).imp ?_
      fun _ _ h => h
    simp only [List.length_cons, List.length_append]
    omega
  | branch head condition mark inside further otherwise last ih₁ ih₂ ih₃ =>
    have hfurther := ih₂ (by rwa [inside.modules])
    have hotherwise := ih₃ (by rwa [further.modules, inside.modules])
    refine laid_statement fun depth d rest hagrees => ?_
    simp only [List.cons_append, List.append_assoc]
    rw [statement_succ head]
    refine (branch_gets hagrees hopen head condition mark (ih₁ hopen)
      (further.follows_alternatives rfl) hfurther (otherwise.follows_fallback rfl)
      hotherwise last).imp ?_ fun _ _ h => h
    simp only [List.length_cons, List.length_append]
    omega
  | done => exact laid_done
  | next first rest ih₁ ih₂ =>
    exact laid_next (first.starts rfl) (ih₁ hopen) (ih₂ (by rwa [first.modules]))
  | noAlternative => exact laid_noAlternative
  | alternative head condition mark inside rest ih₁ ih₂ =>
    exact laid_alternative hopen head condition mark (ih₁ hopen)
      (rest.follows_alternatives rfl) (ih₂ (by rwa [inside.modules]))
  | noFallback => exact fun _ _ _ _ _ => .inl ⟨rfl, rfl, rfl⟩
  | fallback head inside ih => exact laid_fallback head (ih hopen)

end Source

end Pseudocode
