import Pseudocode.Proofs.Layout.Functions

/-!
# Every built program has a chart

At the top level an operator is linked to the one before it, or it is the first in
the open block.  `Draft.Hook` says which of the two is next, and that what it will
be linked to is part of the module's code; with this every operator that is read
keeps the chart in agreement with the program (`hang_read`), and so does reading
all of them (`ofTokens_layout`).

The chart is made along with the program: each operator of code gets its label when it is
placed, and functions, methods and headers get none.  Whether the code of a label is really
the code that the operator is part of is a second statement (`Anchored`), carried along with
the first: what is linked to an operator of some code is in that code, from the function's
body or the module's first operator on.
-/

namespace Pseudocode

/-! ## Reading an operator of the top level

Functions and classes bring the code of functions with them, statements only their own parts.
Either way the operator that was read is the one node that nothing refers to yet. -/

/-- An operator of the top level that was read and placed, but not yet linked to.
All that was placed on the way is reached from it or part of a function. -/
structure ItemPlaced (d d' : Draft) (c c' : Chart) (label : Label)
    (node : Node Operator) (index : Nat) : Prop where
  ready : d'.Ready c' (label.after node.operator)
  grows : d.program.Grows d'.program
  chart : c.Grows c'
  old : ∀ i < d.program.forest.nodes.size,
    d'.program.forest.nodes[i]? = d.program.forest.nodes[i]?
  roots : d'.program.forest.roots = d.program.forest.roots
  block : d'.block = d.block
  last : d'.last = d.last
  loose : node.index = none
  later : d.program.forest.nodes.size ≤ index
  found : d'.program.forest.nodes[index]? = some (node.at index)
  marks : c'.Marks index label
  opening : node.operator = .beginning → node.links.child = none
  covers : ∀ i l, c'.Marks i l → d.program.forest.nodes.size ≤ i →
    d'.program.Within l.code l.nested i ∨
      l.code = label.code ∧ d'.program.forest.Inside index l.nested i

namespace ItemPlaced

variable {d d' : Draft} {c c' : Chart} {label : Label} {node : Node Operator}
  {index : Nat}

/-- A statement that was placed is an operator of the top level. -/
theorem of_statement (h : StatementPlaced d d' c c' label node index)
    (hnested : label.nested = false) : ItemPlaced d d' c c' label node index where
  ready := h.ready
  grows := h.advances.grows
  chart := h.advances.chart
  old := h.advances.old
  roots := h.advances.roots
  block := h.advances.block
  last := h.advances.last
  loose := h.loose
  later := h.later
  found := h.found
  marks := h.marks
  opening hop := absurd hop h.ordinary
  covers i l hl hle := by
    obtain ⟨hcode, nested, hinside, heq⟩ := h.covers i l hl hle
    rw [hnested, Bool.false_or] at heq
    exact .inr ⟨hcode, heq ▸ hinside⟩

/-- An operator that stands for nothing to be executed at its place. -/
theorem of_functions (h : FunctionsRead d d' c c' label)
    (hnested : label.nested = false) {op : Operator} {child : Option Nat}
    (hafter : label.after op = label)
    (huses : op.Uses (c'.Resolves d'.program label) (c'.Calls label))
    (hdeclaration : ∀ t name initial, op ≠ .declaration t name initial)
    (hmodule : ∀ name number, op ≠ .module name number) (hallowed : op.Allowed label)
    (hconditional : op.isConditional = false) (hopening : op = .beginning → child = none) :
    ItemPlaced d (d'.withForest (d'.program.forest.placed ⟨op, { child }, none⟩)) c
      (c'.labelled (some label)) label ⟨op, { child }, none⟩
      d'.program.forest.nodes.size := by
  have hfits : c'.Fits d'.program label ⟨op, { child }, none⟩ := by
    refine ⟨huses, fun t name initial hop => absurd hop (hdeclaration t name initial),
      hmodule, hallowed, ?_, ?_, ?_, ?_, ?_⟩
    · exact fun _ h => nomatch h
    · intro j hj hop
      rw [hopening hop] at hj
      cases hj
    · intro j _ hop
      rw [hconditional] at hop
      cases hop
    · rintro j (hj | hj)
      · exact nomatch hj
      · exact nomatch hj
    · exact fun _ h => nomatch h
  have hlayout : Layout
      (d'.withForest (d'.program.forest.placed ⟨op, { child }, none⟩)).program
      (c'.labelled (some label)) := h.ready.layout.place (by rintro _ ⟨⟩; exact hfits) nofun
  have hadvances := Draft.Advances.placed hlayout
  refine ⟨?_, h.grows.trans hadvances.grows, h.chart.trans hadvances.chart, ?_,
    h.roots, h.block, h.last, rfl, h.grows.forest.size, Forest.nodes_placed_last,
    h.ready.layout.marks_labelled label, hopening, ?_⟩
  · rw [hafter]
    exact hadvances.ready h.ready rfl (fun _ hmem => hmem) h.ready.seen fun name hname =>
      (h.ready.table name hname).imp_right (·.grow hadvances.chart hadvances.grows)
  · intro i hi
    exact (hadvances.old i (Nat.lt_of_lt_of_le hi h.grows.forest.size)).trans (h.old i hi)
  · intro i l hl hle
    obtain ⟨rfl, hnew⟩ | ⟨-, hl'⟩ := h.ready.layout.of_marks_labelled hl
    · cases hnew
      -- the operator itself
      exact .inr ⟨rfl, hnested ▸ .here⟩
    · exact .inl ((h.covers i l hl' hle).grow hadvances.grows)

end ItemPlaced

namespace Builder

variable {d : Draft} {c : Chart} {label : Label}

/-- An operator of the top level, a module's header apart. -/
theorem item_read {r : Node Operator × Draft} (hready : d.Ready c label)
    (houtside : label.code.function = none) (hnested : label.nested = false)
    (hkind : (Token.first d.ahead).kind ≠ .moduleWord) (h : item d = .ok r) :
    ∃ c', ItemPlaced d (r.2.withForest (r.2.program.forest.placed r.1)) c c' label r.1
      r.2.program.forest.nodes.size := by
  have hstatement := statement_read nestingLimit
  unfold item at h
  obtain ⟨d₁, d₂, hget, h⟩ := bind_ok.mp h
  cases get_ok.mp hget
  rw [ite_apply, if_neg hkind] at h
  have hopen : d.openModule? = d.program.modules[label.code.module]? := by
    simp [Draft.openModule?, hready.module]
  rw [hready.module, hopen] at h
  cases hm : d.program.modules[label.code.module]? with
  | none =>
    -- a draft that stands in a module has that module
    rw [hm] at h
    exact (throw_ok.mp h).elim
  | some m =>
    rw [hm] at h
    have hother : statement nestingLimit d = .ok r → ∃ c', ItemPlaced d
        (r.2.withForest (r.2.program.forest.placed r.1)) c c' label r.1
        r.2.program.forest.nodes.size := by
      intro h
      obtain ⟨c', hread⟩ := hstatement d c label hready r h
      exact ⟨_, .of_statement (hread.placed hready) hnested⟩
    -- kept closed, so that the cases do not unfold it
    generalize statement nestingLimit = reading at h hother
    cases hfirst : (Token.first d.ahead).kind with
    | beginWord =>
      rw [hfirst] at h
      obtain ⟨_, ahead, -, h⟩ := tokens_bind h
      cases pure_ok.mp h
      have hread := (FunctionsRead.refl hready).reading ahead
      -- what lies behind `begin` is linked to it later
      exact ⟨_, .of_functions hread hnested rfl trivial (by simp) (by simp) trivial rfl
        fun _ => rfl⟩
    | functionWord =>
      rw [hfirst] at h
      obtain ⟨_, ahead, -, h⟩ := tokens_bind h
      obtain ⟨⟨c', hread⟩, name, n, child, hnode | hnode⟩ :=
        function_read (hready.ahead ahead) houtside ⟨m, hm, rfl⟩ h
      · rw [hnode]
        exact ⟨_, .of_functions hread.since hnested rfl trivial (by simp) (by simp) trivial rfl
          (by simp)⟩
      · rw [hnode]
        exact ⟨_, .of_functions hread.since hnested rfl trivial (by simp) (by simp) trivial rfl
          (by simp)⟩
    | classWord =>
      rw [hfirst] at h
      obtain ⟨⟨c', hread⟩, name, n, child, hnode⟩ :=
        classDeclaration_read hready houtside hm h
      rw [hnode]
      exact ⟨_, .of_functions hread hnested rfl trivial (by simp) (by simp) trivial rfl
        (by simp)⟩
    | _ =>
      rw [hfirst] at h
      exact hother h

end Builder

/-! ## Linking an operator of the top level

The operator goes below the module or the `begin` that is open, if that has none yet, and
behind the last operator otherwise (`Draft.Hook`). -/

/-- What the next operator of the top level will be linked to, if its label is the
one given: a module or a `begin` without operators, or an operator. -/
inductive Draft.Hook (d : Draft) (c : Chart) (label : Label) : Prop where
  | module {root node name} (block : d.block = some root) (last : d.last = some root)
      (isRoot : root ∈ d.program.forest.roots)
      (found : d.program.forest.nodes[root]? = some node)
      (mark : node.operator = .module name label.code.module)
      (empty : node.links.child = none) (fresh : label.seen = [])
  | main {start node} (block : d.block = some start) (last : d.last = some start)
      (found : d.program.forest.nodes[start]? = some node)
      (mark : node.operator = .beginning) (empty : node.links.child = none)
      (marks : c.Marks start label) (within : d.program.Within label.code false start)
  | behind {start opening previous node before} (block : d.block = some start)
      (opened : d.program.forest.nodes[start]? = some opening)
      (filled : opening.links.child.isNone = false) (last : d.last = some previous)
      (found : d.program.forest.nodes[previous]? = some node)
      (ordinary : node.operator ≠ .beginning) (marks : c.Marks previous before)
      (label_eq : label = before.after node.operator)
      (within : d.program.Within label.code false previous)

/-- A draft in which the top level of a module goes on. -/
structure Draft.Standing (d : Draft) (c : Chart) (label : Label) : Prop where
  ready : d.Ready c label
  outside : label.code.function = none
  nested : label.nested = false
  anchored : Anchored d.program c
  hook : d.Hook c label

/-- What is nested in a part of some code is part of it. -/
theorem Program.Within.trans {p : Program} {code : Code} {nested nested' : Bool}
    {i j : Nat} (h : p.Within code nested i) (hinside : p.forest.Inside i nested' j) :
    p.Within code (nested || nested') j := by
  unfold Program.Within at h ⊢
  cases hfunction : code.function with
  | some n =>
    simp only [hfunction] at h ⊢
    obtain ⟨f, start, hf, hbody, hreached⟩ := h
    exact ⟨f, start, hf, hbody, hreached.trans hinside⟩
  | none =>
    simp only [hfunction] at h ⊢
    obtain ⟨root, node, name, start, hroot, hnode, hop, hchild, hreached⟩ := h
    exact ⟨root, node, name, start, hroot, hnode, hop, hchild, hreached.trans hinside⟩

/-- The draft after an operator of the top level has been linked to. -/
def Draft.hung (d : Draft) (f : Forest Operator) (node : Node Operator)
    (block index : Nat) : Draft :=
  { d.withForest f with
    block := match node.operator with
      | .beginning => some index
      | _ => some block
    last := some index }

/-- An operator that was linked to is what the next one is linked to. -/
theorem ItemPlaced.standing {d d' : Draft} {c c' : Chart} {label : Label}
    {node : Node Operator} {index block : Nat} {f : Forest Operator}
    (h : ItemPlaced d d' c c' label node index) (hd : d.Standing c label)
    (hf : d'.program.forest.Grows f) (hlayout : Layout (d'.withForest f).program c')
    (hindex : f.nodes[index]? = some (node.at index))
    (hfilled : ∃ opening, f.nodes[block]? = some opening ∧
      opening.links.child.isNone = false)
    (hwithin : (d'.withForest f).program.Within label.code false index) :
    (d'.hung f node block index).Standing c' (label.after node.operator) := by
  have hgrows : d'.program.Grows (d'.withForest f).program := Program.grows_forest hf
  have hready := h.ready.reforest hf hlayout
  refine ⟨⟨hlayout, hready.module, hready.function, hready.seen, hready.table,
    hready.around, hready.functions, hready.methods⟩, ?_, ?_, ?_, ?_⟩
  · rw [label.after_code]
    exact hd.outside
  · rw [label.after_nested]
    exact hd.nested
  · intro i l hl
    by_cases hnew : d.program.forest.nodes.size ≤ i
    · -- a new operator is reached from this one, or is part of a function
      obtain hl' | ⟨hcode, hinside⟩ := h.covers i l hl hnew
      · exact hl'.grow hgrows
      · have hreached := hwithin.trans (hinside.grow hf)
        rw [Bool.false_or] at hreached
        exact hcode ▸ hreached
    · have hold := hd.ready.layout.marks_of_grows h.chart hl (Nat.lt_of_not_le hnew)
      exact (hd.anchored i l hold).grow (h.grows.trans hgrows)
  · by_cases hop : node.operator = .beginning
    · -- behind `begin` the next operator is its first one, else it follows this one
      have hsame : label.after node.operator = label := by rw [hop]; rfl
      rw [hsame]
      refine .main ?_ rfl hindex hop (h.opening hop) h.marks hwithin
      simp [Draft.hung, hop]
    · obtain ⟨opening, hopening, hchild⟩ := hfilled
      refine .behind ?_ hopening hchild rfl hindex hop h.marks rfl ?_
      · unfold Draft.hung
        split
        · contradiction
        · rfl
      · rw [label.after_code]
        exact hwithin

namespace ItemPlaced

variable {d d' : Draft} {c c' : Chart} {label : Label} {node : Node Operator}
  {index q : Nat} {f : Forest Operator}

/-- The first operator of a module or behind `begin`. -/
theorem adopted (h : ItemPlaced d d' c c' label node index) (hd : d.Standing c label)
    {opening : Node Operator} (hq : d.program.forest.nodes[q]? = some opening)
    (hadopt : d'.program.forest.adopt q index = .ok f)
    (hfits : ∀ l, c.Marks q l → opening.operator = .beginning ∧ l = label)
    (hroot : ∀ name number, opening.operator = .module name number →
      c'.Marks index ⟨⟨number, none⟩, false, []⟩)
    (hwithin : ∀ p : Program, d'.program.Grows p →
      p.forest.nodes[q]? =
        some { opening with links := { opening.links with child := some index } } →
      p.Within label.code false index) :
    (d'.hung f node q index).Standing c' (label.after node.operator) := by
  obtain ⟨opening', hfound, hnone, rfl⟩ := Forest.adopt_ok hadopt
  have hlt := (Array.getElem?_eq_some_iff.mp hq).1
  cases hfound.symm.trans ((h.old q hlt).trans hq)
  have hgrows := Forest.grows_adopted hfound hnone (j := index)
  have hne : q ≠ index := Nat.ne_of_lt (Nat.lt_of_lt_of_le hlt h.later)
  have hlayout : Layout (d'.withForest (d'.program.forest.adopted q index)).program c' := by
    refine h.ready.layout.adopt hfound hnone (fun l hl => ?_) hroot
    -- a module has no label, and a main part hands its own one on
    obtain ⟨hop, rfl⟩ :=
      hfits l (hd.ready.layout.marks_of_grows h.chart hl hlt)
    refine ⟨fun _ => h.marks, fun hconditional => ?_⟩
    rw [hop] at hconditional
    cases hconditional
  have hnew := Forest.nodes_adopted hfound (j := index)
  exact h.standing hd hgrows hlayout ((Forest.nodes_adopted_ne hne).trans h.found)
    ⟨_, hnew, rfl⟩ (hwithin _ (Program.grows_forest hgrows) hnew)

/-- An operator behind another. -/
theorem followed (h : ItemPlaced d d' c c' label node index) (hd : d.Standing c label)
    {start : Nat} {opening previous : Node Operator} {before : Label}
    (hopened : d.program.forest.nodes[start]? = some opening)
    (hfilled : opening.links.child.isNone = false)
    (hq : d.program.forest.nodes[q]? = some previous)
    (hordinary : previous.operator ≠ .beginning) (hmarks : c.Marks q before)
    (hlabel : label = before.after previous.operator)
    (hwithin : d.program.Within label.code false q)
    (hfollow : d'.program.forest.follow q index = .ok f) :
    (d'.hung f node start index).Standing c' (label.after node.operator) := by
  obtain ⟨previous', hfound, hnone, rfl⟩ := Forest.follow_ok hfollow
  have hlt := (Array.getElem?_eq_some_iff.mp hq).1
  cases hfound.symm.trans ((h.old q hlt).trans hq)
  have hgrows := Forest.grows_followed hfound hnone (j := index)
  have hne : q ≠ index := Nat.ne_of_lt (Nat.lt_of_lt_of_le hlt h.later)
  have hlayout :=
    h.ready.layout.follow hfound hnone (hmarks.grow h.chart) hordinary (hlabel ▸ h.marks)
  refine h.standing hd hgrows hlayout ((Forest.nodes_followed_ne hne).trans h.found) ?_ ?_
  · -- what opened the block keeps its first operator
    obtain ⟨opening', hopening', hkept⟩ :=
      (h.grows.forest.trans hgrows).nodes start opening hopened
    refine ⟨opening', hopening', ?_⟩
    obtain ⟨j, hj⟩ := Option.isSome_iff_exists.mp (by simpa using hfilled)
    rw [hkept.child j hj]
    rfl
  · have hreached := hwithin.grow (h.grows.trans (Program.grows_forest hgrows))
    exact hreached.trans (.next .here (Forest.nodes_followed hfound) rfl)

end ItemPlaced

namespace Builder

variable {d d' : Draft} {c c' : Chart} {label : Label} {node : Node Operator}

/-- An operator that is hung is placed, and taken in by the open block or put behind the
last operator. -/
theorem hang_ok {start q : Nat} {opening : Node Operator} {r : Unit × Draft}
    (hloose : node.index = none) (hmodule : ∀ name n, node.operator ≠ .module name n)
    (hblock : d.block = some start)
    (hopened : d.program.forest.nodes[start]? = some opening) (hlast : d.last = some q)
    (h : hang node d = .ok r) :
    ∃ f, r.2 = d.hung f node start d.program.forest.nodes.size ∧
      if opening.links.child.isNone then
        (d.program.forest.placed node).adopt q d.program.forest.nodes.size = .ok f
      else (d.program.forest.placed node).follow q d.program.forest.nodes.size = .ok f := by
  have hlinks : d.program.forest.links start = opening.links := by
    simp [Forest.links, hopened]
  unfold hang at h
  obtain ⟨d₁, d₂, hget, h⟩ := bind_ok.mp h
  cases get_ok.mp hget
  unfold Draft.hung
  cases hop : node.operator with
  | module name n => exact absurd hop (hmodule name n)
  | _ =>
    rw [hop, hblock] at h
    simp only [hlinks, hlast] at h
    obtain ⟨index, d₃, hinsert, h⟩ := bind_ok.mp h
    obtain ⟨f, hinsert, rfl⟩ := insert_ok hinsert
    obtain ⟨rfl, hlink⟩ := Forest.insert_ok hloose hinsert
    cases modify_ok.mp h
    exact ⟨f, rfl, hlink⟩

/-- Linking an operator of the top level, a module apart, to what it belongs to. -/
theorem hang_read {r : Unit × Draft} (hd : d.Standing c label)
    (hplaced : ItemPlaced d (d'.withForest (d'.program.forest.placed node)) c c' label
      node d'.program.forest.nodes.size)
    (h : hang node d' = .ok r) : r.2.Standing c' (label.after node.operator) := by
  have hinner : ∀ name n, node.operator ≠ .module name n :=
    (hplaced.ready.layout.nodes _ _ _ hplaced.marks hplaced.found).inner
  have hkept : ∀ {i : Nat} {q : Node Operator}, d.program.forest.nodes[i]? = some q →
      d'.program.forest.nodes[i]? = some q := by
    intro i q hq
    have hlt := (Array.getElem?_eq_some_iff.mp hq).1
    have hlt' := Nat.ne_of_lt (Nat.lt_of_lt_of_le hlt hplaced.later)
    exact (Forest.nodes_placed hlt').symm.trans ((hplaced.old i hlt).trans hq)
  have hblock' : d'.block = d.block := hplaced.block
  have hlast' : d'.last = d.last := hplaced.last
  cases hd.hook with
  | module block last isRoot found mark empty fresh =>
    obtain ⟨f, hr, hlink⟩ := hang_ok hplaced.loose hinner (hblock'.trans block) (hkept found)
      (hlast'.trans last) h
    rw [empty] at hlink
    rw [hr]
    have hlabel : label = ⟨⟨label.code.module, none⟩, false, []⟩ := by
      rw [← hd.outside, ← hd.nested, ← fresh]
    refine hplaced.adopted hd found hlink ?_ ?_ ?_
    · intro l hl
      -- modules have no labels
      exact absurd mark ((hd.ready.layout.nodes _ _ _ hl found).inner _ _)
    · intro name number hop
      cases mark.symm.trans hop
      exact hlabel ▸ hplaced.marks
    · intro p hgrows hnew
      rw [hlabel]
      refine ⟨_, _, _, _, hgrows.forest.roots _ ?_, hnew, mark, rfl, .here⟩
      exact hplaced.roots ▸ isRoot
  | main block last found mark empty marks within =>
    obtain ⟨f, hr, hlink⟩ := hang_ok hplaced.loose hinner (hblock'.trans block) (hkept found)
      (hlast'.trans last) h
    rw [empty] at hlink
    rw [hr]
    refine hplaced.adopted hd found hlink ?_ ?_ ?_
    · intro l hl
      exact ⟨mark, Option.some.inj (Option.some.inj (hl.symm.trans marks))⟩
    · intro name number hop
      rw [mark] at hop
      cases hop
    · intro p hgrows hnew
      exact (within.grow (hplaced.grows.trans hgrows)).trans (.main .here hnew mark rfl)
  | behind block opened filled last found ordinary marks label_eq within =>
    obtain ⟨f, hr, hlink⟩ := hang_ok hplaced.loose hinner (hblock'.trans block) (hkept opened)
      (hlast'.trans last) h
    rw [filled] at hlink
    rw [hr]
    exact hplaced.followed hd opened filled found ordinary marks label_eq within hlink

end Builder

/-! ## Modules

A module starts a tree of its own, with a table of functions and one of variables that are
empty. -/

/-- The draft after a module's header. -/
def Draft.startModule (d : Draft) (name : String) : Draft :=
  let forest := d.program.forest.placed { operator := .module name d.program.modules.size }
  { d with
    program :=
      { d.program with
        forest := { forest with
          roots := d.program.forest.roots ++ [d.program.forest.nodes.size] }
        modules := d.program.modules.push { name } }
    module := some d.program.modules.size
    block := some d.program.forest.nodes.size
    last := some d.program.forest.nodes.size }

namespace Draft

variable {d : Draft} {c : Chart} {name : String}

/-- A module that is started is the last one, and has nothing yet. -/
theorem modules_startModule (k : Nat) : (d.startModule name).program.modules[k]? =
    if k = d.program.modules.size then some { name } else d.program.modules[k]? :=
  Array.getElem?_push

/-- A module that is started takes nothing away. -/
theorem grows_startModule : d.program.Grows (d.startModule name).program := by
  have hnew : ∀ {k : Nat} {m : ModuleDeclaration}, d.program.modules[k]? = some m →
      (d.startModule name).program.modules[k]? = some m := by
    intro k m hm
    have hlt := (Array.getElem?_eq_some_iff.mp hm).1
    rw [modules_startModule, if_neg (Nat.ne_of_lt hlt), hm]
  refine ⟨⟨(d.program.forest.grows_placed _).nodes, fun root hroot => ?_⟩, ?_, ?_,
    fun _ f hf => ⟨f, hf, fun _ h => h⟩⟩
  · exact List.mem_append_left _ hroot
  · rintro ⟨k, _ | n⟩ other v hv
    · cases hm : d.program.modules[k]? with
      -- an older module keeps its variables, and the new one has none yet
      | none => simp [Program.table, hm, Variables.empty, Table.find?] at hv
      | some m =>
        simp only [Program.table, hm, hnew hm] at hv ⊢
        exact hv
    · exact hv
  · exact fun k m hm => ⟨m, hnew hm, rfl⟩

/-- The header of a module needs no label. -/
theorem layout_startModule (h : Layout d.program c) :
    Layout (d.startModule name).program (c.labelled none) := by
  refine h.grow grows_startModule (c.grows_labelled none) ?_ h.notes ?_
    (fun _ _ hf => .inl hf) ?_ (h.one_added rfl fun _ => id)
  · show (c.labels ++ [none]).length = (d.program.forest.placed
      { operator := .module name d.program.modules.size }).nodes.size
    rw [Forest.size_placed, List.length_append, h.labels]
    rfl
  · intro i l node hl hnode
    obtain ⟨-, hnone⟩ | ⟨hlt, hl'⟩ := h.of_marks_labelled hl
    · cases hnone
    · exact .inl ⟨hl', (Forest.nodes_placed (Nat.ne_of_lt hlt)).symm.trans hnode⟩
  · intro root hroot
    obtain hold | hnew := List.mem_append.mp hroot
    · obtain ⟨node, hnode, -⟩ := h.roots root hold
      have hlt := (Array.getElem?_eq_some_iff.mp hnode).1
      exact .inl ⟨hold, Forest.nodes_placed (Nat.ne_of_lt hlt)⟩
    · rw [List.mem_singleton] at hnew
      subst hnew
      refine .inr ⟨_, Forest.nodes_placed_last, name, d.program.modules.size, { name },
        rfl, ?_, rfl, fun _ hchild => nomatch hchild⟩
      rw [modules_startModule, if_pos rfl]

/-- In a new module nothing is declared. -/
theorem standing_startModule (name : String) (h : Layout d.program c)
    (hanchored : Anchored d.program c) (hfunction : d.function = none) :
    (d.startModule name).Standing (c.labelled none)
      ⟨⟨d.program.modules.size, none⟩, false, []⟩ := by
  have hmodule : (d.startModule name).program.modules[d.program.modules.size]? =
      some { name } := by rw [modules_startModule, if_pos rfl]
  have hempty : ∀ other, ((d.startModule name).program.table
      ⟨d.program.modules.size, none⟩).has other = true → False := by
    intro other hother
    simp [Program.table, hmodule, Variables.empty, Table.has, Table.find?] at hother
  refine ⟨⟨layout_startModule h, rfl, hfunction, ?_, ?_, ?_, ?_, ?_⟩, rfl, rfl, ?_, ?_⟩
  · exact fun _ hmem => absurd hmem List.not_mem_nil
  · exact fun other hother => (hempty other hother).elim
  · exact fun other hother => (hempty other hother).elim
  · intro other callee hfound
    obtain ⟨m, n, hm, hn, -⟩ := Program.findFunction_ok.mp hfound
    cases hmodule.symm.trans hm
    cases hn
  · intro owner other callee hfound
    obtain ⟨m, i, ofClass, n, hm, hi, -⟩ := Program.findMethod_ok.mp hfound
    -- nor has it a class
    cases hmodule.symm.trans hm
    cases hi
  · intro i l hl
    obtain ⟨-, hnone⟩ | ⟨-, hl'⟩ := h.of_marks_labelled hl
    · cases hnone
    · exact (hanchored i l hl').grow grows_startModule
  · exact .module rfl rfl (List.mem_append_right _ (List.mem_singleton_self _))
      Forest.nodes_placed_last rfl rfl rfl

end Draft

/-! ## Programs

Between two operators the draft is sound, and each operator that is read keeps it so; at the
end of the tokens the chart is that of the program. -/

/-- Tokens that were read make no difference. -/
theorem Draft.Standing.reading {d : Draft} {c : Chart} {label : Label}
    (h : d.Standing c label) (ahead : List Token) :
    Draft.Standing { d with ahead } c label := by
  refine ⟨h.ready.ahead ahead, h.outside, h.nested, h.anchored, ?_⟩
  cases h.hook with
  | module block last isRoot found mark empty fresh =>
    exact .module block last isRoot found mark empty fresh
  | main block last found mark empty marks within =>
    exact .main block last found mark empty marks within
  | behind block opened filled last found ordinary marks label_eq within =>
    exact .behind block opened filled last found ordinary marks label_eq within

/-- A draft between two operators of the top level. -/
structure Draft.Sound (d : Draft) (c : Chart) : Prop where
  layout : Layout d.program c
  anchored : Anchored d.program c
  function : d.function = none
  standing : d.module = none ∨ ∃ label, d.Standing c label

/-- Tokens that were read make no difference. -/
theorem Draft.Sound.reading {d : Draft} {c : Chart} (h : d.Sound c)
    (ahead : List Token) : Draft.Sound { d with ahead } c := by
  refine ⟨h.layout, h.anchored, h.function, h.standing.imp_right ?_⟩
  exact fun ⟨label, hlabel⟩ => ⟨label, hlabel.reading ahead⟩

/-- A draft with a module that is open agrees with its chart. -/
theorem Draft.Standing.sound {d : Draft} {c : Chart} {label : Label}
    (h : d.Standing c label) : d.Sound c :=
  ⟨h.ready.layout, h.anchored, h.ready.function.trans h.outside, .inr ⟨label, h⟩⟩

namespace Builder

/-- An operator of the top level keeps everything in agreement. -/
theorem hang_item_read {d : Draft} {c : Chart} {r : Unit × Draft} (hd : d.Sound c)
    (h : (item >>= hang) d = .ok r) : ∃ c', r.2.Sound c' := by
  obtain ⟨node, d₁, hitem, h⟩ := bind_ok.mp h
  by_cases hkind : (Token.first d.ahead).kind = .moduleWord
  · -- a header opens the next module, wherever the last one stands
    unfold item at hitem
    obtain ⟨d₂, d₃, hget, hitem⟩ := bind_ok.mp hitem
    cases get_ok.mp hget
    rw [ite_apply, if_pos hkind] at hitem
    obtain ⟨_, ahead, -, hitem⟩ := tokens_bind hitem
    obtain ⟨word, ahead, -, hitem⟩ := tokens_bind hitem
    obtain ⟨_, ahead, -, hitem⟩ := tokens_bind hitem
    obtain ⟨d₂, d₃, hget, hitem⟩ := bind_ok.mp hitem
    cases get_ok.mp hget
    obtain ⟨_, d₄, hset, hitem⟩ := bind_ok.mp hitem
    cases set_ok.mp hset
    cases pure_ok.mp hitem
    obtain ⟨d₅, d₆, hget, h⟩ := bind_ok.mp h
    cases get_ok.mp hget
    obtain ⟨index, d₇, hinsert, h⟩ := bind_ok.mp h
    obtain ⟨f, hinsert, rfl⟩ := insert_ok hinsert
    obtain ⟨rfl, hf⟩ := Forest.insert_ok rfl hinsert
    cases modify_ok.mp h
    simp only at hf
    subst hf
    have hstanding := Draft.standing_startModule (d := { d with ahead }) word.text
      hd.layout hd.anchored hd.function
    exact ⟨c.labelled none, hstanding.sound⟩
  · obtain hnone | ⟨label, hstanding⟩ := hd.standing
    · unfold item at hitem
      obtain ⟨d₂, d₃, hget, hitem⟩ := bind_ok.mp hitem
      cases get_ok.mp hget
      -- outside of modules nothing else can be read
      rw [ite_apply, if_neg hkind, hnone] at hitem
      exact (throw_ok.mp hitem).elim
    · obtain ⟨c', hplaced⟩ :=
        item_read hstanding.ready hstanding.outside hstanding.nested hkind hitem
      exact ⟨c', (hang_read hstanding hplaced h).sound⟩

/-- All the operators of the top level keep everything in agreement. -/
theorem items_read : ∀ (bound : List Token) {d : Draft} {c : Chart} {r : Unit × Draft},
    d.Sound c → items bound d = .ok r → ∃ c', r.2.Sound c'
  | [], _, c, _, hd, h => by
    cases pure_ok.mp h
    exact ⟨c, hd⟩
  | _ :: bound, d, c, r, hd, h => by
    obtain ⟨d₁, d₂, hget, h⟩ := bind_ok.mp h
    cases get_ok.mp hget
    rw [ite_apply] at h
    split at h
    · cases pure_ok.mp h
      exact ⟨c, hd⟩
    · obtain ⟨seen, ahead, -, h⟩ := tokens_bind h
      rw [ite_apply] at h
      split at h
      · obtain ⟨_, ahead, -, h⟩ := tokens_bind h
        cases pure_ok.mp h
        exact ⟨c, hd.reading ahead⟩
      · obtain ⟨node, d₂, hitem, h⟩ := bind_ok.mp h
        obtain ⟨_, d₃, hhang, h⟩ := bind_ok.mp h
        obtain ⟨c', hd₃⟩ := hang_item_read (hd.reading ahead)
          (bind_ok.mpr ⟨node, d₂, hitem, hhang⟩)
        exact items_read bound hd₃ h

end Builder

/-- Every program that was built has a chart that agrees with it, and every operator
with a label is part of the code that its label tells. -/
theorem Program.ofTokens_layout {tokens : List Token} {p : Program}
    (h : Program.ofTokens tokens = .ok p) : ∃ c, Layout p c ∧ Anchored p c := by
  unfold Program.ofTokens Program.draft at h
  cases hitems : (Builder.items tokens).run { ahead := tokens } with
  | error fault => simp [hitems, bind, Except.bind, Except.map] at h
  | ok r =>
    simp only [hitems, bind, Except.bind, Except.map, pure, Except.pure] at h
    cases h
    -- before the first token there is nothing to agree on
    have hempty : Layout {} {} := by
      refine ⟨rfl, rfl, fun _ _ _ hl => ?_, fun _ _ hnode => ?_, ?_,
        fun _ hroot => nomatch hroot⟩
      · exact nomatch hl
      · exact nomatch hnode
      · intro n f hf
        exact nomatch hf
    have hstart : Draft.Sound { ahead := tokens } {} :=
      ⟨hempty, fun _ _ hl => (nomatch hl), rfl, .inl rfl⟩
    obtain ⟨c, hsound⟩ := Builder.items_read tokens hstart hitems
    exact ⟨c, hsound.layout, hsound.anchored⟩

end Pseudocode
