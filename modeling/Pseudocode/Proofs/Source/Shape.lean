import Pseudocode.Proofs.Source.Outcomes
import Pseudocode.Proofs.Tree.Shape

/-!
# The shape of a program's forest

What is built shows the items of the program, each operator once.  So it has the shape
that such forests have: each operator has been told its place, nothing is referred to twice,
there is one path to each operator, siblings end, and an outline has one line for each
operator (`forest_shaped`).  Modules
and further branches stand in no row, since the rules nest neither in anything.

An outline gives up on operators that are nested too deeply, and there is no bound on how
deeply they can be: each `begin` is nested in the one before it.  With a thousand of them
an outline fails (`deep_outline_fails`).
-/

namespace Pseudocode

open Source Builder

/-- The operators that stand in no row: modules and further branches. -/
def Operator.StandsAlone : Operator → Prop
  | .module .. | .elseIf _ | .elseBranch => True
  | _ => False

/-- The others. -/
def Operator.InRow (operator : Operator) : Prop := ¬ operator.StandsAlone

/-- The operators of further branches that have a guard. -/
def Operator.IsElseIf : Operator → Prop
  | .elseIf _ => True
  | _ => False

/-- A tree in which rows are nested, and alternatives are alternatives. -/
abbrev Tree.Regular (tree : Tree Operator) : Prop :=
  tree.Inside Operator.InRow Operator.IsElseIf

/-- The same of the references of a forest. -/
def Forest.Regular (f : Forest Operator) : Prop :=
  ∀ (i : Nat) (node : Node Operator), f.nodes[i]? = some node →
    f.Linked Operator.InRow Operator.IsElseIf node

namespace Source

variable {N : Numbering} {Γ Γ' : Context} {ts : List Token} {trees : List (Tree Operator)}
  {tree : Tree Operator}

/-- In a leaf nothing is nested. -/
theorem regular_leaf (operator : Operator) : (Tree.leaf operator).Regular :=
  .node (by simp) (by simp) (by simp) (by simp) (by simp)

/-- An operator in which only statements are nested. -/
theorem regular_node (operator : Operator) {nested : List (Tree Operator)}
    (hrow : ∀ tree ∈ nested, tree.operator.InRow) (h : ∀ tree ∈ nested, tree.Regular) :
    (Tree.node operator nested [] none).Regular :=
  .node hrow h (by simp) (by simp) (by simp)

/-- What the parts of statements are made of. -/
def Part.Fits : Part → Operator → Prop
  | .statement | .body => Operator.InRow
  | .alternatives => Operator.IsElseIf
  | .fallback => fun _ => True

/-- Statements stand in rows, and so does what is nested in them. -/
theorem Written.rows {part : Part} (h : Written N part Γ ts trees Γ') :
    (∀ tree ∈ trees, tree.Regular) ∧ ∀ tree ∈ trees, part.Fits tree.operator := by
  have hone : ∀ {tree : Tree Operator} {part : Part}, tree.Regular →
      part.Fits tree.operator →
      (∀ t ∈ [tree], t.Regular) ∧ ∀ t ∈ [tree], part.Fits t.operator := by
    intro tree part hregular hfits
    simpa using ⟨hregular, hfits⟩
  induction h with
  | loop _ _ _ _ _ ih => exact hone (regular_node _ ih.2 ih.1) id
  | branch _ _ _ _ _ _ _ ih₁ ih₂ ih₃ =>
    exact hone (.node ih₁.2 ih₁.1 ih₂.2 ih₂.1 ih₃.1) id
  | done => exact ⟨by simp, by simp⟩
  | next _ _ ih₁ ih₂ =>
    refine ⟨List.forall_mem_cons.mpr ⟨ih₁.1 _ (by simp), ih₂.1⟩, ?_⟩
    exact List.forall_mem_cons.mpr ⟨ih₁.2 _ (by simp), ih₂.2⟩
  | noAlternative => exact ⟨by simp, by simp⟩
  | alternative _ _ _ _ _ ih₁ ih₂ =>
    refine ⟨List.forall_mem_cons.mpr ⟨regular_node _ ih₁.2 ih₁.1, ih₂.1⟩, ?_⟩
    exact List.forall_mem_cons.mpr ⟨trivial, ih₂.2⟩
  | noFallback => exact ⟨by simp, by simp⟩
  | fallback _ _ ih => exact hone (regular_node _ ih.2 ih.1) trivial
  | _ => exact hone (regular_leaf _) id

/-- A function stands in a row, and so do the statements in it. -/
theorem FunctionWritten.rows {place : Place} (h : FunctionWritten N place Γ ts tree Γ') :
    tree.Regular ∧ tree.operator.InRow := by
  obtain ⟨-, -, -, -, -, inside, -⟩ := h
  refine ⟨regular_node _ inside.rows.2 inside.rows.1, ?_⟩
  cases place <;> exact id

/-- The methods of a class stand in its row. -/
theorem MethodsWritten.rows {place : Place} (h : MethodsWritten N place Γ ts trees Γ') :
    ∀ tree ∈ trees, tree.Regular ∧ tree.operator.InRow := by
  induction h with
  | done => simp
  | next _ first _ ih => exact List.forall_mem_cons.mpr ⟨first.rows, ih⟩

/-- Items are headers, or stand in rows. -/
theorem ItemWritten.rows (h : ItemWritten N Γ ts tree Γ') :
    tree.Regular ∧
      ((∃ name number, tree.operator = .module name number) ∨ tree.operator.InRow) := by
  cases h with
  | header => exact ⟨regular_leaf _, .inl ⟨_, _, rfl⟩⟩
  | beginning => exact ⟨regular_leaf _, .inr id⟩
  | function _ _ written => exact ⟨written.rows.1, .inr written.rows.2⟩
  | classDeclaration _ _ _ _ members =>
    refine ⟨regular_node _ (fun tree htree => (members.rows tree htree).2)
      fun tree htree => (members.rows tree htree).1, .inr id⟩
  | statement _ written =>
    exact ⟨written.rows.1 _ (by simp), .inr (written.rows.2 _ (by simp))⟩

/-- So it is with all items. -/
theorem ItemsWritten.rows (h : ItemsWritten N Γ ts trees Γ') :
    ∀ tree ∈ trees, tree.Regular ∧
      ((∃ name number, tree.operator = .module name number) ∨ tree.operator.InRow) := by
  induction h with
  | done => simp
  | next first _ ih => exact List.forall_mem_cons.mpr ⟨first.rows, ih⟩

/-- An operator may take statements in. -/
theorem regular_around {nested : List (Tree Operator)} (h : tree.Regular)
    (hnested : ∀ tree ∈ nested, tree.Regular ∧ tree.operator.InRow) :
    (tree.around nested).Regular := by
  obtain ⟨-, -, further, branches, otherwise⟩ := h
  exact .node (fun tree htree => (hnested tree htree).2)
    (fun tree htree => (hnested tree htree).1) further branches otherwise

/-- As a forest has them, only modules stand at the roots. -/
theorem arrange_rows (h : ∀ tree ∈ trees, tree.Regular ∧
      ((∃ name number, tree.operator = .module name number) ∨ tree.operator.InRow)) :
    (∀ tree ∈ (arrange trees).1, tree.Regular ∧ tree.operator.InRow) ∧
      ∀ tree ∈ (arrange trees).2, tree.Regular := by
  induction trees with
  | nil => exact ⟨by simp [arrange], by simp [arrange]⟩
  | cons tree trees ih =>
    obtain ⟨⟨hregular, hkind⟩, hrest⟩ := List.forall_mem_cons.mp h
    obtain ⟨hrow, hroots⟩ := ih hrest
    rw [arrange]
    split
    · exact ⟨by simp, List.forall_mem_cons.mpr ⟨regular_around hregular hrow, hroots⟩⟩
    · next hbeginning =>
      refine ⟨fun tree' htree => ?_, hroots⟩
      rw [List.mem_singleton.mp htree]
      refine ⟨regular_around hregular hrow, ?_⟩
      rw [Tree.operator_around, hbeginning]
      exact id
    · next hmodule _ =>
      refine ⟨List.forall_mem_cons.mpr ⟨⟨hregular, ?_⟩, hrow⟩, hroots⟩
      refine hkind.resolve_left ?_
      rintro ⟨name, number, heq⟩
      exact hmodule name number heq

/-- The operators of a program that was built stand in rows, or are alternatives. -/
theorem Built.regular {d : Draft} {Γ : Context} (h : Built d trees Γ)
    (hrows : ∀ tree ∈ (arrange trees).2, tree.Regular) : d.program.forest.Regular := by
  intro i node hnode
  obtain ⟨used, hshows, hcovers⟩ := h.shown
  have hlt := (Array.getElem?_eq_some_iff.mp hnode).1
  exact hshows.linked hrows (by simp) i (hcovers.mem_iff.mpr ⟨Nat.zero_le _, hlt⟩) node hnode

end Source

/-! ## The shape -/

/-- The shape of a program's forest. -/
structure Forest.Shaped (f : Forest Operator) : Prop where
  /-- Each node has been told its own place. -/
  indexed : ∀ (i : Nat) (node : Node Operator), f.nodes[i]? = some node → node.index = some i
  /-- Roots and references are the places of the forest, each once. -/
  once : f.references.Perm (List.range f.size)
  alone : ∀ (i : Nat) (node : Node Operator), f.nodes[i]? = some node → node.operator.StandsAlone →
    node.links.sibling = none
  acyclic : ∀ i, ¬ Relation.TransGen f.Refers i i
  /-- There is one path to each place, and so one root that it is reached from. -/
  reached : ∀ i < f.size, ∃! path, f.Reached path i
  /-- Siblings end. -/
  siblings : ∀ start, (∀ i, start = some i → i < f.size) → f.Chain start (f.siblings start)
  /-- An outline has one line for each place. -/
  outlined : (∀ i ∈ f.roots, ¬ f.Descends Forest.outlineLimit i) →
    ∃ lines order, f.outline = .ok lines ∧ lines.length = f.size ∧
      order.Perm (List.range f.size) ∧ List.Forall₂ f.Line order lines
  /-- It gives up on what is nested too deeply. -/
  tooDeep : (∃ i ∈ f.roots, f.Descends Forest.outlineLimit i) → f.outline = .error .tooDeep

/-- A forest that shows trees, one place each, has the shape of a forest. -/
theorem Source.Built.shaped {d : Draft} {trees : List (Tree Operator)} {Γ : Context}
    (h : Built d trees Γ)
    (hrows : ∀ tree ∈ (arrange trees).2, tree.Regular) : d.program.forest.Shaped := by
  obtain ⟨used, hshows, hcovers⟩ := h.shown
  have honce := Forest.references_perm hshows hcovers
  have hnodup := honce.nodup_iff.mpr List.nodup_range
  have hused : used.Perm (List.range d.program.forest.size) := by
    rw [List.range_eq_range']
    exact hcovers.perm
  have hmem : ∀ {i}, i < d.program.forest.size → i ∈ used := fun hi =>
    hcovers.mem_iff.mpr ⟨Nat.zero_le _, hi⟩
  have hreached : ∀ i < d.program.forest.size, ∃ path, d.program.forest.Reached path i :=
    fun i hi => hshows.reached (fun j hj => ⟨[j], .root hj⟩) i (hmem hi)
  have houtline := Forest.outline_outcome hshows hcovers
  refine ⟨fun i node hfound => ?_, honce, fun i node hfound halone => ?_, ?_, fun i hi => ?_,
    fun start => Forest.siblings_chain hshows hcovers, fun hshallow => ?_, fun hdeep => ?_⟩
  · exact hshows.told i (hmem (Array.getElem?_eq_some_iff.mp hfound).1) node hfound
  · have hlinked := h.regular hrows i node hfound
    cases hsibling : node.links.sibling with
    | none => rfl
    | some j => exact absurd halone (hlinked.sibling j hsibling).1
  · exact Forest.not_transGen_refers hnodup hreached
  · obtain ⟨path, hpath⟩ := hreached i hi
    exact ⟨path, hpath, fun path' hpath' => hpath'.unique hpath hnodup⟩
  · rcases houtline with ⟨⟨i, hi, hdeep⟩, -⟩ | ⟨-, lines, hrun, hlines⟩
    · exact absurd hdeep (hshallow i hi)
    · refine ⟨lines, used, hrun, ?_, hused, hlines⟩
      rw [← hlines.length_eq, hused.length_eq, List.length_range]
  · rcases houtline with ⟨-, hrun⟩ | ⟨hshallow, -⟩
    · exact hrun
    · obtain ⟨i, hi, hdeep⟩ := hdeep
      exact absurd hdeep (hshallow i hi)

/-- What is built is regular, for it was written by the rules. -/
theorem Program.regular_of_ofTokens {tokens : List Token} {p : Program}
    (h : ofTokens tokens = .ok p) : p.forest.Regular := by
  obtain ⟨d, trees, Γ, rfl, ⟨used, rest, -, hitems, -⟩, hbuilt⟩ := ofTokens_built h
  exact hbuilt.regular (arrange_rows hitems.rows).2

/-- What is built has the shape of a forest. -/
theorem Program.shaped_of_ofTokens {tokens : List Token} {p : Program}
    (h : ofTokens tokens = .ok p) : p.forest.Shaped := by
  obtain ⟨d, trees, Γ, rfl, ⟨used, rest, -, hitems, -⟩, hbuilt⟩ := ofTokens_built h
  exact hbuilt.shaped (arrange_rows hitems.rows).2

/-- Whatever the tokens are, what is built has the shape of a forest, and what is refused
is not refused because an operator had a child or a sibling already or because no block
was open. -/
theorem Program.forest_shaped (tokens : List Token) :
    (∀ p, ofTokens tokens = .ok p → p.forest.Shaped) ∧
    ∀ fault, ofTokens tokens = .error fault →
      fault ≠ .missingPosition ∧ (∀ label, fault ≠ .configuration (.childTaken label)) ∧
        ∀ label, fault ≠ .configuration (.siblingTaken label) := by
  refine ⟨fun p hp => shaped_of_ofTokens hp, fun fault hfault => ?_⟩
  have hforeseen := ofTokens_foreseen hfault
  refine ⟨?_, fun label => ?_, fun label => ?_⟩
  · rintro rfl
    exact hforeseen
  · rintro rfl
    exact hforeseen
  · rintro rfl
    exact hforeseen

/-- A module with a conditional that has three branches, two of them empty. -/
def branching : List Token :=
  [.ofKind .moduleWord, ⟨.word, "m", 0, 0⟩, .ofKind .semicolon, .ofKind .beginWord,
    .ofKind .ifWord, .ofKind .trueWord, .ofKind .thenWord, .ofKind .elseIfWord,
    .ofKind .falseWord, .ofKind .thenWord, .ofKind .outputWord, ⟨.number, "1", 0, 0⟩,
    .ofKind .semicolon, .ofKind .elseWord, .ofKind .endWord, .ofKind .ifWord, .ofKind .dot]

/-- A conditional with all its branches is built into six operators of that shape; without
its header it is refused, and not for an operator that is missing. -/
theorem Program.branching_shaped :
    (∃ p, ofTokens branching = .ok p ∧ p.forest.size = 6 ∧ p.forest.Shaped) ∧
      ∃ fault, ofTokens (branching.drop 3) = .error fault ∧ fault ≠ .missingPosition := by
  have hbuilt : (ofTokens branching).toOption.any
      (fun p => decide (p.forest.size = 6)) = true := by
    decide +kernel
  obtain ⟨p, hp, hsize⟩ := exists_ok _ hbuilt
  refine ⟨⟨p, hp, of_decide_eq_true hsize, (forest_shaped branching).1 p hp⟩, ?_⟩
  exact ⟨_, rfl, ((forest_shaped (branching.drop 3)).2 _ rfl).1⟩

/-! ## Nested blocks -/

/-- A module in which there is nothing but so many `begin`s. -/
def beginnings (n : Nat) : List Token :=
  [.ofKind .moduleWord, ⟨.word, "m", 0, 0⟩, .ofKind .semicolon] ++
    List.replicate n (.ofKind .beginWord)

namespace Source

theorem itemsWritten_beginnings {N : Numbering} {Γ : Context} (hopen : Γ.modules ≠ []) :
    ∀ n, ItemsWritten N Γ (List.replicate n (.ofKind .beginWord))
      (List.replicate n (.leaf .beginning)) Γ
  | 0 => .done
  | n + 1 => .next (.beginning hopen rfl) (itemsWritten_beginnings hopen n)

/-- However many there are, no `begin` is too deep for the builder. -/
theorem items_beginnings {Γ : Context} (hopen : Γ.modules ≠ []) :
    ∀ (n : Nat) {bound : List Token} {d : Draft} {place : Nat} {asChild : Bool}
      {node : Node Operator}, d.Agrees Γ → d.Hole place asChild node → n ≤ bound.length →
      ∃ d', items bound (d.before (List.replicate n (.ofKind .beginWord))) = .ok ((), d')
  | 0, bound, d, _, _, _, _, _, _ => by
    have hends : ∃ ahead, items bound (d.before []) = .ok ((), d.before ahead) :=
      items_ends (.inl rfl) bound
    obtain ⟨ahead, hrun⟩ := hends
    exact ⟨_, hrun⟩
  | n + 1, [], _, _, _, _, _, _, hbound => absurd hbound (Nat.not_succ_le_zero n)
  | n + 1, b :: bound, d, place, asChild, node, hagrees, hole, hbound => by
    have hfirst : ItemWritten .read Γ [.ofKind .beginWord] (.leaf .beginning) Γ :=
      .beginning hopen rfl
    have hmodule : ∀ name number,
        (Tree.leaf Operator.beginning).operator ≠ .module name number := by
      simp [Tree.operator, Tree.leaf]
    have hgets : Gets (item (d.before ([.ofKind .beginWord] ++
        List.replicate n (.ofKind .beginWord)))) _ _ := item_gets hfirst hmodule hagrees
    rcases hgets with ⟨node₁, d₁, hitem, hread⟩ | ⟨-, hdeep⟩
    · obtain ⟨block, forest, hhang, hagrees', hole', -⟩ :=
        hang_item hole hread hmodule (fun _ => rfl) fun _ => items bound
      obtain ⟨d', hrest⟩ := items_beginnings hopen n hagrees' hole'
        (Nat.le_of_succ_le_succ hbound)
      refine ⟨d', (items_next hfirst).trans ?_⟩
      exact (bind_of_run hitem).trans (hhang.trans hrest)
    · exact absurd hdeep (by decide)

/-- Each `begin` is nested in the one before it. -/
theorem arrange_beginnings (n : Nat) :
    (arrange (List.replicate (n + 1) (.leaf .beginning))).1 =
      [.node .beginning (arrange (List.replicate n (.leaf .beginning))).1 [] none] := rfl

end Source

/-- So one can go down as many levels as there are. -/
theorem Forest.Shows.descends {f : Forest Operator} {start : Option Nat} {used : List Nat}
    {n : Nat}
    (h : f.Shows (.row start) (arrange (List.replicate (n + 1) (.leaf .beginning))).1 used) :
    ∃ i, start = some i ∧ f.Descends n i := by
  rw [arrange_beginnings] at h
  obtain ⟨i, node, inside, rfl, found, child⟩ := h.row_cons
  refine ⟨i, rfl, ?_⟩
  cases n with
  | zero => exact .here
  | succ n =>
    obtain ⟨j, hj, hdeep⟩ := Shows.descends child
    exact hdeep.of_child found hj
termination_by n

/-- A module with any number of `begin`s is built, with one more level for each. -/
theorem Program.ofTokens_beginnings (n : Nat) :
    ∃ p, ofTokens (beginnings (n + 1)) = .ok p ∧
      ∃ i ∈ p.forest.roots, p.forest.Descends (n + 1) i := by
  let Γ : Context := ({} : Context).openModule "m"
  have hopen : Γ.modules ≠ [] := by simp [Γ, Context.openModule]
  have hitems : ItemsWritten .read {} (beginnings (n + 1))
      (.leaf (.module "m" 0) :: List.replicate (n + 1) (.leaf .beginning)) Γ :=
    .next (.header rfl rfl rfl) (itemsWritten_beginnings hopen (n + 1))
  have hwritten : ProgramWritten .read (beginnings (n + 1)) _ Γ :=
    ⟨_, [], (List.append_nil _).symm, hitems, .inl rfl⟩
  have hfresh : (Draft.startModule { ahead := beginnings (n + 1) } "m").Agrees Γ :=
    (Draft.Agrees.fresh _).startModule rfl "m"
  obtain ⟨d, hrest⟩ := items_beginnings hopen (n + 1) hfresh (hole_startModule _ _)
    (show n + 1 ≤ ((beginnings (n + 1)).drop 1).length by simp [beginnings])
  have hrun : items (beginnings (n + 1)) { ahead := beginnings (n + 1) } = .ok ((), d) := by
    have hfirst : ItemWritten .read {} [.ofKind .moduleWord, ⟨.word, "m", 0, 0⟩,
        .ofKind .semicolon] (.leaf (.module "m" 0)) Γ := .header rfl rfl rfl
    refine (items_next (d := { ahead := beginnings (n + 1) }) hfirst).trans
      (Eq.trans ?_ hrest)
    exact header_bind (d := { ahead := beginnings (n + 1) }) rfl rfl rfl _
  obtain ⟨used, hshows, -⟩ := (hwritten.built.good hrun).shown
  refine ⟨d.program, ?_, ?_⟩
  · show (items (beginnings (n + 1)) { ahead := beginnings (n + 1) } >>=
      fun r => pure r.2).map Draft.program = _
    rw [hrun]
    rfl
  · have htrees : (arrange (.leaf (.module "m" 0) ::
        List.replicate (n + 1) (.leaf .beginning))).2 =
        Tree.around (arrange (List.replicate (n + 1) (.leaf .beginning))).1
          (.leaf (.module "m" 0)) ::
            (arrange (List.replicate (n + 1) (.leaf .beginning))).2 := rfl
    rw [htrees] at hshows
    obtain ⟨i, others, node, inside, hroots, found, child⟩ := hshows.each_cons
    obtain ⟨j, hj, hdeep⟩ := Forest.Shows.descends child
    refine ⟨i, ?_, hdeep.of_child found hj⟩
    rw [hroots]
    exact List.mem_cons_self ..

/-- An outline of a program need not come to its end: that of a module with 1100 `begin`s
is nested too deeply. -/
theorem Program.deep_outline_fails :
    ∃ p, ofTokens (beginnings 1100) = .ok p ∧ p.forest.outline = .error .tooDeep ∧
      ¬ ∃ lines, p.forest.outline = .ok lines ∧ lines.length = p.forest.size := by
  obtain ⟨p, hp, i, hi, hdeep⟩ := ofTokens_beginnings 1099
  have hfails := (shaped_of_ofTokens hp).tooDeep ⟨i, hi, hdeep.mono (by decide)⟩
  refine ⟨p, hp, hfails, ?_⟩
  rintro ⟨lines, hlines, -⟩
  rw [hfails] at hlines
  cases hlines

end Pseudocode
