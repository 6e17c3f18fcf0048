import Mathlib.Data.List.Nodup
import Pseudocode.Proofs.Tree

/-!
# The shape of a forest that shows trees

Let a forest show some trees from its roots on, and let these take every place once.
Then every node is referred to exactly once (`references_perm`), by a root or by one
reference of one node.  From that alone a place is reached in at most one way; that it
is reached at all, and that siblings come to an end, is read off the trees, which are
finite.  So there are no cycles, though the places along a path go up and down: what is
nested in a loop is placed before the loop, what is nested in a further branch behind it.

An outline visits the nodes in the order in which the trees are shown, so it has one line
for each of them, unless it gives up because operators are nested too deeply.  How deeply
they are nested is told by how far one can go down (`Descends`).
-/

namespace Pseudocode

/-- All references of a node, in the order of an outline. -/
def Links.references (links : Links) : List Nat :=
  links.child.toList ++ links.alternatives ++ links.fallback.toList ++ links.sibling.toList

/-- The places that a spot names. -/
def Spot.places : Spot → List Nat
  | .row start => start.toList
  | .each places => places

/-- The operators that are nested in a tree, at any level, have one property, and the
alternatives of a conditional have another; a last branch need have neither. -/
inductive Tree.Inside {α : Type} (P Q : α → Prop) : Tree α → Prop where
  | node {operator nested alternatives fallback}
      (row : ∀ tree ∈ nested, P tree.operator) (below : ∀ tree ∈ nested, Inside P Q tree)
      (further : ∀ tree ∈ alternatives, Q tree.operator)
      (branches : ∀ tree ∈ alternatives, Inside P Q tree)
      (otherwise : ∀ tree ∈ Option.toList fallback, Inside P Q tree) :
      Inside P Q (.node operator nested alternatives fallback)

namespace Forest

variable {α : Type} {f : Forest α} {spot : Spot} {trees : List (Tree α)} {used : List Nat}

/-- The references at a place are those of the node there. -/
theorem links_of_found {i : Nat} {node : Node α} (h : f.nodes[i]? = some node) :
    f.links i = node.links := by
  unfold links
  rw [h]
  rfl

/-- Every node that is shown has been told its place. -/
theorem Shows.told (h : f.Shows spot trees used) :
    ∀ i ∈ used, ∀ node, f.nodes[i]? = some node → node.index = some i := by
  induction h with
  | nothing => simp
  | @operator i node nested alternatives fallback rest inside further last behind found
      told _ _ _ _ ihc ihb iho ihs =>
    intro j hj node' hnode'
    simp only [List.mem_cons, List.mem_append] at hj
    rcases hj with rfl | ((hj | hj) | hj) | hj
    · cases Option.some.inj (found.symm.trans hnode')
      exact told
    · exact ihc j hj node' hnode'
    · exact ihb j hj node' hnode'
    · exact iho j hj node' hnode'
    · exact ihs j hj node' hnode'
  | none => simp
  | alone _ _ ihf iho =>
    intro j hj
    rcases List.mem_append.mp hj with hj | hj
    · exact ihf j hj
    · exact iho j hj

/-! ## References

Every link of a node is a reference, and so is every root.  In a forest that shows trees there
are as many references as nodes, and each node is referred to once. -/

/-- All references of a forest: its roots, and those of its nodes. -/
def references (f : Forest α) : List Nat :=
  f.roots ++ (List.range f.size).flatMap fun i => (f.links i).references

/-- One node refers to another. -/
def Refers (f : Forest α) (i j : Nat) : Prop := j ∈ (f.links i).references

/-- Only what is in the forest refers to something. -/
theorem Refers.lt {i j : Nat} (h : f.Refers i j) : i < f.size := by
  by_cases hlt : i < f.size
  · exact hlt
  · unfold Refers links at h
    rw [Array.getElem?_eq_none (Nat.le_of_not_lt hlt)] at h
    cases h

/-- The places that are shown are those that the spot names and those that the nodes
shown refer to. -/
theorem Shows.perm (h : f.Shows spot trees used) :
    used.Perm (spot.places ++ used.flatMap fun i => (f.links i).references) := by
  induction h with
  | nothing => exact .nil
  | @operator i node nested alternatives fallback rest inside further last behind found _ _
      _ _ _ ihc ihb iho ihs =>
    have hparts := ((ihc.append ihb).append iho).append ihs
    refine List.Perm.cons i (hparts.trans ?_)
    show List.Perm _ (List.flatMap _ _)
    rw [List.flatMap_cons, links_of_found found]
    simp only [List.flatMap_append, Spot.places, Links.references, List.perm_iff_count,
      List.count_append]
    omega
  | none => exact .nil
  | @alone i tree places trees used more _ _ ihf iho =>
    refine (ihf.append iho).trans ?_
    simp only [List.flatMap_append, Spot.places, List.perm_iff_count, List.count_append,
      List.count_cons, Option.toList_some, List.count_nil]
    omega

/-- If all places are shown from the roots on, everything is referred to just once. -/
theorem references_perm (h : f.Shows (.each f.roots) trees used)
    (hcovers : Covers used 0 f.size) : f.references.Perm (List.range f.size) := by
  have hused : used.Perm (List.range f.size) := by
    rw [List.range_eq_range']
    exact hcovers.perm
  have hall := h.perm.symm.trans hused
  refine List.Perm.trans ?_ hall
  exact (hused.flatMap_right _).symm.append_left f.roots

/-! ## Paths

A node that is referred to once has one way up, so there is one path to it from the roots and
no way around in a circle. -/

/-- A place is reached from a root along references; the path is listed from its end. -/
inductive Reached (f : Forest α) : List Nat → Nat → Prop where
  | root {i} (root : i ∈ f.roots) : Reached f [i] i
  | step {path i j} (before : Reached f path i) (refers : f.Refers i j) :
      Reached f (j :: path) j

/-- What is shown is reached if the spot is. -/
theorem Shows.reached (h : f.Shows spot trees used)
    (hspot : ∀ i ∈ spot.places, ∃ path, f.Reached path i) :
    ∀ i ∈ used, ∃ path, f.Reached path i := by
  induction h with
  | nothing => exact hspot
  | @operator i node nested alternatives fallback rest inside further last behind found _ _
      _ _ _ ihc ihb iho ihs =>
    obtain ⟨path, hpath⟩ := hspot i (by simp [Spot.places])
    have hnext : ∀ {places : List Nat}, (∀ j ∈ places, j ∈ node.links.references) →
        ∀ j ∈ places, ∃ path, f.Reached path j := by
      intro places hplaces j hj
      refine ⟨j :: path, .step hpath ?_⟩
      unfold Refers
      rw [links_of_found found]
      exact hplaces j hj
    have hinside := ihc (hnext fun j hj => by
      simp only [Spot.places] at hj
      simp [Links.references, hj])
    have hfurther := ihb (hnext fun j hj => by
      simp only [Spot.places] at hj
      simp [Links.references, hj])
    have hlast := iho (hnext fun j hj => by
      simp only [Spot.places] at hj
      simp [Links.references, hj])
    have hbehind := ihs (hnext fun j hj => by
      simp only [Spot.places] at hj
      simp [Links.references, hj])
    intro j hj
    simp only [List.mem_cons, List.mem_append] at hj
    rcases hj with rfl | ((hj | hj) | hj) | hj
    · exact ⟨path, hpath⟩
    · exact hinside j hj
    · exact hfurther j hj
    · exact hlast j hj
    · exact hbehind j hj
  | none => exact hspot
  | @alone i tree places trees used more _ _ ihf iho =>
    intro j hj
    rcases List.mem_append.mp hj with hj | hj
    · refine ihf (fun k hk => hspot k ?_) j hj
      simp only [Spot.places, Option.toList_some, List.mem_singleton] at hk
      simp [Spot.places, hk]
    · exact iho (fun k hk => hspot k (List.mem_cons_of_mem _ hk)) j hj

/-- A root is referred to by no node. -/
theorem Refers.not_root {i j : Nat} (h : f.Refers i j) (hnodup : f.references.Nodup) :
    j ∉ f.roots := by
  intro hroot
  obtain ⟨-, -, hdisjoint⟩ := List.nodup_append.mp hnodup
  exact hdisjoint j hroot j (List.mem_flatMap.mpr ⟨i, List.mem_range.mpr h.lt, h⟩) rfl

/-- A place is referred to by one node at most. -/
theorem Refers.unique {i i' j : Nat} (h : f.Refers i j) (h' : f.Refers i' j)
    (hnodup : f.references.Nodup) : i = i' := by
  obtain ⟨-, hnodes, -⟩ := List.nodup_append.mp hnodup
  obtain ⟨-, hpairs⟩ := List.nodup_flatMap.mp hnodes
  have hapart : ∀ {i i' : Nat}, f.Refers i j → f.Refers i' j → ¬ i < i' := by
    intro i i' h h' hlt
    have hdisjoint := List.pairwise_iff_getElem.mp hpairs i i' (by simpa using h.lt)
      (by simpa using h'.lt) hlt
    rw [List.getElem_range, List.getElem_range] at hdisjoint
    exact hdisjoint h h'
  have hle := hapart h h'
  have hge := hapart h' h
  omega

/-- A place is reached in one way only. -/
theorem Reached.unique {path path' : List Nat} {i : Nat} (h : f.Reached path i)
    (h' : f.Reached path' i) (hnodup : f.references.Nodup) : path = path' := by
  induction h generalizing path' with
  | root root =>
    cases h' with
    | root => rfl
    | step before refers => exact absurd root (refers.not_root hnodup)
  | step before refers ih =>
    cases h' with
    | root root => exact absurd root (refers.not_root hnodup)
    | step before' refers' =>
      cases refers.unique refers' hnodup
      rw [ih before']

/-- What is behind a place that is reached is reached by a longer path. -/
theorem Reached.extend {path : List Nat} {i j : Nat} (h : f.Reached path i)
    (hsteps : Relation.TransGen f.Refers i j) :
    ∃ more, more ≠ [] ∧ f.Reached (more ++ path) j := by
  induction hsteps with
  | single hstep => exact ⟨[_], by simp, .step h hstep⟩
  | tail _ hstep ih =>
    obtain ⟨more, -, hmore⟩ := ih
    exact ⟨_ :: more, by simp, .step hmore hstep⟩

/-- Where everything is reached in one way, there is no cycle. -/
theorem not_transGen_refers (hnodup : f.references.Nodup)
    (hreached : ∀ i < f.size, ∃ path, f.Reached path i) (i : Nat) :
    ¬ Relation.TransGen f.Refers i i := by
  intro hcycle
  have hfrom : ∀ {j}, Relation.TransGen f.Refers i j → i < f.size := by
    intro j hsteps
    induction hsteps with
    | single hstep => exact hstep.lt
    | tail _ _ ih => exact ih
  have hlt := hfrom hcycle
  obtain ⟨path, hpath⟩ := hreached i hlt
  obtain ⟨more, hmore, hlonger⟩ := hpath.extend hcycle
  have hsame := hlonger.unique hpath hnodup
  exact hmore (List.append_left_eq_self.mp hsame)

/-! ## Siblings

The siblings from a place on are a chain that ends, so that a walk along them need not be
bounded by more than the number of nodes. -/

/-- The siblings from a place on, up to the last. -/
inductive Chain (f : Forest α) : Option Nat → List Nat → Prop where
  | ends : Chain f none []
  | goes {i node rest} (found : f.nodes[i]? = some node)
      (more : Chain f node.links.sibling rest) : Chain f (some i) (i :: rest)

/-- A chain is followed to its end if the limit allows it. -/
theorem Chain.siblingsWithin {start : Option Nat} {places : List Nat}
    (h : f.Chain start places) {limit : Nat} (hlimit : places.length ≤ limit) :
    f.siblingsWithin limit start = places := by
  induction h generalizing limit with
  | ends => cases limit <;> rfl
  | goes found more ih =>
    cases limit with
    | zero => simp at hlimit
    | succ limit =>
      unfold Forest.siblingsWithin
      rw [links_of_found found, ih (by simpa using hlimit)]

/-- A row of trees is a chain. -/
theorem Shows.chain {start : Option Nat} (h : f.Shows (.row start) trees used) :
    ∃ places, f.Chain start places ∧ places.Sublist used ∧ places.length = trees.length := by
  generalize hspot : Spot.row start = spot at h
  induction h generalizing start with
  | nothing =>
    cases hspot
    exact ⟨[], .ends, .slnil, rfl⟩
  | operator found _ _ _ _ _ _ _ _ ihs =>
    cases hspot
    obtain ⟨places, hchain, hsub, hlength⟩ := ihs rfl
    refine ⟨_ :: places, .goes found hchain, ?_, by simp [hlength]⟩
    exact (hsub.trans (List.sublist_append_right _ _)).cons_cons _
  | none => cases hspot
  | alone => cases hspot

/-- There is an operator with a property at a place. -/
def Has (f : Forest α) (P : α → Prop) (i : Nat) : Prop :=
  ∃ node, f.nodes[i]? = some node ∧ P node.operator

/-- What a node refers to: only operators with one property follow each other or are
nested, and the alternatives have another. -/
structure Linked (f : Forest α) (P Q : α → Prop) (node : Node α) : Prop where
  child : ∀ j, node.links.child = some j → f.Has P j
  sibling : ∀ j, node.links.sibling = some j → P node.operator ∧ f.Has P j
  alternatives : ∀ j ∈ node.links.alternatives, f.Has Q j

/-- The operator of a tree is at the place where the tree is shown. -/
theorem Shows.has_first {P : α → Prop} {i : Nat}
    (h : f.Shows (.row (some i)) trees used) (hrow : ∀ tree ∈ trees, P tree.operator) :
    f.Has P i := by
  cases h with
  | operator found => exact ⟨_, found, hrow _ (List.mem_cons_self ..)⟩

/-- The operators of trees at places of their own are at these places. -/
theorem Shows.has_each {P : α → Prop} {places : List Nat}
    (h : f.Shows (.each places) trees used) (heach : ∀ tree ∈ trees, P tree.operator) :
    ∀ j ∈ places, f.Has P j := by
  induction places generalizing trees used with
  | nil => simp
  | cons i places ih =>
    cases h with
    | alone first others =>
      obtain ⟨htree, hrest⟩ := List.forall_mem_cons.mp heach
      exact List.forall_mem_cons.mpr ⟨first.has_first (by simpa using htree), ih others hrest⟩

/-- What holds of the trees that are shown holds of the references, too. -/
theorem Shows.linked {P Q : α → Prop} (h : f.Shows spot trees used)
    (hinside : ∀ tree ∈ trees, tree.Inside P Q)
    (hrow : (∃ start, spot = .row start) →
      trees.length ≤ 1 ∨ ∀ tree ∈ trees, P tree.operator) :
    ∀ i ∈ used, ∀ node, f.nodes[i]? = some node → f.Linked P Q node := by
  induction h with
  | nothing => simp
  | @operator i node nested alternatives fallback rest inside further last behind found
      _ child branches _ sibling ihc ihb iho ihs =>
    obtain ⟨htree, hrest⟩ := List.forall_mem_cons.mp hinside
    obtain ⟨row, below, hfurther, hbranches, hotherwise⟩ := htree
    intro j hj node' hnode'
    simp only [List.mem_cons, List.mem_append] at hj
    rcases hj with rfl | ((hj | hj) | hj) | hj
    · cases Option.some.inj (found.symm.trans hnode')
      refine ⟨fun k hk => ?_, fun k hk => ?_, branches.has_each hfurther⟩
      · rw [hk] at child
        exact child.has_first row
      · rw [hk] at sibling
        rcases hrow ⟨_, rfl⟩ with hone | hall
        · -- a tree that stands alone has no sibling
          cases List.length_eq_zero_iff.mp (Nat.le_zero.mp (Nat.le_of_succ_le_succ hone))
          cases sibling
        · obtain ⟨hfirst, hothers⟩ := List.forall_mem_cons.mp hall
          exact ⟨hfirst, sibling.has_first hothers⟩
    · exact ihc below (fun _ => .inr row) j hj node' hnode'
    · exact ihb hbranches (by simp) j hj node' hnode'
    · exact iho hotherwise (by simp) j hj node' hnode'
    · refine ihs hrest (fun _ => ?_) j hj node' hnode'
      rcases hrow ⟨_, rfl⟩ with hone | hall
      · exact .inl (Nat.le_of_succ_le hone)
      · exact .inr fun tree htree => hall tree (List.mem_cons_of_mem _ htree)
  | none => simp
  | @alone i tree places trees used more _ _ ihf iho =>
    obtain ⟨htree, hrest⟩ := List.forall_mem_cons.mp hinside
    intro j hj node hnode
    rcases List.mem_append.mp hj with hj | hj
    · exact ihf (by simpa using htree) (fun _ => .inl (Nat.le_refl _)) j hj node hnode
    · exact iho hrest (by simp) j hj node hnode

/-- What is shown from a place on, for each place that is shown. -/
theorem Shows.from (h : f.Shows spot trees used) :
    ∀ i ∈ used, ∃ tree rest used', f.Shows (.row (some i)) (tree :: rest) used' ∧
      used'.Sublist used := by
  induction h with
  | nothing => simp
  | @operator i node nested alternatives fallback rest inside further last behind found
      told child branches otherwise sibling ihc ihb iho ihs =>
    have hpart : ∀ {part : List Nat}, part.Sublist (inside ++ further ++ last ++ behind) →
        (∀ j ∈ part, ∃ tree rest used', f.Shows (.row (some j)) (tree :: rest) used' ∧
          used'.Sublist part) →
        ∀ j ∈ part, ∃ tree rest used', f.Shows (.row (some j)) (tree :: rest) used' ∧
          used'.Sublist (i :: (inside ++ further ++ last ++ behind)) := by
      intro part hpart ih j hj
      obtain ⟨tree, rest, used', hshows, hsub⟩ := ih j hj
      exact ⟨tree, rest, used', hshows, (hsub.trans hpart).cons _⟩
    intro j hj
    simp only [List.mem_cons, List.mem_append] at hj
    rcases hj with rfl | ((hj | hj) | hj) | hj
    · exact ⟨_, rest, _, .operator found told child branches otherwise sibling, .refl _⟩
    · refine hpart ?_ ihc j hj
      simp only [List.append_assoc]
      exact List.sublist_append_left _ _
    · refine hpart ?_ ihb j hj
      simp only [List.append_assoc]
      exact (List.sublist_append_left _ _).trans (List.sublist_append_right _ _)
    · refine hpart ?_ iho j hj
      exact (List.sublist_append_right _ _).trans (List.sublist_append_left _ _)
    · exact hpart (List.sublist_append_right _ _) ihs j hj
  | none => simp
  | alone _ _ ihf iho =>
    intro j hj
    rcases List.mem_append.mp hj with hj | hj
    · obtain ⟨tree, rest, used', hshows, hsub⟩ := ihf j hj
      exact ⟨tree, rest, used', hshows, hsub.trans (List.sublist_append_left _ _)⟩
    · obtain ⟨tree, rest, used', hshows, hsub⟩ := iho j hj
      exact ⟨tree, rest, used', hshows, hsub.trans (List.sublist_append_right _ _)⟩

/-- Siblings come to an end, and are all found. -/
theorem siblings_chain (h : f.Shows spot trees used) (hcovers : Covers used 0 f.size)
    {start : Option Nat} (hstart : ∀ i, start = some i → i < f.size) :
    f.Chain start (f.siblings start) := by
  unfold siblings
  cases start with
  | none =>
    rw [Chain.ends.siblingsWithin (Nat.zero_le _)]
    exact .ends
  | some i =>
    have hi : i ∈ used := hcovers.mem_iff.mpr ⟨Nat.zero_le _, hstart i rfl⟩
    obtain ⟨tree, rest, used', hshows, hsub⟩ := h.from i hi
    obtain ⟨places, hchain, hplaces, -⟩ := hshows.chain
    have hlength : places.length ≤ f.size := by
      have hle := (hplaces.trans hsub).length_le
      rwa [hcovers.perm.length_eq, List.length_range'] at hle
    rwa [hchain.siblingsWithin hlength]

/-! ## Outlines

An outline visits a node, what is nested in it one level further in, and its further branches
at its own level.  It has a line for each node unless it goes down too far. -/

/-- From a node one can go down so many levels. -/
inductive Descends (f : Forest α) : Nat → Nat → Prop where
  | here {i} : Descends f 0 i
  | down {levels i j}
      (inside : j ∈ f.children i ++ ((f.links i).alternatives ++ (f.links i).fallback.toList))
      (further : Descends f levels j) : Descends f (levels + 1) i

/-- One level more than from the first nested operator. -/
theorem Descends.of_child {levels i j : Nat} {node : Node α}
    (found : f.nodes[i]? = some node) (hchild : node.links.child = some j)
    (h : f.Descends levels j) : f.Descends (levels + 1) i := by
  have hsize : 0 < f.size :=
    Nat.lt_of_le_of_lt (Nat.zero_le i) (Array.getElem?_eq_some_iff.mp found).1
  obtain ⟨limit, hlimit⟩ := Nat.exists_eq_add_of_lt hsize
  refine .down (List.mem_append_left _ ?_) h
  unfold children siblings
  rw [links_of_found found, hchild, hlimit]
  exact List.mem_cons_self ..

/-- Who can go down some levels can go down fewer. -/
theorem Descends.mono {levels fewer i : Nat} (h : f.Descends levels i)
    (hle : fewer ≤ levels) : f.Descends fewer i := by
  induction h generalizing fewer with
  | here =>
    rw [Nat.le_zero.mp hle]
    exact .here
  | down inside _ ih =>
    cases fewer with
    | zero => exact .here
    | succ fewer => exact .down inside (ih (Nat.le_of_succ_le_succ hle))

section

variable [Captioned α]

/-- The line of a node in an outline. -/
def Line (f : Forest α) (i : Nat) (line : String) : Prop :=
  ∃ depth, line = String.ofList (List.replicate (2 * depth) ' ') ++ f.lineAt i

/-- Places that are visited one after the other: one of them is too deep, or all give
something. -/
theorem mapM_outcome {β : Type} {g : Nat → Except Fault β} {deep : Nat → Prop}
    (h : ∀ i, (deep i ∧ g i = .error .tooDeep) ∨ (¬ deep i ∧ ∃ b, g i = .ok b))
    (places : List Nat) :
    ((∃ i ∈ places, deep i) ∧ places.mapM g = .error .tooDeep) ∨
      ((∀ i ∈ places, ¬ deep i) ∧ ∃ bs, places.mapM g = .ok bs) := by
  induction places with
  | nil => exact .inr ⟨by simp, [], rfl⟩
  | cons i places ih =>
    rw [List.mapM_cons]
    rcases h i with ⟨hdeep, hrun⟩ | ⟨hfine, b, hrun⟩
    · rw [hrun]
      exact .inl ⟨⟨i, List.mem_cons_self .., hdeep⟩, rfl⟩
    · rcases ih with ⟨⟨j, hj, hdeep⟩, hrest⟩ | ⟨hrest, bs, hbs⟩
      · rw [hrun, hrest]
        exact .inl ⟨⟨j, List.mem_cons_of_mem _ hj, hdeep⟩, rfl⟩
      · rw [hrun, hbs]
        exact .inr ⟨List.forall_mem_cons.mpr ⟨hfine, hrest⟩, b :: bs, rfl⟩

/-- The outline of a tree gives up exactly if one can go down as far as the limit. -/
theorem outlineFrom_outcome (f : Forest α) : ∀ (limit depth i : Nat),
    (f.Descends limit i ∧ f.outlineFrom limit depth i = .error .tooDeep) ∨
      (¬ f.Descends limit i ∧ ∃ lines, f.outlineFrom limit depth i = .ok lines)
  | 0, depth, i => .inl ⟨.here, rfl⟩
  | limit + 1, depth, i => by
    unfold outlineFrom
    dsimp only
    have hnested := mapM_outcome (outlineFrom_outcome f limit (depth + 1)) (f.children i)
    have hbranches := mapM_outcome (outlineFrom_outcome f limit depth)
      ((f.links i).alternatives ++ (f.links i).fallback.toList)
    rcases hnested with ⟨⟨j, hj, hdeep⟩, hrun⟩ | ⟨hshallow, nested, hrun⟩
    · rw [hrun]
      exact .inl ⟨.down (List.mem_append_left _ hj) hdeep, rfl⟩
    rcases hbranches with ⟨⟨j, hj, hdeep⟩, hrun'⟩ | ⟨hshallow', branches, hrun'⟩
    · rw [hrun, hrun']
      exact .inl ⟨.down (List.mem_append_right _ hj) hdeep, rfl⟩
    · rw [hrun, hrun']
      refine .inr ⟨fun hdescends => ?_, _, rfl⟩
      cases hdescends with
      | down inside further =>
        rcases List.mem_append.mp inside with hj | hj
        · exact hshallow _ hj further
        · exact hshallow' _ hj further

/-- A sequence of results is there exactly if both of them are. -/
theorem except_bind_ok {ε β γ : Type} {x : Except ε β} {g : β → Except ε γ} {c : γ} :
    (x >>= g) = .ok c ↔ ∃ b, x = .ok b ∧ g b = .ok c := by
  cases x with
  | error e => simp [bind, Except.bind]
  | ok b => simp [bind, Except.bind]

/-- The lines of places, whatever the limit and the depth are. -/
def Outlined (f : Forest α) (places used : List Nat) : Prop :=
  ∀ limit depth trees, places.mapM (f.outlineFrom limit depth) = .ok trees →
    List.Forall₂ f.Line used trees.flatten

/-- No places have no lines. -/
theorem outlined_nil (f : Forest α) : f.Outlined [] [] := by
  intro limit depth trees h
  cases h
  exact .nil

/-- Places one after the other have their lines one after the other. -/
theorem Outlined.append {places places' used used' : List Nat} (h : f.Outlined places used)
    (h' : f.Outlined places' used') : f.Outlined (places ++ places') (used ++ used') := by
  intro limit depth trees hrun
  rw [List.mapM_append, except_bind_ok] at hrun
  obtain ⟨first, hfirst, hrun⟩ := hrun
  rw [except_bind_ok] at hrun
  obtain ⟨rest, hrest, hrun⟩ := hrun
  cases hrun
  rw [List.flatten_append]
  exact List.rel_append (h limit depth first hfirst) (h' limit depth rest hrest)

/-- A node's outline: its own line, what is nested, and the further branches. -/
theorem outlined_node {i : Nat} {inside further last : List Nat}
    (hchild : f.Outlined (f.children i) inside)
    (hbranches : f.Outlined (f.links i).alternatives further)
    (hlast : f.Outlined (f.links i).fallback.toList last) :
    f.Outlined [i] (i :: (inside ++ further ++ last)) := by
  intro limit depth trees hrun
  cases limit with
  | zero => cases hrun
  | succ limit =>
    rw [List.mapM_cons, List.mapM_nil, except_bind_ok] at hrun
    obtain ⟨lines, hlines, hrun⟩ := hrun
    cases hrun
    rw [outlineFrom, except_bind_ok] at hlines
    obtain ⟨nested, hnested, hlines⟩ := hlines
    rw [except_bind_ok] at hlines
    obtain ⟨branches, hfurther, hlines⟩ := hlines
    cases hlines
    simp only [List.flatten_cons, List.flatten_nil, List.append_nil, List.flatten_append,
      List.append_assoc]
    refine .cons ⟨depth, rfl⟩ (List.rel_append (hchild limit _ nested hnested) ?_)
    exact (hbranches.append hlast) limit depth branches hfurther

/-- The places that an outline visits at a spot. -/
def Visits (f : Forest α) : Spot → List Nat → Prop
  | .row start, places => f.Chain start places
  | .each places, places' => places' = places

/-- An outline has the lines of the nodes that are shown, in their order. -/
theorem Shows.outlined (h : f.Shows spot trees used)
    (hchain : ∀ i ∈ used, f.Chain (f.links i).child (f.children i)) :
    ∀ places, f.Visits spot places → f.Outlined places used := by
  induction h with
  | nothing =>
    intro places hplaces
    cases hplaces
    exact outlined_nil f
  | @operator i node nested alternatives fallback rest inside further last behind found _ _
      _ _ _ ihc ihb iho ihs =>
    intro places hplaces
    cases hplaces with
    | goes found' more =>
      cases Option.some.inj (found.symm.trans found')
      have hlinks := links_of_found found
      have hchild : f.Outlined (f.children i) inside := by
        refine ihc (fun j hj => hchain j (by simp [hj])) _ ?_
        rw [← hlinks]
        exact hchain i (List.mem_cons_self ..)
      have hbranches : f.Outlined (f.links i).alternatives further :=
        ihb (fun j hj => hchain j (by simp [hj])) _ (congrArg Links.alternatives hlinks)
      have hlast : f.Outlined (f.links i).fallback.toList last :=
        iho (fun j hj => hchain j (by simp [hj])) _
          (congrArg (fun links : Links => links.fallback.toList) hlinks)
      have hbehind := ihs (fun j hj => hchain j (by simp [hj])) _ more
      exact (outlined_node hchild hbranches hlast).append hbehind
  | none =>
    intro places hplaces
    cases hplaces
    exact outlined_nil f
  | @alone i tree places trees used more first others ihf iho =>
    intro places' hplaces
    cases hplaces
    obtain ⟨chain, hfirst, -, hlength⟩ := first.chain
    have hone : chain = [i] := by
      cases hfirst with
      | goes found rest =>
        rw [List.length_cons, List.length_singleton] at hlength
        rw [List.length_eq_zero_iff.mp (Nat.succ.inj hlength)]
    subst hone
    exact (ihf (fun j hj => hchain j (by simp [hj])) _ hfirst).append
      (iho (fun j hj => hchain j (by simp [hj])) _ rfl)

/-- What an outline is: it gives up if one can go down from a root as far as the limit,
and else has one line for each node. -/
theorem outline_outcome (h : f.Shows (.each f.roots) trees used)
    (hcovers : Covers used 0 f.size) :
    ((∃ i ∈ f.roots, f.Descends outlineLimit i) ∧ f.outline = .error .tooDeep) ∨
      ((∀ i ∈ f.roots, ¬ f.Descends outlineLimit i) ∧
        ∃ lines, f.outline = .ok lines ∧ List.Forall₂ f.Line used lines) := by
  have hchild : ∀ i ∈ used, f.Chain (f.links i).child (f.children i) := by
    intro i hi
    refine siblings_chain h hcovers fun j hj => ?_
    have hrefers : j ∈ f.references := by
      refine List.mem_append_right _ (List.mem_flatMap.mpr ⟨i, ?_, ?_⟩)
      · exact List.mem_range.mpr (hcovers.mem_iff.mp hi).2
      · simp [Links.references, hj]
    exact List.mem_range.mp ((references_perm h hcovers).mem_iff.mp hrefers)
  unfold outline
  rcases mapM_outcome (outlineFrom_outcome f outlineLimit 0) f.roots with
    ⟨hdeep, hrun⟩ | ⟨hshallow, lines, hrun⟩
  · rw [hrun]
    exact .inl ⟨hdeep, rfl⟩
  · rw [hrun]
    exact .inr ⟨hshallow, _, rfl, h.outlined hchild f.roots rfl _ _ lines hrun⟩

end

end Forest

end Pseudocode
