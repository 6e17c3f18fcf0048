import Pseudocode.Forest

/-!
# The trees that a forest shows

The nodes of a forest refer to each other by their places.  `Forest.Shows` follows
the references and says which trees are found: along the siblings from a place on,
or each at a place of its own.  It also lists the places that were visited, in the
order of an outline.  The trees are finite, so what is shown has no cycles.

What is shown depends on the places that were visited and on no others (`Shows.frame`).
That is how the builder is followed: it adds nodes behind all others and changes the
references of one node at a time, and what was shown elsewhere is shown as before.  A node
that is still loose does not stand at a place; `Holds` says which tree it will be.

A stretch of new places is *covered* if each of them was visited just once, in whatever
order.  Stretches that follow one another add up (`Covers.append`), so that in the end all
places of a forest are covered.
-/

namespace Pseudocode

/-- An operator with what is nested in it, and the further branches of a
conditional. -/
inductive Tree (α : Type) where
  | node (operator : α) (nested alternatives : List (Tree α))
      (fallback : Option (Tree α))

namespace Tree

variable {α : Type}

/-- An operator in which nothing is nested. -/
def leaf (operator : α) : Tree α := .node operator [] [] none

/-- The operator of a tree. -/
def operator : Tree α → α
  | .node operator _ _ _ => operator

/-- The trees that are nested in the operator of a tree. -/
def nested : Tree α → List (Tree α)
  | .node _ nested _ _ => nested

/-- A tree with something else nested in its operator. -/
def around (nested : List (Tree α)) : Tree α → Tree α
  | .node operator _ alternatives fallback =>
    .node operator nested alternatives fallback

/-- What is nested in an operator does not change the operator. -/
theorem operator_around (tree : Tree α) (nested : List (Tree α)) :
    (tree.around nested).operator = tree.operator := by
  cases tree
  rfl

end Tree

/-- Where trees can stand: along the siblings from a place on, or each at a place of
its own. -/
inductive Spot where
  | row (start : Option Nat)
  | each (places : List Nat)

namespace Forest

variable {α : Type} {f f' : Forest α}

/-- The trees that a forest shows at a spot, and the places that they take. -/
inductive Shows (f : Forest α) : Spot → List (Tree α) → List Nat → Prop where
  | nothing : Shows f (.row none) [] []
  | operator {i node nested alternatives fallback rest inside further last behind}
      (found : f.nodes[i]? = some node) (told : node.index = some i)
      (child : Shows f (.row node.links.child) nested inside)
      (branches : Shows f (.each node.links.alternatives) alternatives further)
      (otherwise : Shows f (.each node.links.fallback.toList) fallback.toList last)
      (sibling : Shows f (.row node.links.sibling) rest behind) :
      Shows f (.row (some i))
        (.node node.operator nested alternatives fallback :: rest)
        (i :: (inside ++ further ++ last ++ behind))
  | none : Shows f (.each []) [] []
  | alone {i tree places trees used more}
      (first : Shows f (.row (some i)) [tree] used)
      (others : Shows f (.each places) trees more) :
      Shows f (.each (i :: places)) (tree :: trees) (used ++ more)

/-- What is shown depends on the places that were visited, and on no others. -/
theorem Shows.frame {spot : Spot} {trees : List (Tree α)} {used : List Nat}
    (h : f.Shows spot trees used)
    (hsame : ∀ i ∈ used, f'.nodes[i]? = f.nodes[i]?) : f'.Shows spot trees used := by
  induction h with
  | nothing => exact .nothing
  | operator found told child branches otherwise sibling ihc ihb iho ihs =>
    refine .operator ((hsame _ (by simp)).trans found) told (ihc ?_) (ihb ?_) (iho ?_) (ihs ?_)
    all_goals
      intro j hj
      exact hsame j (by simp [hj])
  | none => exact .none
  | alone first others ihf iho =>
    refine .alone (ihf ?_) (iho ?_)
    all_goals
      intro j hj
      exact hsame j (by simp [hj])

/-- The first operator of a row, and what is nested in it. -/
theorem Shows.row_cons {start : Option Nat} {tree : Tree α} {rest : List (Tree α)}
    {used : List Nat} (h : f.Shows (.row start) (tree :: rest) used) :
    ∃ i node inside, start = some i ∧ f.nodes[i]? = some node ∧
      f.Shows (.row node.links.child) tree.nested inside := by
  cases h with
  | operator found _ child => exact ⟨_, _, _, rfl, found, child⟩

/-- The first of some places, and what is nested in the operator there. -/
theorem Shows.each_cons {places : List Nat} {tree : Tree α} {rest : List (Tree α)}
    {used : List Nat} (h : f.Shows (.each places) (tree :: rest) used) :
    ∃ i others node inside, places = i :: others ∧ f.nodes[i]? = some node ∧
      f.Shows (.row node.links.child) tree.nested inside := by
  cases h with
  | alone first others =>
    obtain ⟨_, node, inside, hi, found, child⟩ := first.row_cons
    cases hi
    exact ⟨_, _, node, inside, rfl, found, child⟩

/-- Places one after the other, each for trees of its own. -/
theorem Shows.each_append {places places' : List Nat} {trees trees' : List (Tree α)}
    {used used' : List Nat} (h : f.Shows (.each places) trees used)
    (h' : f.Shows (.each places') trees' used') :
    f.Shows (.each (places ++ places')) (trees ++ trees') (used ++ used') := by
  induction places generalizing trees used with
  | nil =>
    cases h
    exact h'
  | cons i places ih =>
    cases h with
    | alone first others =>
      have hmore := Shows.alone first (ih others)
      rwa [← List.append_assoc] at hmore

/-- A node that is not yet in the forest, with what its references show. -/
structure Holds (f : Forest α) (node : Node α) (tree : Tree α) (used : List Nat) :
    Prop where
  loose : node.index = none
  sibling : node.links.sibling = none
  shown : ∃ nested alternatives fallback inside further last,
    tree = .node node.operator nested alternatives fallback ∧
    f.Shows (.row node.links.child) nested inside ∧
    f.Shows (.each node.links.alternatives) alternatives further ∧
    f.Shows (.each node.links.fallback.toList) fallback.toList last ∧
    used = inside ++ further ++ last

/-- An operator without references is a leaf. -/
theorem holds_leaf (f : Forest α) (operator : α) :
    f.Holds { operator } (.leaf operator) [] :=
  ⟨rfl, rfl, [], [], none, [], [], [], rfl, .nothing, .none, .none, rfl⟩

/-- The tree that a loose node will be has its operator. -/
theorem Holds.operator {node : Node α} {tree : Tree α} {used : List Nat}
    (h : f.Holds node tree used) : tree.operator = node.operator := by
  obtain ⟨-, -, _, _, _, _, _, _, rfl, -⟩ := h
  rfl

/-- A loose node will be the same tree as long as the places below it are as they were. -/
theorem Holds.frame {node : Node α} {tree : Tree α} {used : List Nat}
    (h : f.Holds node tree used)
    (hsame : ∀ i ∈ used, f'.nodes[i]? = f.nodes[i]?) : f'.Holds node tree used := by
  obtain ⟨hloose, hsibling, nested, alternatives, fallback, inside, further, last, htree,
    hchild, hbranches, hlast, rfl⟩ := h
  refine ⟨hloose, hsibling, nested, alternatives, fallback, inside, further, last, htree,
    hchild.frame ?_, hbranches.frame ?_, hlast.frame ?_, rfl⟩
  all_goals
    intro j hj
    exact hsame j (by simp [hj])

/-- A node that is in the forest now, with a row of trees behind it. -/
theorem Holds.shows {node : Node α} {tree : Tree α} {used behind : List Nat}
    {rest : List (Tree α)} (h : f.Holds node tree used) {i : Nat} {next : Option Nat}
    (found : f.nodes[i]? =
      some { node.at i with links := { node.links with sibling := next } })
    (sibling : f.Shows (.row next) rest behind) :
    f.Shows (.row (some i)) (tree :: rest) (i :: (used ++ behind)) := by
  obtain ⟨-, -, nested, alternatives, fallback, inside, further, last, rfl, hchild,
    hbranches, hlast, rfl⟩ := h
  have hshows := Shows.operator found rfl hchild hbranches hlast sibling
  exact hshows

end Forest

/-! ## Stretches of places -/

/-- The places from one on and before another, each once, in some order. -/
structure Covers (used : List Nat) (lo hi : Nat) : Prop where
  le : lo ≤ hi
  perm : used.Perm (List.range' lo (hi - lo))

namespace Covers

variable {used used' : List Nat} {lo mid hi : Nat}

/-- An empty stretch is covered by no places. -/
theorem nil (lo : Nat) : Covers [] lo lo := ⟨Nat.le_refl _, by simp⟩

/-- One place covers itself. -/
theorem single (lo : Nat) : Covers [lo] lo (lo + 1) := ⟨by omega, by simp⟩

/-- Stretches next to each other are covered together. -/
theorem append (h : Covers used lo mid) (h' : Covers used' mid hi) :
    Covers (used ++ used') lo hi := by
  obtain ⟨hle, hperm⟩ := h
  obtain ⟨hle', hperm'⟩ := h'
  refine ⟨Nat.le_trans hle hle', (hperm.append hperm').trans ?_⟩
  have hsum : hi - lo = (mid - lo) + (hi - mid) := by omega
  have hmid : mid = lo + 1 * (mid - lo) := by omega
  rw [hsum, ← List.range'_append, ← hmid]

/-- The order of the visits makes no difference. -/
theorem reorder (h : Covers used lo hi) (hperm : used'.Perm used) : Covers used' lo hi :=
  ⟨h.le, hperm.trans h.perm⟩

/-- The places visited are those of the stretch. -/
theorem mem_iff (h : Covers used lo hi) {i : Nat} : i ∈ used ↔ lo ≤ i ∧ i < hi := by
  rw [h.perm.mem_iff, List.mem_range'_1]
  have := h.le
  omega

/-- An operator that is placed behind what is nested in it. -/
theorem behind (h : Covers used lo mid) (h' : Covers used' (mid + 1) hi) :
    Covers (mid :: (used ++ used')) lo hi := by
  have hall := (h.append (single mid)).append h'
  refine hall.reorder ?_
  rw [List.append_assoc]
  exact List.perm_middle.symm

end Covers

end Pseudocode
