import Pseudocode.Proofs.Layout.Growth
import Pseudocode.Proofs.Reader
import Pseudocode.Proofs.Table

/-!
# The steps of building a program

What each small step of the builder does to the program and to a chart that
agrees with it: an operator is placed, two operators are linked, a name is
entered into a table.

First the forest.  To take in a child or to be followed succeeds exactly where nothing is
yet, and changes one reference (`adopt_ok`, `follow_ok`); to be put in adds a node behind
all others, which is told its place.  For each there is a lemma about the nodes afterwards,
place by place, and one that the forest has grown.

Then the chart.  `Layout.grow` is the lemma behind all others: if a program has grown and a
chart with it, they agree as soon as what was added does.  So placing an operator asks only
for its own label (`Layout.place`), and linking it only for that of the operator it is
linked to (`Layout.follow`, `Layout.adopt`).
-/

namespace Pseudocode

/-! ## Operators and links

Nodes are placed at the end of the forest and never taken away, and one that has been placed
carries its own place.  A node gets a first child and a sibling at most once each: the builder
checks that the link is still free. -/

namespace Node

variable {α : Type} [Captioned α] {node node' : Node α} {i : Nat}

/-- A node takes in a child exactly if it has none, and nothing else of it changes. -/
theorem adopt_ok : node.adopt i = .ok node' ↔
    node.links.child = none ∧
      node' = { node with links := { node.links with child := some i } } := by
  unfold adopt
  cases node.links.child <;> simp [eq_comm]

/-- A node gets a sibling exactly if it has none, and nothing else of it changes. -/
theorem follow_ok : node.follow i = .ok node' ↔
    node.links.sibling = none ∧
      node' = { node with links := { node.links with sibling := some i } } := by
  unfold follow
  cases node.links.sibling <;> simp [eq_comm]

end Node

namespace Forest

variable {f : Forest Operator} {node : Node Operator} {i j : Nat}

/-- A forest with one more operator, not yet linked to. -/
def placed (f : Forest Operator) (node : Node Operator) : Forest Operator :=
  { f with nodes := f.nodes.push (node.at f.nodes.size) }

/-- A forest in which the references of one operator have changed. -/
def relink (f : Forest Operator) (i : Nat) (change : Links → Links) : Forest Operator :=
  { f with nodes := f.nodes.modify i fun node => { node with links := change node.links } }

/-- A loose node goes behind all others. -/
theorem add_of_loose (h : node.index = none) :
    f.add node = (f.nodes.size, f.placed node) := by
  unfold add
  rw [h]
  rfl

/-- To put a node back with other references is to change its references. -/
theorem set_eq_relink {q : Node Operator} (hq : f.nodes[i]? = some q)
    (change : Links → Links) :
    f.set i { q with links := change q.links } = f.relink i change := by
  have hlt := (Array.getElem?_eq_some_iff.mp hq).1
  have hnodes : f.nodes.setIfInBounds i { q with links := change q.links } =
      f.nodes.modify i fun node => { node with links := change node.links } := by
    apply Array.ext_getElem?
    intro k
    rw [Array.getElem?_setIfInBounds, Array.getElem?_modify]
    by_cases hk : i = k
    · subst hk
      rw [if_pos rfl, if_pos hlt, if_pos rfl, hq]
      rfl
    · rw [if_neg hk, if_neg hk]
  unfold set relink
  rw [hnodes]

/-- A node that is placed leaves the others as they are. -/
theorem nodes_placed (h : i ≠ f.nodes.size) :
    (f.placed node).nodes[i]? = f.nodes[i]? := by
  simp only [placed, Array.getElem?_push, if_neg h]

/-- A node that is placed is behind all others, and knows where. -/
theorem nodes_placed_last :
    (f.placed node).nodes[f.nodes.size]? = some (node.at f.nodes.size) := by
  simp [placed]

/-- A node that is placed is one node more. -/
theorem size_placed : (f.placed node).nodes.size = f.nodes.size + 1 := by
  simp [placed]

/-- What was in the forest still is. -/
theorem found_placed {q : Node Operator} (hq : f.nodes[i]? = some q) :
    (f.placed node).nodes[i]? = some q := by
  have hlt := (Array.getElem?_eq_some_iff.mp hq).1
  rw [nodes_placed (Nat.ne_of_lt hlt), hq]

/-- A node that is placed takes nothing away. -/
theorem grows_placed (f : Forest Operator) (node : Node Operator) :
    f.Grows (f.placed node) := by
  refine ⟨fun i q hi => ⟨q, ?_, .refl q⟩, fun _ h => h⟩
  rwa [nodes_placed]
  intro heq
  subst heq
  simp at hi

/-- Only the references of one node change. -/
theorem nodes_relink (change : Links → Links) :
    (f.relink i change).nodes[j]? =
      if i = j then (f.nodes[j]?).map fun node =>
        { node with links := change node.links }
      else f.nodes[j]? := by
  simp only [relink, Array.getElem?_modify]

/-- No node comes in or goes when references change. -/
theorem size_relink (change : Links → Links) :
    (f.relink i change).nodes.size = f.nodes.size := by
  simp [relink]

/-- Links where there were none. -/
theorem grows_relink {q : Node Operator} {change : Links → Links}
    (hq : f.nodes[i]? = some q) (h : q.Grows { q with links := change q.links }) :
    f.Grows (f.relink i change) := by
  refine ⟨fun j node hj => ?_, fun _ h => h⟩
  rw [nodes_relink]
  split
  · next heq =>
    subst heq
    rw [hq] at hj
    cases hj
    exact ⟨_, by rw [hq]; rfl, h⟩
  · exact ⟨node, hj, .refl node⟩

/-- A forest in which one operator follows another. -/
def followed (f : Forest Operator) (i j : Nat) : Forest Operator :=
  f.relink i fun links => { links with sibling := some j }

/-- A forest in which one operator is the first nested in another. -/
def adopted (f : Forest Operator) (i j : Nat) : Forest Operator :=
  f.relink i fun links => { links with child := some j }

section

variable {q : Node Operator} (hq : f.nodes[i]? = some q)

include hq

/-- The node before has its sibling then. -/
theorem nodes_followed : (f.followed i j).nodes[i]? =
    some { q with links := { q.links with sibling := some j } } := by
  rw [followed, nodes_relink, if_pos rfl, hq]
  rfl

/-- The parent has its child then. -/
theorem nodes_adopted : (f.adopted i j).nodes[i]? =
    some { q with links := { q.links with child := some j } } := by
  rw [adopted, nodes_relink, if_pos rfl, hq]
  rfl

/-- A sibling where there was none takes nothing away. -/
theorem grows_followed (hnone : q.links.sibling = none) : f.Grows (f.followed i j) :=
  grows_relink hq
    ⟨rfl, fun _ h => h, fun _ h => absurd h (by simp [hnone]), rfl, rfl⟩

/-- A child where there was none takes nothing away. -/
theorem grows_adopted (hnone : q.links.child = none) : f.Grows (f.adopted i j) :=
  grows_relink hq
    ⟨rfl, fun _ h => absurd h (by simp [hnone]), fun _ h => h, rfl, rfl⟩

/-- A node without a child takes one in. -/
theorem adopt_of_childless (hnone : q.links.child = none) :
    f.adopt i j = .ok (f.adopted i j) := by
  unfold adopt adopted
  rw [hq, ← set_eq_relink hq]
  simp [Node.adopt, hnone, Except.map]

/-- A node that nothing follows can be followed. -/
theorem follow_of_last (hnone : q.links.sibling = none) :
    f.follow i j = .ok (f.followed i j) := by
  unfold follow followed
  rw [hq, ← set_eq_relink hq]
  simp [Node.follow, hnone, Except.map]

/-- A node goes in below one in which nothing is nested. -/
theorem insert_below (hloose : node.index = none) (hnone : q.links.child = none) :
    f.insert (some i) node true =
      .ok (f.nodes.size, (f.placed node).adopted i f.nodes.size) := by
  unfold insert
  rw [add_of_loose hloose]
  show ((f.placed node).adopt i f.nodes.size >>= fun f' => .ok (f.nodes.size, f')) = _
  rw [adopt_of_childless (found_placed hq) hnone]
  rfl

/-- A node goes in behind one that nothing follows. -/
theorem insert_behind (hloose : node.index = none) (hnone : q.links.sibling = none) :
    f.insert (some i) node false =
      .ok (f.nodes.size, (f.placed node).followed i f.nodes.size) := by
  unfold insert
  rw [add_of_loose hloose]
  show ((f.placed node).follow i f.nodes.size >>= fun f' => .ok (f.nodes.size, f')) = _
  rw [follow_of_last (found_placed hq) hnone]
  rfl

end

/-- All other nodes are as before when one is followed. -/
theorem nodes_followed_ne {k : Nat} (h : i ≠ k) :
    (f.followed i j).nodes[k]? = f.nodes[k]? := by
  rw [followed, nodes_relink, if_neg h]

/-- All other nodes are as before when one takes in a child. -/
theorem nodes_adopted_ne {k : Nat} (h : i ≠ k) :
    (f.adopted i j).nodes[k]? = f.nodes[k]? := by
  rw [adopted, nodes_relink, if_neg h]

/-- A place takes in a child exactly if there is a node without one. -/
theorem adopt_ok {f' : Forest Operator} (h : f.adopt i j = .ok f') :
    ∃ q, f.nodes[i]? = some q ∧ q.links.child = none ∧ f' = f.adopted i j := by
  unfold adopt at h
  split at h
  · cases h
  · next q hq =>
    obtain ⟨q', hq', rfl⟩ := map_eq_ok.mp h
    obtain ⟨hnone, rfl⟩ := Node.adopt_ok.mp hq'
    exact ⟨q, hq, hnone, set_eq_relink hq fun links => { links with child := some j }⟩

/-- A place is followed exactly if there is a node that nothing follows. -/
theorem follow_ok {f' : Forest Operator} (h : f.follow i j = .ok f') :
    ∃ q, f.nodes[i]? = some q ∧ q.links.sibling = none ∧ f' = f.followed i j := by
  unfold follow at h
  split at h
  · cases h
  · next q hq =>
    obtain ⟨q', hq', rfl⟩ := map_eq_ok.mp h
    obtain ⟨hnone, rfl⟩ := Node.follow_ok.mp hq'
    exact ⟨q, hq, hnone, set_eq_relink hq fun links => { links with sibling := some j }⟩

/-- A node goes in behind the others and is linked to, or is a root. -/
theorem insert_ok {previous : Option Nat} {asChild : Bool} {r : Nat × Forest Operator}
    (hloose : node.index = none) (h : f.insert previous node asChild = .ok r) :
    r.1 = f.nodes.size ∧
      match previous with
      | none => r.2 = { f.placed node with roots := f.roots ++ [f.nodes.size] }
      | some q =>
        if asChild then (f.placed node).adopt q f.nodes.size = .ok r.2
        else (f.placed node).follow q f.nodes.size = .ok r.2 := by
  unfold insert at h
  rw [add_of_loose hloose] at h
  cases previous with
  | none =>
    cases h
    exact ⟨rfl, rfl⟩
  | some q =>
    cases asChild with
    | true =>
      change ((f.placed node).adopt q f.nodes.size >>= fun f' =>
        Except.ok (f.nodes.size, f')) = _ at h
      cases hadopt : (f.placed node).adopt q f.nodes.size with
      | error fault => simp [hadopt, bind, Except.bind] at h
      | ok f' =>
        rw [hadopt] at h
        cases h
        exact ⟨rfl, hadopt⟩
    | false =>
      change ((f.placed node).follow q f.nodes.size >>= fun f' =>
        Except.ok (f.nodes.size, f')) = _ at h
      cases hfollow : (f.placed node).follow q f.nodes.size with
      | error fault => simp [hfollow, bind, Except.bind] at h
      | ok f' =>
        rw [hfollow] at h
        cases h
        exact ⟨rfl, hfollow⟩

end Forest

/-! ## Programs with a chart

A chart grows by a label whenever a node is placed.  Links do not change what a label says, so
the layout stays, up to the conditions on the node that was linked. -/

/-- A program grows with its forest. -/
theorem Program.grows_forest {p : Program} {f : Forest Operator}
    (h : p.forest.Grows f) : p.Grows { p with forest := f } :=
  ⟨h, fun _ _ _ hv => hv, fun _ m hm => ⟨m, hm, rfl⟩, fun _ g hg => ⟨g, hg, fun _ h => h⟩⟩

/-- A chart with one more label. -/
def Chart.labelled (c : Chart) (label : Option Label) : Chart :=
  { c with labels := c.labels ++ [label] }

/-- A chart with one more label has lost nothing. -/
theorem Chart.grows_labelled (c : Chart) (label : Option Label) :
    c.Grows (c.labelled label) :=
  ⟨List.prefix_append .., List.prefix_refl _⟩

/-- A chart does not say where an operator stands. -/
theorem Chart.Fits.at {c : Chart} {p : Program} {label : Label} {node : Node Operator}
    (h : c.Fits p label node) (i : Nat) : c.Fits p label (node.at i) :=
  ⟨h.uses, h.declares, h.inner, h.allowed, h.sibling, h.main, h.child, h.branches,
    h.fallback⟩

namespace Layout

variable {p p' : Program} {c c' : Chart}

/-- The operator that comes in next has the label that was added. -/
theorem marks_labelled (h : Layout p c) (label : Label) :
    (c.labelled (some label)).Marks p.forest.nodes.size label := by
  unfold Chart.Marks Chart.labelled
  rw [← h.labels]
  simp

/-- A label of a chart with one more is the new one or an old one. -/
theorem of_marks_labelled (h : Layout p c) {new : Option Label} {i : Nat}
    {label : Label} (hmarks : (c.labelled new).Marks i label) :
    (i = p.forest.nodes.size ∧ new = some label) ∨
      (i < p.forest.nodes.size ∧ c.Marks i label) := by
  unfold Chart.Marks Chart.labelled at hmarks
  rw [← h.labels]
  by_cases hlt : i < c.labels.length
  · right
    rw [List.getElem?_append_left hlt] at hmarks
    exact ⟨hlt, hmarks⟩
  · left
    rw [List.getElem?_append_right (Nat.le_of_not_lt hlt)] at hmarks
    have hi : i - c.labels.length = 0 := by
      have := (List.getElem?_eq_some_iff.mp hmarks).1
      simpa using this
    rw [hi] at hmarks
    exact ⟨by omega, by simpa using hmarks⟩

/-- Where no operator was added, none needs a label. -/
theorem none_added (hsize : p'.forest.nodes.size = p.forest.nodes.size) :
    ∀ i node, p.forest.nodes.size ≤ i → p'.forest.nodes[i]? = some node →
      node.operator.Labelled → ∃ label, c'.Marks i label := by
  intro i node hle hnode
  have hlt := (Array.getElem?_eq_some_iff.mp hnode).1
  rw [hsize] at hlt
  exact absurd hlt (Nat.not_lt.mpr hle)

/-- Where one was added, it has the label that was added if it needs one. -/
theorem one_added (h : Layout p c) {node : Node Operator} {new : Option Label}
    (hnodes : p'.forest.nodes = (p.forest.placed node).nodes)
    (hnone : new = none → ¬ node.operator.Labelled) :
    ∀ i node, p.forest.nodes.size ≤ i → p'.forest.nodes[i]? = some node →
      node.operator.Labelled → ∃ label, (c.labelled new).Marks i label := by
  intro i node' hle hnode hlabelled
  rw [hnodes] at hnode
  have hlt := (Array.getElem?_eq_some_iff.mp hnode).1
  rw [Forest.size_placed] at hlt
  obtain rfl : i = p.forest.nodes.size := by omega
  cases hnode.symm.trans Forest.nodes_placed_last
  cases new with
  | none => exact absurd hlabelled (hnone rfl)
  | some label => exact ⟨label, h.marks_labelled label⟩

/-- After a step of building a chart still agrees where nothing was added, so it
is enough to look at what is new. -/
theorem grow (h : Layout p c) (hp : p.Grows p') (hc : c.Grows c')
    (hlabels : c'.labels.length = p'.forest.nodes.size)
    (hnotes : c'.notes.length = p'.functions.size)
    (hnodes : ∀ i label node, c'.Marks i label → p'.forest.nodes[i]? = some node →
      (c.Marks i label ∧ p.forest.nodes[i]? = some node) ∨ c'.Fits p' label node)
    (hfunctions : ∀ n f, p'.functions[n]? = some f → p.functions[n]? = some f ∨
      ∃ note, c'.notes[n]? = some note ∧ c'.FitsFunction p' n f note)
    (hroots : ∀ root ∈ p'.forest.roots,
      (root ∈ p.forest.roots ∧ p'.forest.nodes[root]? = p.forest.nodes[root]?) ∨
        ∃ node, p'.forest.nodes[root]? = some node ∧ c'.FitsRoot p' node)
    (hnew : ∀ i node, p.forest.nodes.size ≤ i → p'.forest.nodes[i]? = some node →
      node.operator.Labelled → ∃ label, c'.Marks i label) :
    Layout p' c' where
  labels := hlabels
  notes := hnotes
  nodes i label node hmarks hnode := by
    obtain ⟨hmarks', hnode'⟩ | hfits := hnodes i label node hmarks hnode
    · exact (h.nodes i label node hmarks' hnode').grow hc hp
    · exact hfits
  marked i node hnode hlabelled := by
    rcases Nat.lt_or_ge i p.forest.nodes.size with hlt | hle
    · obtain ⟨node', hnode', hgrows⟩ := hp.forest.nodes i _ (Array.getElem?_eq_getElem hlt)
      cases hnode.symm.trans hnode'
      rw [hgrows.operator] at hlabelled
      obtain ⟨label, hmarks⟩ := h.marked i _ (Array.getElem?_eq_getElem hlt) hlabelled
      exact ⟨label, hmarks.grow hc⟩
    · exact hnew i node hle hnode hlabelled
  functions n f hf := by
    obtain hf' | hfits := hfunctions n f hf
    · obtain ⟨note, hnote, hfits⟩ := h.functions n f hf'
      exact ⟨note, hc.note hnote, hfits.grow hc hp⟩
    · exact hfits
  roots root hroot := by
    obtain ⟨hroot', hsame⟩ | hfits := hroots root hroot
    · obtain ⟨node, hnode, hfits⟩ := h.roots root hroot'
      exact ⟨node, hsame.trans hnode, hfits.grow hc hp⟩
    · exact hfits

/-- An operator is placed with the label that it agrees with, or with none. -/
theorem place (h : Layout p c) {node : Node Operator} {new : Option Label}
    (hfits : ∀ label, new = some label → c.Fits p label node)
    (hnone : new = none → ¬ node.operator.Labelled) :
    Layout { p with forest := p.forest.placed node } (c.labelled new) := by
  have hgrows := Program.grows_forest (p.forest.grows_placed node)
  have hold : ∀ i < p.forest.nodes.size,
      (p.forest.placed node).nodes[i]? = p.forest.nodes[i]? :=
    fun i hi => Forest.nodes_placed (Nat.ne_of_lt hi)
  refine h.grow hgrows (c.grows_labelled new) ?_ h.notes ?_ (fun _ _ hf => .inl hf) ?_
    (h.one_added rfl hnone)
  · show (c.labels ++ [new]).length = (p.forest.placed node).nodes.size
    rw [Forest.size_placed, List.length_append, h.labels]
    rfl
  · intro i label node' hmarks hnode'
    obtain ⟨rfl, hnew⟩ | ⟨hlt, hmarks'⟩ := h.of_marks_labelled hmarks
    · right
      change (p.forest.placed node).nodes[_]? = _ at hnode'
      rw [Forest.nodes_placed_last] at hnode'
      cases hnode'
      exact ((hfits label hnew).at _).grow (c.grows_labelled new) hgrows
    · left
      exact ⟨hmarks', (hold i hlt).symm.trans hnode'⟩
  · intro root hroot
    obtain ⟨node', hnode', -⟩ := h.roots root hroot
    exact .inl ⟨hroot, hold root (Array.getElem?_eq_some_iff.mp hnode').1⟩

/-- An operator gets a link that its label allows. -/
theorem relink (h : Layout p c) {i : Nat} {q : Node Operator}
    {change : Links → Links} (hq : p.forest.nodes[i]? = some q)
    (hgrows : q.Grows { q with links := change q.links })
    (hfits : ∀ label, c.Marks i label →
      c.Fits p label { q with links := change q.links })
    (hroot : i ∈ p.forest.roots →
      c.FitsRoot p { q with links := change q.links }) :
    Layout { p with forest := p.forest.relink i change } c := by
  have hp := Program.grows_forest (Forest.grows_relink hq hgrows)
  have hnew : (p.forest.relink i change).nodes[i]? =
      some { q with links := change q.links } := by
    rw [Forest.nodes_relink, if_pos rfl, hq]
    rfl
  have hother : ∀ j, i ≠ j →
      (p.forest.relink i change).nodes[j]? = p.forest.nodes[j]? := by
    intro j hj
    rw [Forest.nodes_relink, if_neg hj]
  refine h.grow hp (.refl c) ?_ h.notes ?_ (fun _ _ hf => .inl hf) ?_
    (none_added (Forest.size_relink change))
  · show c.labels.length = (p.forest.relink i change).nodes.size
    rw [Forest.size_relink, h.labels]
  · intro j label node hmarks hnode
    by_cases hj : i = j
    · subst hj
      -- only the operator that was linked has to be looked at again
      cases hnew.symm.trans hnode
      exact .inr ((hfits label hmarks).grow (.refl c) hp)
    · exact .inl ⟨hmarks, (hother j hj).symm.trans hnode⟩
  · intro root hmem
    by_cases hj : i = root
    · subst hj
      exact .inr ⟨_, hnew, (hroot hmem).grow (.refl c) hp⟩
    · exact .inl ⟨hmem, hother root hj⟩

/-- An operator is linked to the one behind it. -/
theorem follow (h : Layout p c) {i j : Nat} {q : Node Operator} {label : Label}
    (hq : p.forest.nodes[i]? = some q) (hnone : q.links.sibling = none)
    (hi : c.Marks i label) (hordinary : q.operator ≠ .beginning)
    (hj : c.Marks j (label.after q.operator)) :
    Layout { p with forest := p.forest.followed i j } c := by
  have hfits := h.nodes i label q hi hq
  refine h.relink hq
    ⟨rfl, fun _ h => h, fun _ h => absurd h (by simp [hnone]), rfl, rfl⟩ ?_ ?_
  · intro l hl
    cases Option.some.inj (Option.some.inj (hi.symm.trans hl))
    refine ⟨hfits.uses, hfits.declares, hfits.inner, hfits.allowed, ?_, hfits.main,
      hfits.child, hfits.branches, hfits.fallback⟩
    rintro _ ⟨⟩
    exact ⟨hordinary, hj⟩
  · intro hroot
    -- an operator with a label is not a module, so it is no root
    obtain ⟨node, hnode, name, number, m, hop, -⟩ := h.roots i hroot
    cases hq.symm.trans hnode
    exact absurd hop (hfits.inner name number)

/-- An operator is linked to the first one nested in it. -/
theorem adopt (h : Layout p c) {i j : Nat} {q : Node Operator}
    (hq : p.forest.nodes[i]? = some q) (hnone : q.links.child = none)
    (hfits : ∀ label, c.Marks i label →
      (q.operator = .beginning → c.Marks j label) ∧
        (q.operator.isConditional = true → c.Marks j label.inside))
    (hroot : ∀ name number, q.operator = .module name number →
      c.Marks j ⟨⟨number, none⟩, false, []⟩) :
    Layout { p with forest := p.forest.adopted i j } c := by
  refine h.relink hq
    ⟨rfl, fun _ h => absurd h (by simp [hnone]), fun _ h => h, rfl, rfl⟩ ?_ ?_
  · intro l hl
    have hold := h.nodes i l q hl hq
    refine ⟨hold.uses, hold.declares, hold.inner, hold.allowed, hold.sibling, ?_, ?_,
      hold.branches, hold.fallback⟩
    · rintro _ ⟨⟩
      exact (hfits l hl).1
    · rintro _ ⟨⟩
      exact (hfits l hl).2
  · intro hmem
    obtain ⟨node, hnode, name, number, m, hop, hm, hname, -⟩ := h.roots i hmem
    cases hq.symm.trans hnode
    refine ⟨name, number, m, hop, hm, hname, ?_⟩
    rintro _ ⟨⟩
    exact hroot name number hop

/-- A chart does not depend on the tables that only get more names. -/
theorem retable (h : Layout p c) (hp : p.Grows p') (hforest : p'.forest = p.forest)
    (hsize : p'.functions.size = p.functions.size)
    (hfunctions : ∀ (n : Nat) (f' : FunctionDeclaration),
      p'.functions[n]? = some f' → ∃ f : FunctionDeclaration,
        p.functions[n]? = some f ∧ f'.parameters = f.parameters ∧
          f'.module = f.module ∧ f'.body = f.body) : Layout p' c := by
  refine h.grow hp (.refl c) (by rw [hforest]; exact h.labels)
    (by rw [hsize]; exact h.notes) ?_ ?_ ?_ (none_added (by rw [hforest]))
  · intro i label node hmarks hnode
    exact .inl ⟨hmarks, by rwa [← hforest]⟩
  · intro n f' hf'
    obtain ⟨f, hf, hparameters, hmodule, hbody⟩ := hfunctions n f' hf'
    obtain ⟨note, hnote, hfits⟩ := h.functions n f hf
    have hfits' := hfits.grow (.refl c) hp
    refine .inr ⟨note, hnote, ?_, ?_, ?_⟩
    · rw [hmodule]
      exact hfits'.module
    · rw [hparameters]
      exact hfits'.parameters
    · rw [hparameters, hbody]
      exact hfits'.body
  · intro root hroot
    rw [hforest] at hroot ⊢
    exact .inl ⟨hroot, rfl⟩

end Layout

/-! ## Declarations

To enter a variable changes one table of one code.  In it the new name can be found afterwards
and all others are found as before. -/

namespace Draft

/-- What entering a variable into the table of some code changes. -/
structure Entered (d d' : Draft) (code : Code) (name : String) (v : Variable) :
    Prop where
  grows : d.program.Grows d'.program
  forest : d'.program.forest = d.program.forest
  size : d'.program.functions.size = d.program.functions.size
  functions : ∀ (n : Nat) (f' : FunctionDeclaration),
    d'.program.functions[n]? = some f' → ∃ f : FunctionDeclaration,
      d.program.functions[n]? = some f ∧ f'.parameters = f.parameters ∧
        f'.module = f.module ∧ f'.body = f.body
  found : (d'.program.table code).find? name = some v
  only : ∀ other, (d'.program.table code).has other = true →
    (d.program.table code).has other = true ∨ other = name
  outside : d.function ≠ none → ∀ k,
    d'.program.table ⟨k, none⟩ = d.program.table ⟨k, none⟩
  findFunction : ∀ k name,
    d'.program.findFunction k name = d.program.findFunction k name
  findMethod : ∀ k owner name,
    d'.program.findMethod k owner name = d.program.findMethod k owner name
  module : d'.module = d.module
  function : d'.function = d.function
  block : d'.block = d.block
  last : d'.last = d.last

/-- A function that is set leaves the others as they are. -/
theorem functions_setFunction {d : Draft} {n : Nat} {f g : FunctionDeclaration}
    (hg : d.program.functions[n]? = some g) (j : Nat) :
    (d.setFunction n f).program.functions[j]? =
      if n = j then some f else d.program.functions[j]? := by
  have hlt := (Array.getElem?_eq_some_iff.mp hg).1
  simp only [setFunction, Array.getElem?_setIfInBounds, hlt, if_true]

/-- A module that is set leaves the others as they are. -/
theorem modules_setModule {d : Draft} {k : Nat} {m g : ModuleDeclaration}
    (hg : d.program.modules[k]? = some g) (j : Nat) :
    (d.setModule k m).program.modules[j]? =
      if k = j then some m else d.program.modules[j]? := by
  have hlt := (Array.getElem?_eq_some_iff.mp hg).1
  simp only [setModule, Array.getElem?_setIfInBounds, hlt, if_true]

/-- A variable of a function. -/
theorem entered_setFunction {d : Draft} {k n : Nat} {f : FunctionDeclaration}
    {name : String} {v : Variable} {vars : Variables}
    (hf : d.program.functions[n]? = some f)
    (hvars : f.vars.declare name v = .ok vars) :
    d.Entered (d.setFunction n { f with vars }) ⟨k, some n⟩ name v := by
  have hfunctions := functions_setFunction hf (f := { f with vars })
  have hold : ∀ k, d.program.table ⟨k, some n⟩ = f.vars := by
    intro k
    simp [Program.table, hf]
  have hnew : ∀ k, (d.setFunction n { f with vars }).program.table ⟨k, some n⟩ =
      vars := by
    intro k
    simp [Program.table, hfunctions]
  have htables : ∀ code other w, (d.program.table code).find? other = some w →
      ((d.setFunction n { f with vars }).program.table code).find? other =
        some w := by
    -- only the table of this function changes, and it loses no name
    rintro ⟨k', _ | j⟩ other w hw
    · exact hw
    · by_cases hj : n = j
      · subst hj
        rw [hold] at hw
        rw [hnew]
        exact Table.find?_declare_of_some hvars hw
      · simpa [Program.table, hfunctions, hj] using hw
  refine ⟨⟨.refl _, htables, fun _ m hm => ⟨m, hm, rfl⟩, ?_⟩, rfl,
    by simp [setFunction], ?_, ?_, ?_, fun _ _ => rfl, fun _ _ => rfl,
    fun _ _ _ => rfl, rfl, rfl, rfl, rfl⟩
  · intro j g hg
    rw [hfunctions]
    split
    · next hj =>
      subst hj
      cases hf.symm.trans hg
      exact ⟨_, rfl, fun _ h => h⟩
    · exact ⟨g, hg, fun _ h => h⟩
  · intro j g hg
    rw [hfunctions] at hg
    split at hg
    · next hj =>
      subst hj
      cases hg
      exact ⟨f, hf, rfl, rfl, rfl⟩
    · exact ⟨g, hg, rfl, rfl, rfl⟩
  · rw [hnew]
    exact Table.find?_declare hvars
  · intro other hother
    rw [hnew] at hother
    rw [hold]
    exact Table.has_of_declare hvars hother

/-- A variable of a module. -/
theorem entered_setModule {d : Draft} {k : Nat} {m : ModuleDeclaration}
    {name : String} {v : Variable} {vars : Variables} (hfunction : d.function = none)
    (hm : d.program.modules[k]? = some m)
    (hvars : m.vars.declare name v = .ok vars) :
    d.Entered (d.setModule k { m with vars }) ⟨k, none⟩ name v := by
  have hmodules := modules_setModule hm (m := { m with vars })
  have hold : d.program.table ⟨k, none⟩ = m.vars := by simp [Program.table, hm]
  have hnew : (d.setModule k { m with vars }).program.table ⟨k, none⟩ = vars := by
    simp [Program.table, hmodules]
  have htables : ∀ code other w, (d.program.table code).find? other = some w →
      ((d.setModule k { m with vars }).program.table code).find? other =
        some w := by
    rintro ⟨j, _ | n⟩ other w hw
    · by_cases hj : k = j
      · subst hj
        rw [hold] at hw
        rw [hnew]
        exact Table.find?_declare_of_some hvars hw
      · simpa [Program.table, hmodules, hj] using hw
    · exact hw
  refine ⟨⟨.refl _, htables, ?_, fun _ f hf => ⟨f, hf, fun _ h => h⟩⟩, rfl, rfl,
    fun _ f hf => ⟨f, hf, rfl, rfl, rfl⟩, ?_, ?_, fun h => absurd hfunction h,
    ?_, ?_, rfl, rfl, rfl, rfl⟩
  · intro j m' hm'
    rw [hmodules]
    split
    · next hj =>
      subst hj
      cases hm.symm.trans hm'
      exact ⟨_, rfl, rfl⟩
    · exact ⟨m', hm', rfl⟩
  · rw [hnew]
    exact Table.find?_declare hvars
  · intro other hother
    rw [hnew] at hother
    rw [hold]
    exact Table.has_of_declare hvars hother
  · intro j other
    unfold Program.findFunction
    by_cases hj : k = j
    · subst hj
      rw [hmodules, if_pos rfl, hm]
    · rw [hmodules, if_neg hj]
  · intro j owner other
    unfold Program.findMethod
    by_cases hj : k = j
    · subst hj
      rw [hmodules, if_pos rfl, hm]
      rfl
    · rw [hmodules, if_neg hj]
      rfl

/-- In a function a variable goes into the function's table. -/
theorem declareVariable_function {d d' : Draft} {n : Nat} {f : FunctionDeclaration}
    {name : String} {v : Variable} (hfunction : d.function = some n)
    (hf : d.program.functions[n]? = some f)
    (h : d.declareVariable name v = .ok d') :
    ∃ vars, f.vars.declare name v = .ok vars ∧
      d' = d.setFunction n { f with vars } := by
  unfold declareVariable at h
  simp only [hfunction, hf] at h
  cases hvars : f.vars.declare name v with
  | error fault => simp [hvars, bind, Except.bind] at h
  | ok vars =>
    rw [hvars] at h
    cases h
    exact ⟨vars, rfl, rfl⟩

/-- A variable that was declared is in the table of the code that is open. -/
theorem declareVariable_entered {d d' : Draft} {code : Code} {name : String}
    {v : Variable} (hmodule : d.module = some code.module)
    (hfunction : d.function = code.function)
    (h : d.declareVariable name v = .ok d') : d.Entered d' code name v := by
  obtain ⟨k, function⟩ := code
  simp only at hmodule hfunction
  cases function with
  | some n =>
    cases hf : d.program.functions[n]? with
    | none => simp [declareVariable, hfunction, hf] at h
    | some f =>
      obtain ⟨vars, hvars, rfl⟩ := declareVariable_function hfunction hf h
      exact entered_setFunction hf hvars
  | none =>
    unfold declareVariable at h
    have hopen : d.openModule? = d.program.modules[k]? := by
      simp [openModule?, hmodule]
    simp only [hfunction, hmodule, hopen] at h
    cases hm : d.program.modules[k]? with
    | none => simp [hm] at h
    | some m =>
      simp only [hm] at h
      cases hvars : m.vars.declare name v with
      | error fault => simp [hvars, bind, Except.bind] at h
      | ok vars =>
        rw [hvars] at h
        cases h
        exact entered_setModule hfunction hm hvars

end Draft

end Pseudocode
