import Pseudocode.Proofs.Layout

/-!
# What stays true while a program is built

Building a program only ever adds: operators behind the others, links where there
were none, names to tables.  A chart only gets more labels and notes.  Whatever a
chart says of an operator or a function stays true then (`Chart.Fits.grow`), so a
step of building has to be looked at only where it adds something.

There is a relation for each kind of thing that grows: a node (its operator and the links
that it has), a forest (node by node), a program (its forest, and the tables of every piece
of code), a chart (prefixes of its two lists).  Each is reflexive and transitive, so the
steps of the builder can be followed one at a time, and each statement about a part of a
program has one lemma here that it is kept.
-/

namespace Pseudocode

/-- A node with the same operator that has kept its links. -/
structure Node.Grows (node node' : Node Operator) : Prop where
  operator : node'.operator = node.operator
  child : ∀ j, node.links.child = some j → node'.links.child = some j
  sibling : ∀ j, node.links.sibling = some j → node'.links.sibling = some j
  alternatives : node'.links.alternatives = node.links.alternatives
  fallback : node'.links.fallback = node.links.fallback

/-- A node that is not changed has not lost anything. -/
theorem Node.Grows.refl (node : Node Operator) : node.Grows node :=
  ⟨rfl, fun _ h => h, fun _ h => h, rfl, rfl⟩

/-- Links are added one step after another. -/
theorem Node.Grows.trans {node node' node'' : Node Operator}
    (h : node.Grows node') (h' : node'.Grows node'') : node.Grows node'' :=
  ⟨h'.operator.trans h.operator, fun j hj => h'.child j (h.child j hj),
    fun j hj => h'.sibling j (h.sibling j hj),
    h'.alternatives.trans h.alternatives, h'.fallback.trans h.fallback⟩

/-- A forest with further operators and links. -/
structure Forest.Grows (f f' : Forest Operator) : Prop where
  nodes : ∀ (i : Nat) (node : Node Operator), f.nodes[i]? = some node →
    ∃ node', f'.nodes[i]? = some node' ∧ node.Grows node'
  roots : ∀ root ∈ f.roots, root ∈ f'.roots

/-- A forest that is not changed has not lost anything. -/
theorem Forest.Grows.refl (f : Forest Operator) : f.Grows f :=
  ⟨fun _ node h => ⟨node, h, .refl node⟩, fun _ h => h⟩

/-- Operators and links are added one step after another. -/
theorem Forest.Grows.trans {f f' f'' : Forest Operator} (h : f.Grows f')
    (h' : f'.Grows f'') : f.Grows f'' := by
  refine ⟨fun i node hi => ?_, fun root hroot => h'.roots root (h.roots root hroot)⟩
  obtain ⟨node', hi', hgrows⟩ := h.nodes i node hi
  obtain ⟨node'', hi'', hgrows'⟩ := h'.nodes i node' hi'
  exact ⟨node'', hi'', hgrows.trans hgrows'⟩

/-- A forest does not get smaller. -/
theorem Forest.Grows.size {f f' : Forest Operator} (h : f.Grows f') :
    f.nodes.size ≤ f'.nodes.size := by
  refine Nat.le_of_not_lt fun hlt => ?_
  obtain ⟨node', hnode', -⟩ :=
    h.nodes f'.nodes.size _ (Array.getElem?_eq_getElem hlt)
  simp at hnode'

/-- What is reached from an operator stays reached, nested or not. -/
theorem Forest.Inside.grow {f f' : Forest Operator} (hg : f.Grows f')
    {start : Nat} {nested : Bool} {i : Nat} (h : f.Inside start nested i) :
    f'.Inside start nested i := by
  induction h with
  | here => exact .here
  | next _ found link ih =>
    obtain ⟨node', found', hgrows⟩ := hg.nodes _ _ found
    exact .next ih found' (hgrows.sibling _ link)
  | main _ found mark link ih =>
    obtain ⟨node', found', hgrows⟩ := hg.nodes _ _ found
    exact .main ih found' (hgrows.operator.trans mark) (hgrows.child _ link)
  | nested _ found conditional link ih =>
    obtain ⟨node', found', hgrows⟩ := hg.nodes _ _ found
    exact .nested ih found' (by rw [hgrows.operator]; exact conditional)
      (hgrows.child _ link)
  | branch _ found link ih =>
    obtain ⟨node', found', hgrows⟩ := hg.nodes _ _ found
    exact .branch ih found' (by rwa [hgrows.alternatives, hgrows.fallback])

/-- What is reached from a place that is reached. -/
theorem Forest.Inside.trans {f : Forest Operator} {start i j : Nat}
    {nested nested' : Bool} (h : f.Inside start nested i)
    (h' : f.Inside i nested' j) : f.Inside start (nested || nested') j := by
  induction h' with
  | here => simpa using h
  | next _ found link ih => exact .next ih found link
  | main _ found mark link ih => exact .main ih found mark link
  | nested _ found conditional link ih =>
    simpa using Forest.Inside.nested ih found conditional link
  | branch _ found link ih => simpa using Forest.Inside.branch ih found link

/-- A program with further operators, links and declarations. -/
structure Program.Grows (p p' : Program) : Prop where
  forest : p.forest.Grows p'.forest
  tables : ∀ code name v, (p.table code).find? name = some v →
    (p'.table code).find? name = some v
  modules : ∀ (k : Nat) (m : ModuleDeclaration), p.modules[k]? = some m →
    ∃ m' : ModuleDeclaration, p'.modules[k]? = some m' ∧ m'.name = m.name
  functions : ∀ (n : Nat) (f : FunctionDeclaration), p.functions[n]? = some f →
    ∃ f' : FunctionDeclaration, p'.functions[n]? = some f' ∧
      ∀ start, f.body = some start → f'.body = some start

/-- A program that is not changed has not lost anything. -/
theorem Program.Grows.refl (p : Program) : p.Grows p :=
  ⟨.refl _, fun _ _ _ h => h, fun _ m h => ⟨m, h, rfl⟩,
    fun _ f h => ⟨f, h, fun _ h => h⟩⟩

/-- A program grows one step after another. -/
theorem Program.Grows.trans {p p' p'' : Program} (h : p.Grows p')
    (h' : p'.Grows p'') : p.Grows p'' := by
  refine ⟨h.forest.trans h'.forest,
    fun code name v hv => h'.tables code name v (h.tables code name v hv), ?_, ?_⟩
  · intro k m hk
    obtain ⟨m', hk', hname⟩ := h.modules k m hk
    obtain ⟨m'', hk'', hname'⟩ := h'.modules k m' hk'
    exact ⟨m'', hk'', hname'.trans hname⟩
  · intro n f hn
    obtain ⟨f', hn', hbody⟩ := h.functions n f hn
    obtain ⟨f'', hn'', hbody'⟩ := h'.functions n f' hn'
    exact ⟨f'', hn'', fun start hstart => hbody' start (hbody start hstart)⟩

/-- What is declared stays declared, with its type. -/
theorem Program.Declares.grow {p p' : Program} (hg : p.Grows p') {code : Code}
    {name : String} {t : DeclaredType} (h : p.Declares code name t) :
    p'.Declares code name t := by
  obtain ⟨v, hv, ht⟩ := h
  exact ⟨v, hg.tables code name v hv, ht⟩

/-- What is part of some code stays part of it. -/
theorem Program.Within.grow {p p' : Program} (hg : p.Grows p') {code : Code}
    {nested : Bool} {i : Nat} (h : p.Within code nested i) :
    p'.Within code nested i := by
  unfold Program.Within at h ⊢
  cases hfunction : code.function with
  | some n =>
    simp only [hfunction] at h ⊢
    obtain ⟨f, start, hf, hbody, hinside⟩ := h
    obtain ⟨f', hf', hbody'⟩ := hg.functions n f hf
    exact ⟨f', start, hf', hbody' start hbody, hinside.grow hg.forest⟩
  | none =>
    simp only [hfunction] at h ⊢
    obtain ⟨root, node, name, start, hroot, hnode, hop, hchild, hinside⟩ := h
    obtain ⟨node', hnode', hgrows⟩ := hg.forest.nodes root node hnode
    exact ⟨root, node', name, start, hg.forest.roots root hroot, hnode',
      hgrows.operator.trans hop, hgrows.child start hchild,
      hinside.grow hg.forest⟩

/-- A chart with further labels and notes. -/
structure Chart.Grows (c c' : Chart) : Prop where
  labels : c.labels <+: c'.labels
  notes : c.notes <+: c'.notes

namespace Chart

/-- A chart that is not changed has not lost anything. -/
theorem Grows.refl (c : Chart) : c.Grows c :=
  ⟨List.prefix_refl _, List.prefix_refl _⟩

/-- Labels and notes are added one step after another. -/
theorem Grows.trans {c c' c'' : Chart} (h : c.Grows c') (h' : c'.Grows c'') :
    c.Grows c'' :=
  ⟨h.labels.trans h'.labels, h.notes.trans h'.notes⟩

variable {c c' : Chart} {p p' : Program} {label : Label}

/-- An operator keeps its label. -/
theorem Marks.grow (hc : c.Grows c') {i : Nat} (h : c.Marks i label) :
    c'.Marks i label := by
  obtain ⟨more, hmore⟩ := hc.labels
  unfold Marks at h ⊢
  rw [← hmore, List.getElem?_append_left (List.getElem?_eq_some_iff.mp h).1, h]

/-- A function keeps its note. -/
theorem Grows.note (hc : c.Grows c') {n : Nat} {note : Note}
    (h : c.notes[n]? = some note) : c'.notes[n]? = some note := by
  obtain ⟨more, hmore⟩ := hc.notes
  rw [← hmore, List.getElem?_append_left (List.getElem?_eq_some_iff.mp h).1, h]

/-- A name that is doubted stays doubted: its declaration is still nested. -/
theorem Doubts.grow (hc : c.Grows c') (hp : p.Grows p') {code : Code}
    {name : String} (h : c.Doubts p code name) : c'.Doubts p' code name := by
  obtain ⟨i, label, node, t, initial, hmarks, hcode, hnested, hnode, hop⟩ := h
  obtain ⟨node', hnode', hgrows⟩ := hp.forest.nodes i node hnode
  exact ⟨i, label, node', t, initial, hmarks.grow hc, hcode, hnested, hnode',
    hgrows.operator.trans hop⟩

/-- A name that is declared for certain around some code stays so. -/
theorem Surrounds.grow (hc : c.Grows c') {name : String}
    (h : c.Surrounds label name) : c'.Surrounds label name := by
  unfold Surrounds at h ⊢
  cases hfunction : label.code.function with
  | none => simpa only [hfunction] using h
  | some n =>
    simp only [hfunction] at h ⊢
    obtain ⟨note, hnote, hmem⟩ := h
    exact ⟨note, hc.note hnote, hmem⟩

/-- An occurrence stays one that its label allows. -/
theorem Resolves.grow (hc : c.Grows c') (hp : p.Grows p') {o : Occurrence}
    (h : c.Resolves p label o) : c'.Resolves p' label o := by
  obtain ⟨home, hsite, hhome⟩ := h
  refine ⟨home, hsite, ?_⟩
  cases home with
  | call => exact ⟨hhome.1, hhome.2.imp id (·.grow hc hp)⟩
  | module => exact ⟨hhome.1, hhome.2.imp (·.grow hc) (·.grow hc hp)⟩

/-- A call stays one that its label allows. -/
theorem Calls.grow (hc : c.Grows c') {callee : Callee} (h : c.Calls label callee) :
    c'.Calls label callee := by
  obtain ⟨n, note, hcallee, hnote, hmodule, houter⟩ := h
  exact ⟨n, note, hcallee, hc.note hnote, hmodule,
    fun name hname => (houter name hname).grow hc⟩

/-- What a chart says of an operator stays true. -/
theorem Fits.grow (hc : c.Grows c') (hp : p.Grows p') {node : Node Operator}
    (h : c.Fits p label node) : c'.Fits p' label node where
  uses := h.uses.imp (fun _ ho => ho.grow hc hp) fun _ hf => hf.grow hc
  declares t name initial hop := (h.declares t name initial hop).grow hp
  inner := h.inner
  allowed := h.allowed
  sibling j hj := ⟨(h.sibling j hj).1, (h.sibling j hj).2.grow hc⟩
  main j hj hop := (h.main j hj hop).grow hc
  child j hj hop := (h.child j hj hop).grow hc
  branches j hj := (h.branches j hj).grow hc
  fallback j hj := by
    obtain ⟨q, hq, hconditional⟩ := h.fallback j hj
    obtain ⟨q', hq', hgrows⟩ := hp.forest.nodes j q hq
    exact ⟨q', hq', by rw [hgrows.operator]; exact hconditional⟩

/-- What a chart says of a function stays true. -/
theorem FitsFunction.grow (hc : c.Grows c') (hp : p.Grows p') {n : Nat}
    {f : FunctionDeclaration} {note : Note} (h : c.FitsFunction p n f note) :
    c'.FitsFunction p' n f note where
  module := by
    obtain ⟨m, hm, hname⟩ := h.module
    obtain ⟨m', hm', hname'⟩ := hp.modules _ m hm
    exact ⟨m', hm', hname'.trans hname⟩
  parameters q hq := (h.parameters q hq).grow hp
  body start hstart := (h.body start hstart).grow hc

/-- What a chart says of a root stays true. -/
theorem FitsRoot.grow (hc : c.Grows c') (hp : p.Grows p') {node : Node Operator}
    (h : c.FitsRoot p node) : c'.FitsRoot p' node := by
  obtain ⟨name, number, m, hop, hm, hname, hchild⟩ := h
  obtain ⟨m', hm', hname'⟩ := hp.modules _ m hm
  exact ⟨name, number, m', hop, hm', hname'.trans hname,
    fun start hstart => (hchild start hstart).grow hc⟩

end Chart

end Pseudocode
