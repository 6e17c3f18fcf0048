import Pseudocode.Proofs.Layout.Steps
import Pseudocode.Proofs.Grammar
import Pseudocode.Proofs.Tails

/-!
# The layout of statements

Reading a statement keeps the chart in agreement with the program, and the
statement that was read agrees with the label of the place where it goes
(`statement_read`).  The induction is on how deeply statements are nested; for a
body it carries where its first and its last operator are, since each operator is
linked to the one before it.

What the names that a statement uses stand for is known from the grammar: an
expression that was read is derived, so every name in it was found
(`Grammar.Derives.uses`), and a name that a draft finds is one that the label allows
(`Draft.Ready.resolves`, `Draft.Ready.calls`).

A statement is read first and placed later.  `StatementRead` is what is known in between: the
node is loose, and what lies beneath it is in the forest already.  `StatementPlaced` is what
is known afterwards.  A conditional turns this around for its further branches, which are
placed before their bodies are read; `Forest.Beneath` covers both.

> `BodySoFar.next`, `BodySoFar.below`: one operator more in a row, behind another or as the
> first one nested in a branch.
>
> `PartsRead.statement`: a loop or a conditional agrees with its label if its parts were
> read.
-/

namespace Pseudocode

open Grammar

/-- A number is read as a scalar. -/
theorem Grammar.Reads.scalar {text : String} {negative : Bool} {v : Value}
    (h : Reads text negative v) : ∃ s, v = .scalar s := by
  unfold Reads readNumber at h
  split at h
  · split at h
    · cases h
      exact ⟨_, rfl⟩
    · cases h
  · split at h
    · cases h
    · dsimp only at h
      generalize (if negative = true then _ else _ : Int) = n at h
      split at h
      · cases h
        exact ⟨_, rfl⟩
      · cases h

/-- The names that an expression uses were all found. -/
theorem Grammar.Derives.uses {names : Names} {tier : Tier} {ts : List Token} {e : Expr}
    (h : Derives names Reads tier ts e) :
    e.Uses (fun o => ∃ name, names.resolve name = some o) fun callee =>
      (∃ name, names.function name = .ok callee) ∨
        ∃ owner name, names.method owner name = .ok callee := by
  have hcalled : ∀ {head name callee}, Called names head name callee →
      (∃ name, names.function name = .ok callee) ∨
        ∃ owner name, names.method owner name = .ok callee := by
    intro head name callee h
    cases h with
    | function _ found => exact .inl ⟨_, found⟩
    | method _ _ _ found => exact .inr ⟨_, _, found⟩
  have hjoin : ∀ {tier : Tier} {kind : Token.Kind} {join : Expr → Expr → Expr}
      {left right : Expr} {targets : Occurrence → Prop} {functions : Callee → Prop},
      tier.Joins kind join → left.Uses targets functions → right.Uses targets functions →
      (join left right).Uses targets functions := by
    intro tier kind join left right targets functions hjoins hleft hright
    cases hjoins with
    | add | subtract | multiply | divide =>
      exact .arithmetic (fun symbol => nofun) hleft hright
    | _ => exact .condition (fun symbol => nofun) hleft hright
  induction h with
  | tighter _ _ ih => exact ih
  | chained _ _ operator _ ih ih' => exact hjoin operator ih ih'
  | compared _ operator _ ih ih' => exact hjoin operator ih ih'
  | negative _ _ _ value =>
    obtain ⟨s, rfl⟩ := value.scalar
    exact .literal s
  | negated _ _ _ ih => exact .sign ih
  | number _ value =>
    obtain ⟨s, rfl⟩ := value.scalar
    exact .literal s
  | text => exact .literal _
  | truth => exact .literal _
  | falsehood => exact .literal _
  | grouped _ _ _ ih => exact ih
  | read _ found => exact .read ⟨_, found⟩
  | slot _ found _ _ _ ih => exact .slot ⟨_, found⟩ ih
  | called head => exact .call (hcalled head) (by simp)
  | calledWith head _ _ _ _ _ ih ih' =>
    refine .call (hcalled head) ?_
    simp only [List.mem_cons, List.mem_map]
    rintro e (rfl | ⟨a, ha, rfl⟩)
    · exact ih
    · exact ih' a ha

namespace Draft

/-- A draft in which code with a label is about to be read: the tables hold what
the label says and further names that are in doubt. -/
structure Ready (d : Draft) (c : Chart) (label : Label) : Prop where
  layout : Layout d.program c
  module : d.module = some label.code.module
  function : d.function = label.code.function
  seen : ∀ name ∈ label.seen, (d.program.table label.code).has name = true
  table : ∀ name, (d.program.table label.code).has name = true →
    name ∈ label.seen ∨ c.Doubts d.program label.code name
  around : ∀ name, (d.program.table label.code.outside).has name = true →
    c.Surrounds label name ∨ c.Doubts d.program label.code.outside name
  functions : ∀ name callee,
    d.program.findFunction label.code.module name = .ok callee →
      c.Calls label callee
  methods : ∀ owner name callee,
    d.program.findMethod label.code.module owner name = .ok callee →
      c.Calls label callee

/-- Nesting makes no difference to what can be read. -/
theorem Ready.relabel {d : Draft} {c : Chart} {label label' : Label}
    (h : d.Ready c label) (hcode : label'.code = label.code)
    (hseen : label'.seen = label.seen) : d.Ready c label' := by
  obtain ⟨code, nested, seen⟩ := label
  obtain ⟨code', nested', seen'⟩ := label'
  simp only at hcode hseen
  subst hcode hseen
  exact ⟨h.layout, h.module, h.function, h.seen, h.table, h.around, h.functions,
    h.methods⟩

/-- Tokens that are left make no difference to what can be read. -/
theorem Ready.ahead {d : Draft} {c : Chart} {label : Label} (h : d.Ready c label)
    (ahead : List Token) : Ready { d with ahead } c label :=
  ⟨h.layout, h.module, h.function, h.seen, h.table, h.around, h.functions,
    h.methods⟩

/-- A variable that is found is one that the label allows. -/
theorem Ready.resolves {d : Draft} {c : Chart} {label : Label}
    (h : d.Ready c label) {name : String} {o : Occurrence}
    (ho : d.resolve name = some o) : c.Resolves d.program label o := by
  obtain ⟨⟨k, function⟩, nested, seen⟩ := label
  have hmodule : d.module = some k := h.module
  have hfunction : d.function = function := h.function
  have hinner : ∀ name, (d.openFunction?.any fun f => f.vars.has name) = true ↔
      function ≠ none ∧ (d.program.table ⟨k, function⟩).has name = true := by
    intro name
    unfold openFunction? Program.table
    rw [hfunction]
    cases function with
    | none => simp
    | some n =>
      simp only [Option.bind_some]
      cases d.program.functions[n]? <;>
        simp [Variables.empty, Table.has, Table.find?]
  have houter : ∀ name, (d.openModule?.any fun m => m.vars.has name) = true ↔
      (d.program.table ⟨k, none⟩).has name = true := by
    intro name
    unfold openModule? Program.table
    rw [hmodule]
    simp only [Option.bind_some]
    cases d.program.modules[k]? <;> simp [Variables.empty, Table.has, Table.find?]
  unfold resolve at ho
  -- the function is asked first, so a name of the module is none of the function
  rw [hmodule, Option.bind_some] at ho
  simp only [hfunction] at ho
  split at ho
  · next hcall =>
    cases ho
    obtain ⟨hne, hhas⟩ := (hinner name).mp hcall
    exact ⟨.call, rfl, hne, h.table name hhas⟩
  · next hcall =>
    split at ho
    · next hmod =>
      cases ho
      refine ⟨.module, rfl, fun hne hseen => hcall ?_,
        h.around name ((houter name).mp hmod)⟩
      exact (hinner name).mpr ⟨hne, h.seen name hseen⟩
    · cases ho

/-- A function that is found can be called. -/
theorem Ready.calls {d : Draft} {c : Chart} {label : Label} (h : d.Ready c label)
    {callee : Callee} (hcallee : (∃ name, d.names.function name = .ok callee) ∨
      ∃ owner name, d.names.method owner name = .ok callee) :
    c.Calls label callee := by
  unfold names at hcallee
  simp only [h.module] at hcallee
  obtain ⟨name, hname⟩ | ⟨owner, name, hname⟩ := hcallee
  · exact h.functions name callee hname
  · exact h.methods owner name callee hname

/-- Code can go on being read when its tables are as before and whatever else can be found
now may be called. -/
theorem Ready.goesOn {d d' : Draft} {c c' : Chart} {label : Label} (h : d.Ready c label)
    (hlayout : Layout d'.program c') (hgrows : d.program.Grows d'.program)
    (hchart : c.Grows c') (hmodule : d'.module = d.module)
    (hfunction : d'.function = d.function)
    (htable : d'.program.table label.code = d.program.table label.code)
    (houter : d'.program.table label.code.outside = d.program.table label.code.outside)
    (hfunctions : ∀ name callee,
      d'.program.findFunction label.code.module name = .ok callee →
        d.program.findFunction label.code.module name = .ok callee ∨ c'.Calls label callee)
    (hmethods : ∀ owner name callee,
      d'.program.findMethod label.code.module owner name = .ok callee →
        d.program.findMethod label.code.module owner name = .ok callee ∨
          c'.Calls label callee) : d'.Ready c' label where
  layout := hlayout
  module := hmodule.trans h.module
  function := hfunction.trans h.function
  seen := htable ▸ h.seen
  table name hname := by
    rw [htable] at hname
    exact (h.table name hname).imp_right (·.grow hchart hgrows)
  around name hname := by
    rw [houter] at hname
    exact (h.around name hname).imp (·.grow hchart) (·.grow hchart hgrows)
  functions name callee hfound :=
    (hfunctions name callee hfound).elim
      (fun hold => (h.functions name callee hold).grow hchart) id
  methods owner name callee hfound :=
    (hmethods owner name callee hfound).elim
      (fun hold => (h.methods owner name callee hold).grow hchart) id

/-! ## Drafts that go on

Reading adds nodes and labels, and enters names into the table of the open code.  Labels that
were given before keep their meaning, since what they say of names is about names declared
earlier. -/

/-- What reading statements leaves as it is, and what it may add. -/
structure Advances (d d' : Draft) (c c' : Chart) : Prop where
  layout : Layout d'.program c'
  grows : d.program.Grows d'.program
  chart : c.Grows c'
  notes : c'.notes = c.notes
  old : ∀ i < d.program.forest.nodes.size,
    d'.program.forest.nodes[i]? = d.program.forest.nodes[i]?
  roots : d'.program.forest.roots = d.program.forest.roots
  functions : ∀ (n : Nat) (f' : FunctionDeclaration),
    d'.program.functions[n]? = some f' → ∃ f : FunctionDeclaration,
      d.program.functions[n]? = some f ∧ f'.parameters = f.parameters ∧
        f'.module = f.module ∧ f'.body = f.body
  outside : d.function ≠ none → ∀ k,
    d'.program.table ⟨k, none⟩ = d.program.table ⟨k, none⟩
  findFunction : ∀ k name,
    d'.program.findFunction k name = d.program.findFunction k name
  findMethod : ∀ k owner name,
    d'.program.findMethod k owner name = d.program.findMethod k owner name
  module : d'.module = d.module
  function : d'.function = d.function
  block : d'.block = d.block
  last : d'.last = d.last

/-- Nothing was read. -/
theorem Advances.refl {d : Draft} {c : Chart} (h : Layout d.program c) :
    d.Advances d c c :=
  ⟨h, .refl _, .refl _, rfl, fun _ _ => rfl, rfl,
    fun _ f hf => ⟨f, hf, rfl, rfl, rfl⟩, fun _ _ => rfl, fun _ _ => rfl,
    fun _ _ _ => rfl, rfl, rfl, rfl, rfl⟩

/-- Tokens that were read make no difference. -/
theorem Advances.reading {d d' : Draft} {c c' : Chart} (h : d.Advances d' c c')
    (ahead : List Token) : d.Advances { d' with ahead } c c' :=
  ⟨h.layout, h.grows, h.chart, h.notes, h.old, h.roots, h.functions, h.outside,
    h.findFunction, h.findMethod, h.module, h.function, h.block, h.last⟩

/-- It makes no difference which tokens were ahead at first. -/
theorem Advances.since {d d' : Draft} {c c' : Chart} {ahead : List Token}
    (h : Advances { d with ahead } d' c c') : d.Advances d' c c' :=
  ⟨h.layout, h.grows, h.chart, h.notes, h.old, h.roots, h.functions, h.outside,
    h.findFunction, h.findMethod, h.module, h.function, h.block, h.last⟩

/-- One piece of code read behind another. -/
theorem Advances.trans {d d' d'' : Draft} {c c' c'' : Chart}
    (h : d.Advances d' c c') (h' : d'.Advances d'' c' c'') :
    d.Advances d'' c c'' where
  layout := h'.layout
  grows := h.grows.trans h'.grows
  chart := h.chart.trans h'.chart
  notes := h'.notes.trans h.notes
  old i hi := (h'.old i (Nat.lt_of_lt_of_le hi h.grows.forest.size)).trans (h.old i hi)
  roots := h'.roots.trans h.roots
  functions n f'' hf'' := by
    obtain ⟨f', hf', hparameters', hmodule', hbody'⟩ := h'.functions n f'' hf''
    obtain ⟨f, hf, hparameters, hmodule, hbody⟩ := h.functions n f' hf'
    exact ⟨f, hf, hparameters'.trans hparameters, hmodule'.trans hmodule,
      hbody'.trans hbody⟩
  outside hfunction k :=
    (h'.outside (h.function ▸ hfunction) k).trans (h.outside hfunction k)
  findFunction k name := (h'.findFunction k name).trans (h.findFunction k name)
  findMethod k owner name :=
    (h'.findMethod k owner name).trans (h.findMethod k owner name)
  module := h'.module.trans h.module
  function := h'.function.trans h.function
  block := h'.block.trans h.block
  last := h'.last.trans h.last

/-- After reading some code the next code can be read, with a label that accounts
for the names that were declared. -/
theorem Advances.ready {d d' : Draft} {c c' : Chart} {label label' : Label}
    (h : d.Advances d' c c') (hready : d.Ready c label)
    (hcode : label'.code = label.code)
    (hkept : ∀ name ∈ label.seen, name ∈ label'.seen)
    (hseen : ∀ name ∈ label'.seen, (d'.program.table label.code).has name = true)
    (htable : ∀ name, (d'.program.table label.code).has name = true →
      name ∈ label'.seen ∨ c'.Doubts d'.program label.code name) :
    d'.Ready c' label' := by
  have hsurrounds : ∀ name, c.Surrounds label name → c'.Surrounds label' name := by
    intro name hname
    have hgrown := hname.grow h.chart
    unfold Chart.Surrounds at hgrown ⊢
    rw [hcode]
    cases hf : label.code.function with
    | none =>
      simp only [hf] at hgrown ⊢
      exact hkept name hgrown
    | some n =>
      simp only [hf] at hgrown ⊢
      exact hgrown
  have hcalls : ∀ callee, c.Calls label callee → c'.Calls label' callee := by
    rintro callee ⟨n, note, hcallee, hnote, hmodule, houter⟩
    exact ⟨n, note, hcallee, h.chart.note hnote, hcode ▸ hmodule,
      fun name hname => hsurrounds name (houter name hname)⟩
  refine ⟨h.layout, ?_, ?_, ?_, ?_, ?_, ?_, ?_⟩
  · rw [h.module, hready.module, hcode]
  · rw [h.function, hready.function, hcode]
  · rwa [hcode]
  · rwa [hcode]
  · rw [hcode]
    intro name hname
    by_cases hfunction : d.function = none
    · -- outside of functions the table around is the table itself
      have hnone : label.code.function = none := hready.function ▸ hfunction
      have hsame : label.code.outside = label.code := by
        obtain ⟨⟨k, f⟩, _, _⟩ := label
        cases hnone
        rfl
      rw [hsame] at hname ⊢
      refine (htable name hname).imp_left fun hmem => ?_
      unfold Chart.Surrounds
      rw [hcode, hnone]
      exact hmem
    · have htables := h.outside hfunction label.code.module
      rw [show label.code.outside = ⟨label.code.module, none⟩ from rfl, htables] at hname
      exact (hready.around name hname).imp (hsurrounds name) (·.grow h.chart h.grows)
  · intro name callee hfound
    rw [hcode, h.findFunction] at hfound
    exact hcalls callee (hready.functions name callee hfound)
  · intro owner name callee hfound
    rw [hcode, h.findMethod] at hfound
    exact hcalls callee (hready.methods owner name callee hfound)

end Draft

/-! ## Statements without a body

Their expressions are read by the expression parser, whose trees are those of the grammar; so
what they use is what the label lets them use (`Derives.uses`).  Only a declaration enters a
name, and only behind it is the label another one. -/

/-- The operators that are reached through the links of an operator, which need
not be in the forest itself. -/
def Forest.Beneath (f : Forest Operator) (node : Node Operator) (i : Nat) : Prop :=
  ∃ j nested, (node.operator.isConditional = true ∧ node.links.child = some j ∨
    j ∈ node.links.alternatives ∨ node.links.fallback = some j) ∧
      f.Inside j nested i

/-- What lies beneath an operator still does when the forest has grown. -/
theorem Forest.Beneath.grow {f f' : Forest Operator} {node : Node Operator} {i : Nat}
    (hg : f.Grows f') (h : f.Beneath node i) : f'.Beneath node i := by
  obtain ⟨j, nested, hlink, hinside⟩ := h
  exact ⟨j, nested, hlink, hinside.grow hg⟩

/-- What reading a statement comes to: it agrees with the label of the place where
it will go, and all that was placed on the way lies beneath it. -/
structure StatementRead (d d' : Draft) (c c' : Chart) (label : Label)
    (node : Node Operator) : Prop where
  advances : d.Advances d' c c'
  loose : node.index = none
  fits : c'.Fits d'.program label node
  ordinary : node.operator ≠ .beginning
  table : ∀ name, (d'.program.table label.code).has name = true →
    name ∈ label.seen ∨ c'.Doubts d'.program label.code name ∨
      ∃ t initial, node.operator = .declaration t name initial
  covers : ∀ i l, c'.Marks i l → d.program.forest.nodes.size ≤ i →
    l.code = label.code ∧ l.nested = true ∧ d'.program.forest.Beneath node i

namespace Builder

variable {α : Type} {d : Draft} {c : Chart} {label : Label}

/-- A reader of tokens changes only what is ahead. -/
theorem tokens_bind {reader : Reader α} {β : Type} {f : α → Builder β}
    {r : β × Draft} (h : (tokens reader >>= f) d = .ok r) :
    ∃ a rest, reader d.ahead = .ok (a, rest) ∧
      f a { d with ahead := rest } = .ok r := by
  obtain ⟨a, d₁, htokens, h⟩ := bind_ok.mp h
  unfold tokens at htokens
  cases hread : reader d.ahead with
  | error fault => simp [hread, bind, Except.bind] at htokens
  | ok p =>
    rw [hread] at htokens
    cases htokens
    exact ⟨p.1, p.2, rfl, h⟩

/-- An expression that was read uses names that the label allows. -/
theorem expression_bind {depth : Nat} {β : Type} {f : Expr → Builder β}
    {r : β × Draft} (hready : d.Ready c label)
    (h : (expression depth >>= f) d = .ok r) :
    ∃ e rest, e.Uses (c.Resolves d.program label) (c.Calls label) ∧
      f e { d with ahead := rest } = .ok r := by
  unfold expression at h
  simp only [bind_ok, get_ok] at h
  obtain ⟨e, d₂, ⟨d₀, d₁, hget, htokens⟩, h⟩ := h
  obtain ⟨rfl, rfl⟩ := Prod.mk.inj hget
  have hbind : (tokens (Expr.expression d₁.names depth) >>= fun e => f e) d₁ = .ok r :=
    bind_ok.mpr ⟨e, d₂, htokens, h⟩
  obtain ⟨e, rest, hread, h⟩ := tokens_bind hbind
  obtain ⟨used, -, hderives⟩ := expression_sound depth hread
  exact ⟨e, rest, hderives.uses.imp (fun _ ⟨_, ho⟩ => hready.resolves ho)
    fun _ hc => hready.calls hc, h⟩

/-- The variable that is assigned to is one that the label allows. -/
theorem target_bind {name : String} {β : Type} {f : Occurrence → Builder β}
    {r : β × Draft} (hready : d.Ready c label)
    (h : (target name >>= f) d = .ok r) :
    ∃ o, c.Resolves d.program label o ∧ f o d = .ok r := by
  obtain ⟨o, d₁, htarget, hrest⟩ := bind_ok.mp h
  unfold target at htarget
  obtain ⟨d₀, d₂, hget, hmatch⟩ := bind_ok.mp htarget
  cases get_ok.mp hget
  cases hresolve : d.resolve name with
  | none =>
    rw [hresolve] at hmatch
    exact (throw_ok.mp hmatch).elim
  | some o' =>
    rw [hresolve] at hmatch
    cases pure_ok.mp hmatch
    exact ⟨_, hready.resolves hresolve, hrest⟩

/-- A statement that places and declares nothing. -/
theorem simple_read (hready : d.Ready c label) {op : Operator} (ahead : List Token)
    (huses : op.Uses (c.Resolves d.program label) (c.Calls label))
    (hdeclaration : ∀ t name initial, op ≠ .declaration t name initial)
    (hmodule : ∀ name number, op ≠ .module name number) (hallowed : op.Allowed label)
    (hbeginning : op ≠ .beginning) :
    StatementRead d { d with ahead } c c label { operator := op } where
  advances := (Draft.Advances.refl hready.layout).reading ahead
  loose := rfl
  fits := by
    refine ⟨huses, fun t name initial h => absurd h (hdeclaration t name initial),
      hmodule, hallowed, ?_, ?_, ?_, ?_, ?_⟩
    · exact fun _ h => nomatch h
    · exact fun _ h => nomatch h
    · exact fun _ h => nomatch h
    · rintro j (h | h)
      · exact nomatch h
      · exact nomatch h
    · exact fun _ h => nomatch h
  ordinary := hbeginning
  table name hname := (hready.table name hname).imp_right .inl
  covers i l hmarks hle := absurd (hready.layout.marks_lt hmarks) (Nat.not_lt.mpr hle)

/-- An `output` agrees with the label of its place. -/
theorem output_read {depth : Nat} {r : Node Operator × Draft}
    (hready : d.Ready c label) (h : output depth d = .ok r) :
    ∃ c', StatementRead d r.2 c c' label r.1 := by
  obtain ⟨_, ahead, -, h⟩ := tokens_bind h
  obtain ⟨e, ahead, he, h⟩ := expression_bind (hready.ahead ahead) h
  obtain ⟨_, ahead, -, h⟩ := tokens_bind h
  cases pure_ok.mp h
  exact ⟨c, simple_read hready ahead he (by simp) (by simp) trivial (by simp)⟩

/-- An `input` agrees with the label of its place. -/
theorem input_read {r : Node Operator × Draft} (hready : d.Ready c label)
    (h : input d = .ok r) : ∃ c', StatementRead d r.2 c c' label r.1 := by
  obtain ⟨_, ahead, -, h⟩ := tokens_bind h
  obtain ⟨_, ahead, -, h⟩ := tokens_bind h
  obtain ⟨o, ho, h⟩ := target_bind (hready.ahead ahead) h
  obtain ⟨_, ahead, -, h⟩ := tokens_bind h
  cases pure_ok.mp h
  exact ⟨c, simple_read hready ahead ho (by simp) (by simp) trivial (by simp)⟩

/-- An assignment behind its target agrees with the label of its place. -/
theorem assignmentTail_read {depth : Nat} {o : Occurrence} {element : Option Expr}
    {r : Node Operator × Draft} (hready : d.Ready c label)
    (ho : c.Resolves d.program label o)
    (helement : ∀ e ∈ element, e.Uses (c.Resolves d.program label) (c.Calls label))
    (ahead : List Token) (h : assignmentTail depth o element { d with ahead } = .ok r) :
    ∃ c', StatementRead d r.2 c c' label r.1 := by
  obtain ⟨_, ahead, -, h⟩ := tokens_bind h
  obtain ⟨value, ahead, hvalue, h⟩ := expression_bind (hready.ahead ahead) h
  obtain ⟨_, ahead, -, h⟩ := tokens_bind h
  cases pure_ok.mp h
  exact ⟨c, simple_read hready ahead ⟨ho, helement, hvalue⟩ (by simp) (by simp)
    trivial (by simp)⟩

/-- An assignment agrees with the label of its place. -/
theorem assignment_read {depth : Nat} {r : Node Operator × Draft}
    (hready : d.Ready c label) (h : assignment depth d = .ok r) :
    ∃ c', StatementRead d r.2 c c' label r.1 := by
  rw [assignment_eq] at h
  obtain ⟨_, ahead, -, h⟩ := tokens_bind h
  obtain ⟨_, ahead, -, h⟩ := tokens_bind h
  obtain ⟨o, ho, h⟩ := target_bind (hready.ahead ahead) h
  obtain ⟨seen, ahead, -, h⟩ := tokens_bind h
  dsimp only at h
  rw [ite_apply] at h
  split at h
  · obtain ⟨_, ahead, -, h⟩ := tokens_bind h
    obtain ⟨e, ahead, he, h⟩ := expression_bind (hready.ahead ahead) h
    obtain ⟨_, ahead, -, h⟩ := tokens_bind h
    exact assignmentTail_read hready ho (by simpa using he) ahead h
  · exact assignmentTail_read hready ho (by simp) ahead h

/-- A `return` behind its result agrees with the label of its place. -/
theorem giveBackTail_read {f : FunctionDeclaration} {result : Option Expr}
    {r : Node Operator × Draft} (hready : d.Ready c label)
    (hinside : label.code.function ≠ none)
    (hresult : ∀ e ∈ result, e.Uses (c.Resolves d.program label) (c.Calls label))
    (ahead : List Token) (h : giveBackTail f result { d with ahead } = .ok r) :
    ∃ c', StatementRead d r.2 c c' label r.1 := by
  obtain ⟨_, ahead, -, h⟩ := tokens_bind h
  rw [ite_apply] at h
  split at h
  · exact (throw_ok.mp h).elim
  · rw [ite_apply] at h
    split at h
    · exact (throw_ok.mp h).elim
    · cases pure_ok.mp h
      exact ⟨c, simple_read hready ahead hresult (by simp) (by simp) hinside (by simp)⟩

/-- A `return` agrees with the label of its place, which is in a function. -/
theorem giveBack_read {depth : Nat} {r : Node Operator × Draft}
    (hready : d.Ready c label) (h : giveBack depth d = .ok r) :
    ∃ c', StatementRead d r.2 c c' label r.1 := by
  rw [giveBack_eq] at h
  obtain ⟨_, ahead, -, h⟩ := tokens_bind h
  obtain ⟨d₁, d₂, hget, h⟩ := bind_ok.mp h
  cases get_ok.mp hget
  cases hopen : ({ d with ahead } : Draft).openFunction? with
  | none =>
    rw [hopen] at h
    exact (throw_ok.mp h).elim
  | some f =>
    rw [hopen] at h
    have hinside : label.code.function ≠ none := by
      intro hnone
      rw [← hready.function] at hnone
      simp [Draft.openFunction?, hnone] at hopen
    obtain ⟨seen, ahead, -, h⟩ := tokens_bind h
    dsimp only at h
    rw [ite_apply] at h
    split at h
    · exact giveBackTail_read hready hinside (by simp) ahead h
    · obtain ⟨e, ahead, he, h⟩ := expression_bind (hready.ahead ahead) h
      exact giveBackTail_read hready hinside (by simpa using he) ahead h

/-- A call agrees with the label of its place. -/
theorem call_read {depth : Nat} {r : Node Operator × Draft}
    (hready : d.Ready c label) (h : call depth d = .ok r) :
    ∃ c', StatementRead d r.2 c c' label r.1 := by
  obtain ⟨_, ahead, -, h⟩ := tokens_bind h
  obtain ⟨d₁, d₂, hget, h⟩ := bind_ok.mp h
  cases get_ok.mp hget
  obtain ⟨e, rest, hread, h⟩ := tokens_bind h
  obtain ⟨used, -, hderives⟩ := primary_sound (expression_sound depth) hread
  have huses := hderives.uses.imp (fun _ ⟨_, ho⟩ => (hready.ahead ahead).resolves ho)
    fun _ hc => (hready.ahead ahead).calls hc
  cases e with
  | call name callee arguments =>
    obtain ⟨_, ahead, -, h⟩ := tokens_bind h
    cases pure_ok.mp h
    cases huses with
    | call hcallee harguments =>
      exact ⟨c, simple_read hready ahead ⟨hcallee, harguments⟩ (by simp) (by simp)
        trivial (by simp)⟩
  | _ => exact (throw_ok.mp h).elim

/-- A variable entered into a table is a step forward. -/
theorem advances_entered {d' : Draft} {code : Code} {name : String} {v : Variable}
    (hlayout : Layout d.program c) (h : d.Entered d' code name v) :
    d.Advances d' c c where
  layout := hlayout.retable h.grows h.forest h.size h.functions
  grows := h.grows
  chart := .refl c
  notes := rfl
  old _ _ := by rw [h.forest]
  roots := by rw [h.forest]
  functions := h.functions
  outside := h.outside
  findFunction := h.findFunction
  findMethod := h.findMethod
  module := h.module
  function := h.function
  block := h.block
  last := h.last

/-- A declaration behind its initial value is in the table of its code. -/
theorem declarationTail_read {type : DeclaredType} {name : String}
    {initial : Option Expr} {r : Node Operator × Draft} (hready : d.Ready c label)
    (hinitial : ∀ e ∈ initial, e.Uses (c.Resolves d.program label) (c.Calls label))
    (ahead : List Token)
    (h : declarationTail type name initial { d with ahead } = .ok r) :
    ∃ c', StatementRead d r.2 c c' label r.1 := by
  unfold declarationTail at h
  obtain ⟨_, ahead, -, h⟩ := tokens_bind h
  simp only [bind_ok, get_ok, lift_ok, set_ok, pure_ok] at h
  obtain ⟨d₁, d₂, hget, d₃, d₄, ⟨hdeclare, hsame⟩, _, d₅, hset, h⟩ := h
  cases hget
  cases hset
  subst h
  have hthen := hready.ahead ahead
  have hentered := Draft.declareVariable_entered hthen.module hthen.function hdeclare
  have hadvances := (advances_entered hthen.layout hentered).since
  refine ⟨c, ⟨hadvances, rfl, ?_, by simp, ?_, ?_⟩⟩
  · refine ⟨fun e he => ?_, ?_, by simp, trivial, ?_, ?_, ?_, ?_, ?_⟩
    · exact (hinitial e he).imp (fun _ ho => ho.grow (.refl c) hentered.grows)
        fun _ hf => hf
    · rintro type' name' initial' hop
      cases hop
      exact ⟨_, hentered.found, rfl⟩
    · exact fun _ h => nomatch h
    · exact fun _ h => nomatch h
    · exact fun _ h => nomatch h
    · rintro j (h | h)
      · exact nomatch h
      · exact nomatch h
    · exact fun _ h => nomatch h
  · intro other hother
    obtain hold | rfl := hentered.only other hother
    · obtain hseen | hdoubts := hready.table other hold
      · exact .inl hseen
      · exact .inr (.inl (hdoubts.grow (.refl c) hentered.grows))
    · exact .inr (.inr ⟨type, initial, rfl⟩)
  · intro i l hmarks hle
    exact absurd (hready.layout.marks_lt hmarks) (Nat.not_lt.mpr hle)

/-- A declaration agrees with the label of its place, and what follows may count on it
unless it is nested. -/
theorem declaration_read {depth : Nat} {r : Node Operator × Draft}
    (hready : d.Ready c label) (h : declaration depth d = .ok r) :
    ∃ c', StatementRead d r.2 c c' label r.1 := by
  rw [declaration_eq] at h
  obtain ⟨_, ahead, -, h⟩ := tokens_bind h
  obtain ⟨_, ahead, -, h⟩ := tokens_bind h
  obtain ⟨t, ahead, -, h⟩ := tokens_bind h
  obtain ⟨word, ahead, -, h⟩ := tokens_bind h
  obtain ⟨seen, ahead, -, h⟩ := tokens_bind h
  dsimp only at h
  rw [ite_apply] at h
  split at h
  · obtain ⟨_, ahead, -, h⟩ := tokens_bind h
    obtain ⟨e, ahead, he, h⟩ := expression_bind (hready.ahead ahead) h
    exact declarationTail_read hready (by simpa using he) ahead h
  · exact declarationTail_read hready (by simp) ahead h

end Builder

/-! ## Placing and linking

A statement that was read becomes a node with the label that was current, and the one before it
is linked to it.  To place adds a node without a link to it; to link changes a node that was
there.  Neither changes what a label says. -/

namespace Draft

/-- A draft with another forest. -/
def withForest (d : Draft) (f : Forest Operator) : Draft :=
  { d with program := { d.program with forest := f } }

variable {d₀ d d' : Draft} {c₀ c c' : Chart} {label : Label} {f : Forest Operator}

/-- Code can go on being read in a forest that has grown. -/
theorem Ready.reforest (h : d.Ready c label) (hf : d.program.forest.Grows f)
    (hlayout : Layout (d.withForest f).program c) : (d.withForest f).Ready c label :=
  h.goesOn hlayout (Program.grows_forest hf) (.refl c) rfl rfl rfl rfl
    (fun _ _ => .inl) fun _ _ _ => .inl

/-- A step forward that also changes the forest, at new places only. -/
theorem Advances.reforest (h : d₀.Advances d c₀ c) (hf : d.program.forest.Grows f)
    (hlayout : Layout (d.withForest f).program c)
    (hold : ∀ i < d₀.program.forest.nodes.size,
      f.nodes[i]? = d.program.forest.nodes[i]?)
    (hroots : f.roots = d.program.forest.roots) :
    d₀.Advances (d.withForest f) c₀ c :=
  ⟨hlayout, h.grows.trans (Program.grows_forest hf), h.chart, h.notes,
    fun i hi => (hold i hi).trans (h.old i hi), hroots.trans h.roots, h.functions,
    h.outside, h.findFunction, h.findMethod, h.module, h.function, h.block, h.last⟩

/-- Placing an operator is a step forward. -/
theorem Advances.placed {node : Node Operator} {new : Option Label}
    (hlayout : Layout (d.withForest (d.program.forest.placed node)).program
      (c.labelled new)) :
    d.Advances (d.withForest (d.program.forest.placed node)) c (c.labelled new) :=
  ⟨hlayout, Program.grows_forest (d.program.forest.grows_placed node),
    c.grows_labelled new, rfl, fun _ hi => Forest.nodes_placed (Nat.ne_of_lt hi), rfl,
    fun _ f hf => ⟨f, hf, rfl, rfl, rfl⟩, fun _ _ => rfl, fun _ _ => rfl,
    fun _ _ _ => rfl, rfl, rfl, rfl, rfl⟩

end Draft

/-- A statement that was read and placed: the next one has the label behind it, and
all that was placed on the way is reached from it. -/
structure StatementPlaced (d d' : Draft) (c c' : Chart) (label : Label)
    (node : Node Operator) (index : Nat) : Prop where
  advances : d.Advances d' c c'
  loose : node.index = none
  later : d.program.forest.nodes.size ≤ index
  found : d'.program.forest.nodes[index]? = some (node.at index)
  marks : c'.Marks index label
  ordinary : node.operator ≠ .beginning
  ready : d'.Ready c' (label.after node.operator)
  covers : ∀ i l, c'.Marks i l → d.program.forest.nodes.size ≤ i →
    l.code = label.code ∧ ∃ nested, d'.program.forest.Inside index nested i ∧
      l.nested = (label.nested || nested)

/-- What lies beneath a placed operator is nested in it. -/
theorem Forest.Beneath.inside {f : Forest Operator} {node : Node Operator} {index i : Nat}
    (h : f.Beneath node i) (hindex : f.nodes[index]? = some (node.at index)) :
    f.Inside index true i := by
  obtain ⟨j, nested, hlink, hinside⟩ := h
  have hfirst : f.Inside index true j := by
    obtain ⟨hconditional, hchild⟩ | hbranch := hlink
    · exact .nested .here hindex hconditional hchild
    · exact .branch .here hindex hbranch
  simpa using hfirst.trans hinside

/-- A statement that was read is placed, with the label of its place. -/
theorem StatementRead.placed {d d' : Draft} {c c' : Chart} {label : Label}
    {node : Node Operator} (hready : d.Ready c label)
    (h : StatementRead d d' c c' label node) :
    StatementPlaced d (d'.withForest (d'.program.forest.placed node)) c
      (c'.labelled (some label)) label node d'.program.forest.nodes.size := by
  have hgrows := Program.grows_forest (d'.program.forest.grows_placed node)
  have hchart := c'.grows_labelled (some label)
  have hlayout : Layout (d'.withForest (d'.program.forest.placed node)).program
      (c'.labelled (some label)) :=
    h.advances.layout.place (by rintro _ ⟨⟩; exact h.fits) nofun
  have hsize := h.advances.grows.forest.size
  have hadvances := h.advances.trans (.placed hlayout)
  have hmarks := h.advances.layout.marks_labelled label
  have hfound : (d'.program.forest.placed node).nodes[d'.program.forest.nodes.size]? =
      some (node.at d'.program.forest.nodes.size) := Forest.nodes_placed_last
  refine ⟨hadvances, h.loose, hsize, hfound, hmarks, h.ordinary, ?_, ?_⟩
  · refine hadvances.ready hready (label.after_code _) (fun _ => Label.mem_after) ?_ ?_
    · intro name hname
      obtain hseen | ⟨t, initial, hop⟩ := Label.seen_after hname
      · obtain ⟨v, hv⟩ := Table.has_iff.mp (hready.seen name hseen)
        exact Table.has_iff.mpr ⟨v, hadvances.grows.tables _ _ _ hv⟩
      · obtain ⟨v, hv, -⟩ := h.fits.declares t name initial hop
        exact Table.has_iff.mpr ⟨v, hv⟩
    · intro name hname
      obtain hseen | hdoubts | ⟨t, initial, hop⟩ := h.table name hname
      · exact .inl (Label.mem_after hseen)
      · exact .inr (hdoubts.grow hchart hgrows)
      · cases hnested : label.nested with
        -- a nested declaration makes its name doubtful, any other certain
        | true => exact .inr ⟨_, label, _, t, initial, hmarks, rfl, hnested, hfound, hop⟩
        | false =>
          rw [hop]
          exact .inl (Label.mem_after_declaration hnested t name initial)
  · intro i l hl hle
    -- it is the operator itself, or was placed before and lies beneath it
    obtain ⟨rfl, hnew⟩ | ⟨hlt, hl'⟩ := h.advances.layout.of_marks_labelled hl
    · cases hnew
      exact ⟨rfl, false, .here, by simp⟩
    · obtain ⟨hcode, hnested, hbeneath⟩ := h.covers i l hl' hle
      exact ⟨hcode, true, (hbeneath.grow hgrows.forest).inside hfound, by simp [hnested]⟩

/-! ## Bodies

The row is built from its first operator on.  What has to be known between two operators is
what the row looks like so far and to which node the next one will be linked (`BodySoFar`). -/

/-- What reading a body comes to: it begins with the label, and all that was placed
on the way is reached from its first operator. -/
structure BodyRead (d d' : Draft) (c c' : Chart) (label : Label)
    (first : Option Nat) : Prop where
  advances : d.Advances d' c c'
  marks : ∀ start, first = some start → c'.Marks start label
  covers : ∀ i l, c'.Marks i l → d.program.forest.nodes.size ≤ i →
    l.code = label.code ∧ ∃ start nested, first = some start ∧
      d'.program.forest.Inside start nested i ∧
      l.nested = (label.nested || nested)
  ready : label.nested = true → d'.Ready c' label

/-- A row that has been read up to some operator, `previous`, which the next one will be
linked to; `current` is the label that the next one gets.  The row begins with its first
operator or, in a branch of a conditional, with the branch itself. -/
structure BodySoFar (d₀ d : Draft) (c₀ c : Chart) (label current : Label)
    (first previous : Option Nat) : Prop where
  body : BodyRead d₀ d c₀ c label first
  ready : d.Ready c current
  code : current.code = label.code
  nested : current.nested = label.nested
  same : label.nested = true → current = label
  chain : (first = none ∧ previous = none ∧ current = label) ∨
    ∃ start q l node passed, first = some start ∧ previous = some q ∧
      d₀.program.forest.nodes.size ≤ q ∧ c.Marks q l ∧
      d.program.forest.nodes[q]? = some node ∧ node.operator ≠ .beginning ∧
      current = l.after node.operator ∧ d.program.forest.Inside start passed q ∧
      (passed = true → label.nested = true)

/-- An old label is a label of the chart before. -/
theorem Layout.marks_of_grows {p : Program} {c c' : Chart} (h : Layout p c)
    (hc : c.Grows c') {i : Nat} {l : Label} (hl : c'.Marks i l)
    (hlt : i < p.forest.nodes.size) : c.Marks i l := by
  obtain ⟨more, hmore⟩ := hc.labels
  unfold Chart.Marks at hl ⊢
  rw [← hmore, List.getElem?_append_left (by rw [h.labels]; exact hlt)] at hl
  exact hl

namespace BodySoFar

variable {d₀ d d' : Draft} {c₀ c c' : Chart} {label current : Label}
  {node : Node Operator} {index : Nat}

/-- A row without operators yet. -/
theorem start (h : d.Ready c label) :
    BodySoFar d d c c label label none none where
  body := by
    refine ⟨.refl h.layout, by simp, fun i l hmarks hle => ?_, fun _ => h⟩
    exact absurd (h.layout.marks_lt hmarks) (Nat.not_lt.mpr hle)
  ready := h
  code := rfl
  nested := rfl
  same _ := rfl
  chain := .inl ⟨rfl, rfl, rfl⟩

/-- The first operator of a row. -/
theorem first (h : BodySoFar d₀ d c₀ c label current none none)
    (hplaced : StatementPlaced d d' c c' current node index) :
    BodySoFar d₀ d' c₀ c' label (current.after node.operator) (some index)
      (some index) := by
  have hcurrent : current = label := by
    obtain ⟨-, -, heq⟩ | ⟨_, _, _, _, _, hfirst, -⟩ := h.chain
    · exact heq
    · cases hfirst
  subst hcurrent
  have hlater := Nat.le_trans h.body.advances.grows.forest.size hplaced.later
  refine ⟨⟨h.body.advances.trans hplaced.advances, ?_, ?_, ?_⟩, hplaced.ready,
    current.after_code _, current.after_nested _,
    fun hnested => Label.after_of_nested hnested _,
    .inr ⟨index, index, current, _, false, rfl, rfl, hlater, hplaced.marks, hplaced.found,
      hplaced.ordinary, rfl, .here, by simp⟩⟩
  · rintro _ ⟨⟩
    exact hplaced.marks
  · intro i l hl hle
    by_cases hnew : d.program.forest.nodes.size ≤ i
    · obtain ⟨hcode, nested, hinside, heq⟩ := hplaced.covers i l hl hnew
      exact ⟨hcode, index, nested, rfl, hinside, heq⟩
    · -- before the first statement nothing was placed
      have hold := h.body.advances.layout.marks_of_grows hplaced.advances.chart hl
        (Nat.lt_of_not_le hnew)
      obtain ⟨-, _, _, hfirst, -⟩ := h.body.covers i l hold hle
      cases hfirst
  · intro hnested
    have hready := hplaced.ready
    rwa [Label.after_of_nested hnested] at hready

/-- A further operator of a row, once the one before it has been linked to it. -/
theorem linked {first : Option Nat} {q : Nat} {f : Forest Operator} {passed : Bool}
    (h : BodySoFar d₀ d c₀ c label current first (some q))
    (hplaced : StatementPlaced d d' c c' current node index)
    (hgrows : d'.program.forest.Grows f) (hlayout : Layout (d'.withForest f).program c')
    (hkept : ∀ k, q ≠ k → f.nodes[k]? = d'.program.forest.nodes[k]?)
    (hroots : f.roots = d'.program.forest.roots) (hinside : f.Inside q passed index)
    (hpassed : passed = true → label.nested = true) :
    BodySoFar d₀ (d'.withForest f) c₀ c' label (current.after node.operator) first
      (some index) := by
  obtain ⟨-, hnone, -⟩ | ⟨start, q', l, before, passed', rfl, hq', hle, hl, hbefore, -, -,
    hreached, hpassed'⟩ := h.chain
  · cases hnone
  cases hq'
  have hqlt : q < d.program.forest.nodes.size := h.body.advances.layout.marks_lt hl
  -- the new one is reached through the one before
  have hlinked : f.Inside start (passed' || passed) index :=
    ((hreached.grow hplaced.advances.grows.forest).grow hgrows).trans hinside
  have hthrough : (passed' || passed) = true → label.nested = true := by
    rw [Bool.or_eq_true]
    exact fun hor => hor.elim hpassed' hpassed
  have hadvances := (h.body.advances.trans hplaced.advances).reforest hgrows hlayout
    (fun i hi => hkept i (by omega)) hroots
  have hready := hplaced.ready.reforest hgrows hlayout
  refine ⟨⟨hadvances, ?_, ?_, ?_⟩, hready, (current.after_code _).trans h.code,
    (current.after_nested _).trans h.nested, ?_, ?_⟩
  · intro start' hstart'
    exact (h.body.marks start' hstart').grow hplaced.advances.chart
  · intro i l' hl' hle'
    by_cases hnew : d.program.forest.nodes.size ≤ i
    · -- placed with this statement, or with an earlier one of the body
      obtain ⟨hcode, nested, hin, heq⟩ := hplaced.covers i l' hl' hnew
      refine ⟨hcode.trans h.code, start, _, rfl, hlinked.trans (hin.grow hgrows), ?_⟩
      rw [heq, h.nested]
      cases hn : label.nested with
      | true => rfl
      | false =>
        have hfalse : (passed' || passed) = false := by
          rw [← Bool.not_eq_true]
          exact fun htrue => by simp [hthrough htrue] at hn
        simp [hfalse]
    · have hold := h.body.advances.layout.marks_of_grows hplaced.advances.chart hl'
        (Nat.lt_of_not_le hnew)
      obtain ⟨hcode, start', nested, hstart', hin, heq⟩ := h.body.covers i l' hold hle'
      exact ⟨hcode, start', nested, hstart',
        (hin.grow hplaced.advances.grows.forest).grow hgrows, heq⟩
  · intro hnested
    rwa [h.same hnested, Label.after_of_nested hnested] at hready
  · intro hnested
    rw [h.same hnested, Label.after_of_nested hnested]
  · have hne : q ≠ index := Nat.ne_of_lt (Nat.lt_of_lt_of_le hqlt hplaced.later)
    exact .inr ⟨start, index, current, _, _, rfl, rfl,
      Nat.le_trans h.body.advances.grows.forest.size hplaced.later, hplaced.marks,
      (hkept index hne).trans hplaced.found, hplaced.ordinary, rfl, hlinked, hthrough⟩

/-- An operator that follows the one before it. -/
theorem next {first : Option Nat} {q : Nat} {f : Forest Operator}
    (h : BodySoFar d₀ d c₀ c label current first (some q))
    (hplaced : StatementPlaced d d' c c' current node index)
    (hfollow : d'.program.forest.follow q index = .ok f) :
    BodySoFar d₀ (d'.withForest f) c₀ c' label (current.after node.operator) first
      (some index) := by
  obtain ⟨-, hnone, -⟩ | ⟨-, q', l, before, -, -, hq', -, hl, hbefore, hordinary,
    hcurrent, -, -⟩ := h.chain
  · cases hnone
  cases hq'
  obtain ⟨last, hlast, hunlinked, rfl⟩ := Forest.follow_ok hfollow
  -- the one before is still as it was placed
  have hold := hplaced.advances.old q (h.body.advances.layout.marks_lt hl)
  rw [hlast, hbefore] at hold
  cases hold
  have hlayout : Layout (d'.withForest (d'.program.forest.followed q index)).program c' :=
    hplaced.advances.layout.follow hlast hunlinked (hl.grow hplaced.advances.chart)
      hordinary (hcurrent ▸ hplaced.marks)
  exact h.linked hplaced (Forest.grows_followed hlast hunlinked) hlayout
    (fun k hk => Forest.nodes_followed_ne hk) rfl
    (.next .here (Forest.nodes_followed hlast) rfl) (by simp)

/-- The first operator that is nested in a branch of a conditional. -/
theorem below {label : Label} {first : Option Nat} {q : Nat} {branch : Node Operator}
    {f : Forest Operator}
    (h : BodySoFar d₀ d c₀ c label.inside current first (some q))
    (hplaced : StatementPlaced d d' c c' current node index)
    (hbranch : d.program.forest.nodes[q]? = some branch)
    (hconditional : branch.operator.isConditional = true)
    (hadopt : d'.program.forest.adopt q index = .ok f) :
    BodySoFar d₀ (d'.withForest f) c₀ c' label.inside (current.after node.operator) first
      (some index) := by
  obtain ⟨-, hnone, -⟩ | ⟨-, q', l, before, -, -, hq', -, hl, hbefore, hordinary,
    hcurrent, -, -⟩ := h.chain
  · cases hnone
  cases hq'
  cases hbranch.symm.trans hbefore
  obtain ⟨opening, hopening, hchildless, rfl⟩ := Forest.adopt_ok hadopt
  have hold := hplaced.advances.old q (h.body.advances.layout.marks_lt hl)
  rw [hopening, hbranch] at hold
  cases hold
  have hmarks := hl.grow hplaced.advances.chart
  have hcurrent' : current = label.inside := h.same rfl
  have hlayout : Layout (d'.withForest (d'.program.forest.adopted q index)).program c' := by
    refine hplaced.advances.layout.adopt hopening hchildless (fun l' hl' => ?_) ?_
    · cases Option.some.inj (Option.some.inj (hmarks.symm.trans hl'))
      refine ⟨fun hop => absurd hop hordinary, fun _ => ?_⟩
      -- what is nested in a branch has the label of the branch, for that is nested, too
      have hinside : l.inside = current := by
        have hnested : (l.after branch.operator).nested = true := by
          rw [← hcurrent, hcurrent']
          rfl
        rw [Label.after_nested] at hnested
        rw [hcurrent, Label.after_of_nested hnested]
        unfold Label.inside
        rw [← hnested]
      rw [hinside]
      exact hplaced.marks
    · intro name number hop
      simp [hop, Operator.isConditional] at hconditional
  exact h.linked hplaced (Forest.grows_adopted hopening hchildless) hlayout
    (fun k hk => Forest.nodes_adopted_ne hk) rfl
    (.nested .here (Forest.nodes_adopted hopening) hconditional rfl) fun _ => rfl

end BodySoFar

/-- Tokens that were read behind a body make no difference. -/
theorem BodyRead.reading {d d' : Draft} {c c' : Chart} {label : Label}
    {first : Option Nat} (h : BodyRead d d' c c' label first) (ahead : List Token) :
    BodyRead d { d' with ahead } c c' label first :=
  ⟨h.advances.reading ahead, h.marks, h.covers, fun hn => (h.ready hn).ahead ahead⟩

/-- Tokens that were read behind an operator of a row make no difference. -/
theorem BodySoFar.reading {d₀ d : Draft} {c₀ c : Chart} {label current : Label}
    {first previous : Option Nat}
    (h : BodySoFar d₀ d c₀ c label current first previous) (ahead : List Token) :
    BodySoFar d₀ { d with ahead } c₀ c label current first previous :=
  ⟨h.body.reading ahead, h.ready.ahead ahead, h.code, h.nested, h.same, h.chain⟩

/-- What a reader of statements has to come to, wherever it is used. -/
def ReadsStatements (statement : Builder (Node Operator)) : Prop :=
  ∀ d c label, Draft.Ready d c label → ∀ r, statement d = .ok r →
    ∃ c', StatementRead d r.2 c c' label r.1

namespace Builder

variable {d : Draft} {c : Chart} {label : Label} {statement : Builder (Node Operator)}

/-- To place a loose node puts it behind all others. -/
theorem place_ok {node : Node Operator} {r : Nat × Draft} (hloose : node.index = none)
    (h : place node d = .ok r) :
    r = (d.program.forest.nodes.size,
      d.withForest (d.program.forest.placed node)) := by
  unfold place at h
  simp only [bind_ok, get_ok, set_ok, pure_ok] at h
  obtain ⟨d₁, d₂, hget, _, d₃, hset, h⟩ := h
  cases hget
  cases hset
  rw [Forest.add_of_loose hloose] at h
  exact h

/-- To put a node in changes only the forest. -/
theorem insert_ok {previous : Option Nat} {node : Node Operator} {asChild : Bool}
    {r : Nat × Draft} (h : insert previous node asChild d = .ok r) :
    ∃ f, d.program.forest.insert previous node asChild = .ok (r.1, f) ∧
      r.2 = d.withForest f := by
  unfold insert at h
  simp only [bind_ok, get_ok, lift_ok, set_ok, pure_ok] at h
  obtain ⟨d₁, d₂, hget, p, d₃, ⟨hinsert, hsame⟩, _, d₄, hset, h⟩ := h
  cases hget
  cases hset
  subst h
  exact ⟨p.2, hinsert, rfl⟩

/-- An owner that is in the forest has no nested operator yet. -/
theorem nestPlaced_ok {owner index : Nat} {r : Nat × Draft}
    (h : nestPlaced owner index d = .ok r) :
    ∃ f, d.program.forest.adopt owner index = .ok f ∧ r = (owner, d.withForest f) := by
  unfold nestPlaced at h
  simp only [bind_ok, get_ok, lift_ok, set_ok, pure_ok] at h
  obtain ⟨d₁, d₂, hget, f, d₃, ⟨hadopt, hsame⟩, _, d₄, hset, h⟩ := h
  cases hget
  cases hset
  exact ⟨f, hadopt, h⟩

/-- An owner that is loose has no nested operator yet, and the draft stays as it is. -/
theorem nestLoose_ok {owner : Node Operator} {index : Nat} {r : Node Operator × Draft}
    (h : nestLoose owner index d = .ok r) :
    r = ({ owner with links := { owner.links with child := some index } }, d) := by
  obtain ⟨hadopt, hsame⟩ := lift_ok.mp h
  exact Prod.ext (Node.adopt_ok.mp hadopt).2 hsame

section

variable {π : Type} {nest : π → Nat → Builder π} {owner : π} {node : Node Operator}

/-- The first operator of a row is placed, and its owner takes it in. -/
theorem attach_first_ok {r : (π × Nat) × Draft} (hloose : node.index = none)
    (h : attach nest owner none node d = .ok r) :
    r.1.2 = d.program.forest.nodes.size ∧
      nest owner d.program.forest.nodes.size
        (d.withForest (d.program.forest.placed node)) = .ok (r.1.1, r.2) := by
  obtain ⟨index, d₁, hplace, h⟩ := bind_ok.mp h
  cases place_ok hloose hplace
  obtain ⟨owner', d₂, hnest, h⟩ := bind_ok.mp h
  cases pure_ok.mp h
  exact ⟨rfl, hnest⟩

/-- Every other operator of a row is placed, and follows the one before it. -/
theorem attach_next_ok {q : Nat} {r : (π × Nat) × Draft} (hloose : node.index = none)
    (h : attach nest owner (some q) node d = .ok r) :
    ∃ f, (d.program.forest.placed node).follow q d.program.forest.nodes.size = .ok f ∧
      r = ((owner, d.program.forest.nodes.size), d.withForest f) := by
  obtain ⟨index, d₁, hinsert, h⟩ := bind_ok.mp h
  obtain ⟨f, hinsert, rfl⟩ := insert_ok hinsert
  obtain ⟨rfl, hfollow⟩ := Forest.insert_ok hloose hinsert
  exact ⟨f, hfollow, pure_ok.mp h⟩

/-- A row of statements is over, or one of them is read and attached before the others. -/
theorem bodyRest_ok {line : String} {closing : List Token.Kind} {b : Token}
    {bound : List Token} {previous : Option Nat} {r : π × Draft}
    (h : bodyRest nest statement line closing (b :: bound) owner previous d = .ok r) :
    ∃ ahead, r = (owner, { d with ahead }) ∨
      ∃ node d₁ attached, statement { d with ahead } = .ok (node, d₁) ∧
        attach nest owner previous node d₁ = .ok attached ∧
        bodyRest nest statement line closing bound attached.1.1 (some attached.1.2)
          attached.2 = .ok r := by
  obtain ⟨seen, ahead, -, h⟩ := tokens_bind h
  refine ⟨ahead, ?_⟩
  rw [ite_apply] at h
  split at h
  · exact .inl (pure_ok.mp h)
  · obtain ⟨d₁, d₂, hget, h⟩ := bind_ok.mp h
    cases get_ok.mp hget
    rw [ite_apply] at h
    split at h
    · exact (throw_ok.mp h).elim
    · obtain ⟨node, d₃, hread, h⟩ := bind_ok.mp h
      obtain ⟨attached, d₄, hattach, h⟩ := bind_ok.mp h
      exact .inr ⟨node, d₃, (attached, d₄), hread, hattach, h⟩

/-- Behind its first operator a row no longer depends on what it is nested in. -/
theorem bodyRest_read (hstatement : ReadsStatements statement) {line : String}
    {closing : List Token.Kind} {d₀ : Draft} {c₀ : Chart} {first : Option Nat} :
    ∀ (bound : List Token) {q : Nat} {d : Draft} {c : Chart} {current : Label}
      {r : π × Draft}, BodySoFar d₀ d c₀ c label current first (some q) →
      bodyRest nest statement line closing bound owner (some q) d = .ok r →
      r.1 = owner ∧ d.program.forest.Grows r.2.program.forest ∧
        ∃ c', BodyRead d₀ r.2 c₀ c' label first
  | [], _, _, c, _, _, hsofar, h => by
    cases pure_ok.mp h
    exact ⟨rfl, .refl _, c, hsofar.body⟩
  | _ :: bound, q, d, c, current, r, hsofar, h => by
    obtain ⟨ahead, rfl | ⟨node, d₁, attached, hread, hattach, h⟩⟩ := bodyRest_ok h
    · exact ⟨rfl, .refl _, c, (hsofar.reading ahead).body⟩
    · have hsofar := hsofar.reading ahead
      obtain ⟨c₁, hread⟩ := hstatement _ c current hsofar.ready _ hread
      have hplaced := hread.placed hsofar.ready
      obtain ⟨f, hfollow, rfl⟩ := attach_next_ok hread.loose hattach
      obtain ⟨howner, hrest, hbody⟩ :=
        bodyRest_read hstatement bound (hsofar.next hplaced hfollow) h
      obtain ⟨last, hlast, hnone, rfl⟩ := Forest.follow_ok hfollow
      have hgrows := (Forest.grows_followed hlast hnone).trans hrest
      exact ⟨howner, hplaced.advances.grows.forest.trans hgrows, hbody⟩

end

/-- A body keeps everything in agreement, and its owner has it. -/
theorem body_read (hstatement : ReadsStatements statement) (hready : d.Ready c label)
    {operator : Operator} {closing : List Token.Kind} {r : Node Operator × Draft}
    (h : body nestLoose statement operator closing { operator } d = .ok r) :
    ∃ child c', r.1 = { operator, links := { child } } ∧
      BodyRead d r.2 c c' label child := by
  unfold body at h
  obtain ⟨d₁, d₂, hget, h⟩ := bind_ok.mp h
  cases get_ok.mp hget
  have hstart := BodySoFar.start hready
  obtain ⟨ahead, rfl | ⟨node, d₁, attached, hread, hattach, h⟩⟩ := bodyRest_ok h
  · exact ⟨none, c, rfl, (hstart.reading ahead).body⟩
  · have hready := hready.ahead ahead
    obtain ⟨c₁, hread⟩ := hstatement _ c label hready _ hread
    have hfirst := (hstart.reading ahead).first (hread.placed hready)
    obtain ⟨hindex, hnest⟩ := attach_first_ok hread.loose hattach
    obtain ⟨howner, hsame⟩ := Prod.mk.inj (nestLoose_ok hnest)
    rw [hindex, hsame, howner] at h
    obtain ⟨hkept, -, c', hbody⟩ := bodyRest_read hstatement _ hfirst h
    exact ⟨_, c', hkept, hbody⟩

/-- The body of a branch that is in the forest keeps everything in agreement, and all of it
is reached from the branch. -/
theorem branchBody_read (hstatement : ReadsStatements statement) {d₀ : Draft} {c₀ : Chart}
    {index : Nat} {branch : Node Operator} {operator : Operator} {closing : List Token.Kind}
    {r : Nat × Draft}
    (hplaced : StatementPlaced d₀ d c₀ c label.inside branch index)
    (hbefore : Draft.Ready d₀ c₀ label.inside)
    (hconditional : branch.operator.isConditional = true)
    (h : body nestPlaced statement operator closing index d = .ok r) :
    r.1 = index ∧ d.program.forest.Grows r.2.program.forest ∧
      ∃ c', BodyRead d₀ r.2 c₀ c' label.inside (some index) := by
  unfold body at h
  obtain ⟨d₁, d₂, hget, h⟩ := bind_ok.mp h
  cases get_ok.mp hget
  have hstart := (BodySoFar.start hbefore).first hplaced
  obtain ⟨ahead, rfl | ⟨node, d₁, attached, hread, hattach, h⟩⟩ := bodyRest_ok h
  · exact ⟨rfl, .refl _, c, (hstart.reading ahead).body⟩
  · have hstart := hstart.reading ahead
    obtain ⟨c₁, hread⟩ := hstatement _ c _ hstart.ready _ hread
    have hnested := hread.placed hstart.ready
    obtain ⟨hindex, hnest⟩ := attach_first_ok hread.loose hattach
    obtain ⟨f, hadopt, hsame⟩ := nestPlaced_ok hnest
    obtain ⟨howner, hdraft⟩ := Prod.mk.inj hsame
    rw [hindex, howner, hdraft] at h
    obtain ⟨hindex, hrest, hbody⟩ := bodyRest_read hstatement _
      (hstart.below hnested hplaced.found hconditional hadopt) h
    obtain ⟨opening, hopening, hnone, rfl⟩ := Forest.adopt_ok hadopt
    have hgrows := (Forest.grows_adopted hopening hnone).trans hrest
    exact ⟨hindex, hnested.advances.grows.forest.trans hgrows, hbody⟩

end Builder

/-! ## Loops and conditionals

The parts of a conditional are read one after the other: its own body, the further branches
and the fallback.  Names declared in one part are not known in the next, though the tables have
them; they are in doubt there. -/

/-- What reading parts of a loop or a conditional comes to: all that was placed on
the way is reached from one of the places given. -/
structure PartsRead (d d' : Draft) (c c' : Chart) (label : Label)
    (places : List Nat) : Prop where
  advances : d.Advances d' c c'
  ready : d'.Ready c' label.inside
  marks : ∀ j ∈ places, c'.Marks j label.inside
  covers : ∀ i l, c'.Marks i l → d.program.forest.nodes.size ≤ i →
    l.code = label.code ∧ l.nested = true ∧
      ∃ j ∈ places, ∃ nested, d'.program.forest.Inside j nested i

namespace PartsRead

variable {d d' d'' : Draft} {c c' c'' : Chart} {label : Label}
  {places places' : List Nat}

/-- No parts have been read. -/
theorem nothing (h : d.Ready c label.inside) : PartsRead d d c c label [] where
  advances := .refl h.layout
  ready := h
  marks := by simp
  covers i l hmarks hle := absurd (h.layout.marks_lt hmarks) (Nat.not_lt.mpr hle)

/-- Parts that were read one behind another. -/
theorem trans (h : PartsRead d d' c c' label places)
    (h' : PartsRead d' d'' c' c'' label places') :
    PartsRead d d'' c c'' label (places ++ places') := by
  refine ⟨h.advances.trans h'.advances, h'.ready, ?_, ?_⟩
  · intro j hj
    obtain hj | hj := List.mem_append.mp hj
    · exact (h.marks j hj).grow h'.advances.chart
    · exact h'.marks j hj
  · intro i l hl hle
    by_cases hnew : d'.program.forest.nodes.size ≤ i
    · obtain ⟨hcode, hnested, j, hj, nested, hinside⟩ := h'.covers i l hl hnew
      exact ⟨hcode, hnested, j, List.mem_append_right _ hj, nested, hinside⟩
    · have hold := h.advances.layout.marks_of_grows h'.advances.chart hl
        (Nat.lt_of_not_le hnew)
      obtain ⟨hcode, hnested, j, hj, nested, hinside⟩ := h.covers i l hold hle
      exact ⟨hcode, hnested, j, List.mem_append_left _ hj, nested,
        hinside.grow h'.advances.grows.forest⟩

/-- Tokens that were read behind parts make no difference. -/
theorem reading (h : PartsRead d d' c c' label places) (ahead : List Token) :
    PartsRead d { d' with ahead } c c' label places :=
  ⟨h.advances.reading ahead, h.ready.ahead ahead, h.marks, h.covers⟩

/-- It makes no difference which tokens were ahead at first. -/
theorem since {ahead : List Token}
    (h : PartsRead { d with ahead } d' c c' label places) :
    PartsRead d d' c c' label places :=
  ⟨h.advances.since, h.ready, h.marks, h.covers⟩

end PartsRead

/-- A body is one part, at the place of its first operator. -/
theorem BodyRead.parts {d d' : Draft} {c c' : Chart} {label : Label}
    {first : Option Nat} (h : BodyRead d d' c c' label.inside first) :
    PartsRead d d' c c' label first.toList where
  advances := h.advances
  ready := h.ready rfl
  marks j hj := h.marks j (by simpa using hj)
  covers i l hl hle := by
    obtain ⟨hcode, start, nested, rfl, hinside, heq⟩ := h.covers i l hl hle
    exact ⟨hcode, by simpa [Label.inside] using heq, start, by simp, nested, hinside⟩

/-- A loop or a conditional agrees with its label if its parts were read. -/
theorem PartsRead.statement {d d' : Draft} {c c' : Chart} {label : Label}
    {places : List Nat} (h : PartsRead d d' c c' label places)
    {node : Node Operator} (hconditional : node.operator.isConditional = true)
    (hallowed : node.operator.Allowed label)
    (huses : node.operator.Uses (c.Resolves d.program label) (c.Calls label))
    (hloose : node.index = none) (hunlinked : node.links.sibling = none)
    (hplaces : ∀ j, j ∈ places ↔ node.links.child = some j ∨
      j ∈ node.links.alternatives ∨ node.links.fallback = some j)
    (hfallback : ∀ j, node.links.fallback = some j →
      ∃ q, d'.program.forest.nodes[j]? = some q ∧ q.operator.isConditional = true) :
    StatementRead d d' c c' label node where
  advances := h.advances
  loose := hloose
  fits := by
    refine ⟨huses.imp (fun _ ho => ho.grow h.advances.chart h.advances.grows)
      fun _ hf => hf.grow h.advances.chart, ?_, ?_, hallowed, ?_, ?_, ?_, ?_, hfallback⟩
    · intro t name initial hop
      simp [hop, Operator.isConditional] at hconditional
    · intro name number hop
      simp [hop, Operator.isConditional] at hconditional
    · intro j hj
      simp [hunlinked] at hj
    · intro j _ hop
      simp [hop, Operator.isConditional] at hconditional
    · -- its body and its branches have the label of what is nested
      exact fun j hj _ => h.marks j ((hplaces j).mpr (.inl hj))
    · exact fun j hj => h.marks j ((hplaces j).mpr (.inr hj))
  ordinary hop := by simp [hop, Operator.isConditional] at hconditional
  table name hname := (h.ready.table name hname).imp_right .inl
  covers i l hl hle := by
    obtain ⟨hcode, hnested, j, hj, nested, hinside⟩ := h.covers i l hl hle
    refine ⟨hcode, hnested, j, nested, ?_, hinside⟩
    exact ((hplaces j).mp hj).imp_left fun hchild => ⟨hconditional, hchild⟩

namespace Builder

variable {d : Draft} {c : Chart} {label : Label} {statement : Builder (Node Operator)}

/-- The end of a loop or a conditional only takes tokens. -/
theorem closingWord_bind {kind : Token.Kind} {β : Type} {f : Unit → Builder β}
    {r : β × Draft} (h : (closingWord kind >>= f) d = .ok r) :
    ∃ ahead, f () { d with ahead } = .ok r := by
  obtain ⟨_, d₁, hclosing, h⟩ := bind_ok.mp h
  obtain ⟨_, ahead, -, hclosing⟩ := tokens_bind hclosing
  obtain ⟨_, ahead, -, hclosing⟩ := tokens_bind hclosing
  obtain ⟨_, ahead, -, hclosing⟩ := tokens_bind hclosing
  cases pure_ok.mp hclosing
  exact ⟨ahead, h⟩

/-- What a loop and a conditional begin with: a guard, and the body behind it. -/
theorem guarded_bind (operator : Expr → Operator) (hstatement : ReadsStatements statement)
    (hready : d.Ready c label) {kind : Token.Kind} {depth : Nat}
    {closing : List Token.Kind} {β : Type} {f : Node Operator → Builder β} {r : β × Draft}
    (h : (do
      let _ ← take kind
      let guard ← expression depth
      let _ ← take .thenWord
      let node ← body nestLoose statement (operator guard) closing
        { operator := operator guard }
      f node) d = .ok r) :
    ∃ guard child d₁ c₁, guard.Uses (c.Resolves d.program label) (c.Calls label) ∧
      PartsRead d d₁ c c₁ label child.toList ∧
      f { operator := operator guard, links := { child } } d₁ = .ok r := by
  obtain ⟨_, ahead, -, h⟩ := tokens_bind h
  obtain ⟨guard, ahead, hguard, h⟩ := expression_bind (hready.ahead ahead) h
  obtain ⟨_, ahead, -, h⟩ := tokens_bind h
  obtain ⟨node, d₁, hbody, h⟩ := bind_ok.mp h
  have hinside : Draft.Ready { d with ahead } c label.inside :=
    (hready.ahead ahead).relabel rfl rfl
  obtain ⟨child, c₁, hnode, hbody⟩ := body_read hstatement hinside hbody
  cases hnode
  exact ⟨guard, child, d₁, c₁, hguard, hbody.parts.since, h⟩

/-- A loop agrees with the label of its place if its statements do. -/
theorem loop_read (hstatement : ReadsStatements statement) {depth : Nat}
    {r : Node Operator × Draft} (hready : d.Ready c label)
    (h : loop statement depth d = .ok r) :
    ∃ c', StatementRead d r.2 c c' label r.1 := by
  obtain ⟨guard, child, d₁, c', hguard, hbody, h⟩ := guarded_bind _ hstatement hready h
  obtain ⟨ahead, h⟩ := closingWord_bind h
  cases pure_ok.mp h
  have hparts := hbody.reading ahead
  exact ⟨c', hparts.statement rfl trivial hguard rfl rfl (by simp) (by simp)⟩

/-- A further branch of a conditional: an operator that is placed first, then its body. -/
theorem furtherBranch_bind (hstatement : ReadsStatements statement)
    (hready : d.Ready c label.inside) (operator : Operator)
    {closing : List Token.Kind} {β : Type} {f : Nat → Builder β} {r : β × Draft}
    (hconditional : operator.isConditional = true)
    (hallowed : operator.Allowed label.inside)
    (huses : operator.Uses (c.Resolves d.program label.inside) (c.Calls label.inside))
    (h : (furtherBranch statement operator closing >>= f) d = .ok r) :
    ∃ index d' c', PartsRead d d' c c' label [index] ∧ f index d' = .ok r ∧
      ∃ q, d'.program.forest.nodes[index]? = some q ∧ q.operator = operator := by
  obtain ⟨branch, d₂, hbranch, h⟩ := bind_ok.mp h
  unfold furtherBranch at hbranch
  obtain ⟨index, d₁, hplace, hbody⟩ := bind_ok.mp hbranch
  cases place_ok rfl hplace
  have hnothing : PartsRead d d c c label.inside [] := .nothing hready
  have hread : StatementRead d d c c label.inside { operator } :=
    hnothing.statement hconditional hallowed huses rfl rfl (by simp) (by simp)
  have hplaced := hread.placed hready
  obtain ⟨rfl, hgrows, c', hbody⟩ := branchBody_read hstatement hplaced hready
    hconditional hbody
  -- the branch is where it was placed, and has kept its operator
  obtain ⟨q, hq, hgrows⟩ := hgrows.nodes _ _ hplaced.found
  exact ⟨_, _, c', hbody.parts, h, q, hq, hgrows.operator⟩

/-- Further branches keep everything in agreement, one behind another. -/
theorem alternatives_read (hstatement : ReadsStatements statement) {depth : Nat}
    {closing : List Token.Kind} :
    ∀ (bound : List Token) {d : Draft} {c : Chart} {r : List Nat × Draft},
      d.Ready c label.inside →
      alternatives statement depth closing bound d = .ok r →
      ∃ c', PartsRead d r.2 c c' label r.1
  | [], _, c, _, hready, h => by
    cases pure_ok.mp h
    exact ⟨c, .nothing hready⟩
  | _ :: bound, d, c, r, hready, h => by
    obtain ⟨seen, ahead, -, h⟩ := tokens_bind h
    rw [ite_apply] at h
    split at h
    · obtain ⟨_, ahead, -, h⟩ := tokens_bind h
      obtain ⟨guard, ahead, hguard, h⟩ := expression_bind (hready.ahead ahead) h
      obtain ⟨_, ahead, -, h⟩ := tokens_bind h
      obtain ⟨index, d₁, c₁, hbranch, h, -⟩ :=
        furtherBranch_bind hstatement (hready.ahead ahead) (.elseIf guard) rfl rfl hguard h
      obtain ⟨rest, d₂, hrest, h⟩ := bind_ok.mp h
      obtain ⟨c₂, hrest⟩ := alternatives_read hstatement bound hbranch.ready hrest
      cases pure_ok.mp h
      exact ⟨c₂, hbranch.since.trans hrest⟩
    · cases pure_ok.mp h
      exact ⟨c, (PartsRead.nothing hready).reading ahead⟩

/-- A conditional behind its branches agrees with the label of its place. -/
theorem branchTail_read {d' : Draft} {c' : Chart} {guard : Expr} {child : Option Nat}
    {further : List Nat} {fallback : Option Nat} {r : Node Operator × Draft}
    (hguard : guard.Uses (c.Resolves d.program label) (c.Calls label))
    (hparts : PartsRead d d' c c' label (child.toList ++ further ++ fallback.toList))
    (hfallback : ∀ j, fallback = some j → ∃ q, d'.program.forest.nodes[j]? = some q ∧
      q.operator.isConditional = true)
    (h : branchTail { operator := .branch guard, links := { child } } further fallback d' =
      .ok r) :
    ∃ c', StatementRead d r.2 c c' label r.1 := by
  obtain ⟨ahead, h⟩ := closingWord_bind h
  cases pure_ok.mp h
  refine ⟨c', (hparts.reading ahead).statement rfl trivial hguard rfl rfl (fun j => ?_)
    hfallback⟩
  simp

/-- A conditional agrees with the label of its place if its statements do. -/
theorem branch_read (hstatement : ReadsStatements statement) {depth : Nat}
    {r : Node Operator × Draft} (hready : d.Ready c label)
    (h : branch statement depth d = .ok r) :
    ∃ c', StatementRead d r.2 c c' label r.1 := by
  rw [branch_eq] at h
  obtain ⟨guard, child, d₁, c₁, hguard, hbody, h⟩ :=
    guarded_bind Operator.branch hstatement hready h
  obtain ⟨d₂, d₃, hget, h⟩ := bind_ok.mp h
  cases get_ok.mp hget
  obtain ⟨further, d₄, hfurther, h⟩ := bind_ok.mp h
  obtain ⟨c₂, hfurther⟩ := alternatives_read hstatement _ hbody.ready hfurther
  have hparts := hbody.trans hfurther
  -- the body and all further branches, in the order in which they were read
  obtain ⟨seen, ahead, -, h⟩ := tokens_bind h
  rw [ite_apply] at h
  split at h
  · obtain ⟨_, ahead, -, h⟩ := tokens_bind h
    obtain ⟨index, d₅, c₃, hbranch, h, q, hq, hop⟩ :=
      furtherBranch_bind hstatement (hfurther.ready.ahead ahead) .elseBranch rfl rfl
        trivial h
    refine branchTail_read hguard (hparts.trans hbranch.since) ?_ h
    rintro _ ⟨⟩
    exact ⟨q, hq, by rw [hop]; rfl⟩
  · exact branchTail_read hguard (by simpa using hparts.reading ahead) (by simp) h

/-- A statement, however deeply nested, agrees with the label of its place. -/
theorem statement_read : ∀ depth, ReadsStatements (Builder.statement depth)
  | 0 => fun _ _ _ _ _ h => (throw_ok.mp h).elim
  | depth + 1 => fun d c label hready r h => by
    have hinner := statement_read depth
    unfold Builder.statement at h
    obtain ⟨d₁, d₂, hget, h⟩ := bind_ok.mp h
    cases get_ok.mp hget
    cases hkind : (Token.first d.ahead).kind with
    | whileWord =>
      rw [hkind] at h
      exact loop_read hinner hready h
    | ifWord =>
      rw [hkind] at h
      exact branch_read hinner hready h
    | variableWord =>
      rw [hkind] at h
      exact declaration_read hready h
    | letWord =>
      rw [hkind] at h
      exact assignment_read hready h
    | inputWord =>
      rw [hkind] at h
      exact input_read hready h
    | outputWord =>
      rw [hkind] at h
      exact output_read hready h
    | callWord =>
      rw [hkind] at h
      exact call_read hready h
    | returnWord =>
      rw [hkind] at h
      exact giveBack_read hready h
    | _ =>
      rw [hkind] at h
      exact (throw_ok.mp h).elim

end Builder

end Pseudocode
