import Pseudocode.Proofs.Layout.Statements

/-!
# The layout of functions and classes

A function is declared before its body is read, with a note of the names of its
module that are declared for certain by then.  Its body gets labels of its own.
When it has been read, its module is as ready for further code as before
(`function_read`), and all of the body is part of the function's code.

What a declaration does to a program is said in steps.  `AddsFunction`: the forest and the
variables are as before, and nothing else can be found than the new name.  `Opens`: the
function is the last one.  `Starts`: it has its parameters as variables, and the chart gets
its note (`Starts.layout`), from which the body can be read (`Starts.ready`).  Behind the
body the code around goes on, because the body declares in the function's table only
(`Draft.Advances.ready_around`).

A class is no code of its own: its methods are functions, and neither they nor their
operators get labels (`FunctionsRead`).
-/

namespace Pseudocode

/-! ## Declaring a function

The name is entered first and the function after it.  In between the table gives a number that
no function has yet, which is why the two steps are taken together (`Program.Opens`). -/

/-- What entering the name of a function changes: the next function can be found now. -/
structure Program.AddsFunction (p p' : Program) : Prop where
  forest : p'.forest = p.forest
  modules : ∀ k : Nat, (p'.modules[k]?).map (fun m => (m.name, m.vars)) =
    (p.modules[k]?).map fun m => (m.name, m.vars)
  findFunction : ∀ k name callee, p'.findFunction k name = .ok callee →
    p.findFunction k name = .ok callee ∨ callee = .declared p.functions.size
  findMethod : ∀ k owner name callee, p'.findMethod k owner name = .ok callee →
    p.findMethod k owner name = .ok callee ∨ callee = .declared p.functions.size

/-- What declaring a function changes. -/
structure Program.Opens (p p' : Program) (f : FunctionDeclaration) : Prop
    extends p.AddsFunction p' where
  functions : p'.functions = p.functions.push f

namespace Program

variable {p : Program} {k : Nat} {owner name : String} {callee : Callee}

/-- A function is found exactly if its module has it under its name. -/
theorem findFunction_ok : p.findFunction k name = .ok callee ↔
    ∃ m n, p.modules[k]? = some m ∧ m.functions.find? name = some n ∧
      callee = .declared n := by
  unfold findFunction
  cases hm : p.modules[k]? with
  | none => simp
  | some m =>
    cases hlookup : m.functions.lookup name with
    | error fault =>
      have hnone : ∀ n, m.functions.find? name ≠ some n := by
        intro n hn
        rw [Table.lookup_ok.mpr hn] at hlookup
        cases hlookup
      simp [hlookup, Except.map, hnone]
    | ok n =>
      simp [hlookup, Except.map, Table.lookup_ok.mp hlookup, eq_comm]

/-- A method is found exactly if its module has the class, and the class has the method. -/
theorem findMethod_ok : p.findMethod k owner name = .ok callee ↔
    ∃ m i ofClass n, p.modules[k]? = some m ∧ m.classes.find? owner = some i ∧
      p.classes[i]? = some ofClass ∧ ofClass.methods.find? name = some n ∧
      callee = .declared n := by
  unfold findMethod
  cases hm : p.modules[k]? with
  | none => simp
  | some m =>
    cases howner : m.classes.find? owner with
    | none => simp [Table.lookup, howner, bind, Except.bind]
    | some i =>
      simp only [Table.lookup_ok.mpr howner, bind, Except.bind]
      cases hclass : p.classes[i]? with
      | none => simp [howner, hclass]
      | some ofClass =>
        cases hname : ofClass.methods.find? name with
        | none => simp [Table.lookup, hname, howner, hclass]
        | some n =>
          simp [Table.lookup, hname, howner, hclass, pure, Except.pure, eq_comm]

end Program

namespace Draft

variable {d : Draft} {f : FunctionDeclaration}

/-- To set a function to what it is changes nothing. -/
theorem setFunction_self {n : Nat} (hf : d.program.functions[n]? = some f) :
    d.setFunction n f = d := by
  have hsame : d.program.functions.setIfInBounds n f = d.program.functions := by
    apply Array.ext_getElem?
    intro i
    rw [Array.getElem?_setIfInBounds]
    split
    · next hi =>
      subst hi
      rw [hf, if_pos (Array.getElem?_eq_some_iff.mp hf).1]
    · rfl
  unfold setFunction
  rw [hsame]

/-- The last of two changes of one function is what remains. -/
theorem setFunction_setFunction {n : Nat} {g : FunctionDeclaration} :
    (d.setFunction n f).setFunction n g = d.setFunction n g := by
  unfold setFunction
  simp

/-- The program with one more function. -/
def pushFunction (d : Draft) (f : FunctionDeclaration) : Draft :=
  { d with program :=
      { d.program with functions := d.program.functions.push f } }

/-- A function that is entered into its module's table and pushed is opened. -/
theorem opens_module {k : Nat} {m : ModuleDeclaration} {functions : Table Nat}
    (hm : d.program.modules[k]? = some m)
    (hfunctions : m.functions.declare f.name d.program.functions.size = .ok functions) :
    d.program.Opens ((d.setModule k { m with functions }).pushFunction f).program f := by
  have hmodules := modules_setModule hm (m := { m with functions })
  refine ⟨⟨rfl, fun j => ?_, ?_, ?_⟩, rfl⟩
  · show ((d.setModule k { m with functions }).program.modules[j]?).map _ = _
    rw [hmodules]
    split
    · next hj =>
      subst hj
      rw [hm]
      rfl
    · rfl
  · intro j name callee h
    -- a name that is found was there before or is that of the new function
    obtain ⟨m', n, hm', hn, rfl⟩ := Program.findFunction_ok.mp h
    change (d.setModule k { m with functions }).program.modules[j]? = _ at hm'
    rw [hmodules] at hm'
    split at hm'
    · next hj =>
      subst hj
      cases hm'
      obtain hold | rfl := Table.find?_of_declare hfunctions hn
      · exact .inl (Program.findFunction_ok.mpr ⟨m, n, hm, hold, rfl⟩)
      · exact .inr rfl
    · exact .inl (Program.findFunction_ok.mpr ⟨m', n, hm', hn, rfl⟩)
  · intro j owner name callee h
    obtain ⟨m', i, ofClass, n, hm', hi, hclass, hn, rfl⟩ := Program.findMethod_ok.mp h
    change (d.setModule k { m with functions }).program.modules[j]? = _ at hm'
    rw [hmodules] at hm'
    left
    split at hm'
    · next hj =>
      subst hj
      cases hm'
      exact Program.findMethod_ok.mpr ⟨m, i, ofClass, n, hm, hi, hclass, hn, rfl⟩
    · exact Program.findMethod_ok.mpr ⟨m', i, ofClass, n, hm', hi, hclass, hn, rfl⟩

/-- A method that is entered into its class's table and pushed is opened. -/
theorem opens_class {j : Nat} {ofClass : ClassDeclaration} {methods : Table Nat}
    (hclass : d.program.classes[j]? = some ofClass)
    (hmethods : ofClass.methods.declare f.name d.program.functions.size =
      .ok methods) :
    d.program.Opens ((d.setClass j { ofClass with methods }).pushFunction f).program
      f := by
  have hclasses : ∀ i, (d.setClass j { ofClass with methods }).program.classes[i]? =
      if j = i then some { ofClass with methods } else d.program.classes[i]? := by
    intro i
    have hlt := (Array.getElem?_eq_some_iff.mp hclass).1
    simp only [setClass, Array.getElem?_setIfInBounds, hlt, if_true]
  refine ⟨⟨rfl, fun _ => rfl, fun _ _ _ h => .inl h, ?_⟩, rfl⟩
  intro k owner name callee h
  obtain ⟨m, i, ofClass', n, hm, hi, hclass', hn, rfl⟩ := Program.findMethod_ok.mp h
  change (d.setClass j { ofClass with methods }).program.classes[i]? = _ at hclass'
  rw [hclasses] at hclass'
  split at hclass'
  · next hj =>
    subst hj
    cases hclass'
    obtain hold | rfl := Table.find?_of_declare hmethods hn
    · exact .inl (Program.findMethod_ok.mpr ⟨m, j, ofClass, n, hm, hi, hclass, hold, rfl⟩)
    · exact .inr rfl
  · exact .inl (Program.findMethod_ok.mpr ⟨m, i, ofClass', n, hm, hi, hclass', hn, rfl⟩)

end Draft

namespace Builder

variable {d : Draft}

/-- A function is entered into a table and then into the program. -/
theorem declareFunction_ok {owner : Owner} {f : FunctionDeclaration}
    {r : Nat × Draft} (h : declareFunction owner f d = .ok r) :
    r.1 = d.program.functions.size ∧ d.program.Opens r.2.program f ∧
      r.2 = { d with program := r.2.program } := by
  unfold declareFunction at h
  obtain ⟨d₁, d₂, hget, h⟩ := bind_ok.mp h
  cases get_ok.mp hget
  cases owner with
  | module k =>
    cases hm : d.program.modules[k]? with
    | none =>
      simp only [hm, bind_ok, throw_ok] at h
      obtain ⟨_, _, hfalse, -⟩ := h
      exact hfalse.elim
    | some m =>
      simp only [hm, bind_ok, lift_ok, set_ok, modify_ok, pure_ok] at h
      obtain ⟨functions, d₃, ⟨hdeclare, rfl⟩, _, d₄, hset, _, d₅, hmodify, rfl⟩ := h
      cases hset
      cases hmodify
      exact ⟨rfl, Draft.opens_module hm hdeclare, rfl⟩
  | classOf j =>
    cases hc : d.program.classes[j]? with
    | none =>
      simp only [hc, bind_ok, throw_ok] at h
      obtain ⟨_, _, hfalse, -⟩ := h
      exact hfalse.elim
    | some ofClass =>
      simp only [hc, bind_ok, lift_ok, set_ok, modify_ok, pure_ok] at h
      obtain ⟨methods, d₃, ⟨hdeclare, rfl⟩, _, d₄, hset, _, d₅, hmodify, rfl⟩ := h
      cases hset
      cases hmodify
      exact ⟨rfl, Draft.opens_class hc hdeclare, rfl⟩

/-- Parameters become the variables of the open function. -/
theorem declareParameters_ok {n : Nat} :
    ∀ {parameters : List Parameter} {d : Draft} {f : FunctionDeclaration}
      {r : Unit × Draft}, d.function = some n → d.program.functions[n]? = some f →
      declareParameters parameters d = .ok r →
      ∃ vars : Variables, r.2 = d.setFunction n { f with vars } ∧
        (∀ name v, f.vars.find? name = some v → vars.find? name = some v) ∧
        (∀ q ∈ parameters, vars.find? q.name = some ⟨q.type, none⟩) ∧
        ∀ name, vars.has name = true →
          f.vars.has name = true ∨ name ∈ parameters.map Parameter.name
  | [], d, f, r, hfunction, hf, h => by
    cases pure_ok.mp h
    refine ⟨f.vars, ?_, fun _ _ h => h, by simp, fun _ h => .inl h⟩
    exact (Draft.setFunction_self hf).symm
  | q :: parameters, d, f, r, hfunction, hf, h => by
    unfold declareParameters at h
    simp only [bind_ok, get_ok, lift_ok, set_ok] at h
    obtain ⟨d₁, d₂, hget, d₃, d₄, ⟨hdeclare, rfl⟩, _, d₅, hset, h⟩ := h
    cases hget
    cases hset
    obtain ⟨vars, hvars, hd₃⟩ := Draft.declareVariable_function hfunction hf hdeclare
    subst hd₃
    -- the rest is declared in the function as it is now
    have hf' : (d.setFunction n { f with vars }).program.functions[n]? =
        some { f with vars } := by
      rw [Draft.functions_setFunction hf, if_pos rfl]
    have hfunction' : (d.setFunction n { f with vars }).function = some n := hfunction
    obtain ⟨vars', hr, hold, hnew, hhas⟩ := declareParameters_ok hfunction' hf' h
    refine ⟨vars', by rw [hr, Draft.setFunction_setFunction], ?_, ?_, ?_⟩
    · exact fun name v hv => hold name v (Table.find?_declare_of_some hvars hv)
    · intro q' hq'
      obtain rfl | hq' := List.mem_cons.mp hq'
      · exact hold _ _ (Table.find?_declare hvars)
      · exact hnew q' hq'
    · intro name hname
      obtain hname | hname := hhas name hname
      · exact (Table.has_of_declare hvars hname).imp_right (by simp +contextual)
      · exact .inr (List.mem_cons_of_mem _ hname)

end Builder

/-! ## Reading a function

The body is read with a label of its own, that of the new function's code.  Behind its end the
code around goes on with the label that it had: nothing of the function can be seen from there
but its name. -/

/-- What reading functions comes to: the code around them can go on as before, and
all that was placed on the way is part of some function's code. -/
structure FunctionsRead (d d' : Draft) (c c' : Chart) (label : Label) : Prop where
  ready : d'.Ready c' label
  grows : d.program.Grows d'.program
  chart : c.Grows c'
  old : ∀ i < d.program.forest.nodes.size,
    d'.program.forest.nodes[i]? = d.program.forest.nodes[i]?
  roots : d'.program.forest.roots = d.program.forest.roots
  block : d'.block = d.block
  last : d'.last = d.last
  covers : ∀ i l, c'.Marks i l → d.program.forest.nodes.size ≤ i →
    d'.program.Within l.code l.nested i

/-- Tokens that were read behind functions make no difference. -/
theorem FunctionsRead.reading {d d' : Draft} {c c' : Chart} {label : Label}
    (h : FunctionsRead d d' c c' label) (ahead : List Token) :
    FunctionsRead d { d' with ahead } c c' label :=
  ⟨h.ready.ahead ahead, h.grows, h.chart, h.old, h.roots, h.block, h.last, h.covers⟩

/-- It makes no difference which tokens were ahead at first. -/
theorem FunctionsRead.since {d d' : Draft} {c c' : Chart} {label : Label}
    {ahead : List Token} (h : FunctionsRead { d with ahead } d' c c' label) :
    FunctionsRead d d' c c' label :=
  ⟨h.ready, h.grows, h.chart, h.old, h.roots, h.block, h.last, h.covers⟩

/-- A chart with a note for one more function. -/
def Chart.noted (c : Chart) (note : Note) : Chart :=
  { c with notes := c.notes ++ [note] }

/-- A chart with one more note has lost nothing. -/
theorem Chart.grows_noted (c : Chart) (note : Note) : c.Grows (c.noted note) :=
  ⟨List.prefix_refl _, List.prefix_append ..⟩

/-- What declaring a function together with its parameters changes. -/
structure Program.Starts (p p' : Program) (f : FunctionDeclaration) : Prop
    extends p.AddsFunction p' where
  size : p'.functions.size = p.functions.size + 1
  functions : ∀ n : Nat, p'.functions[n]? =
    if p.functions.size = n then some f else p.functions[n]?

/-- A function that is opened and gets its parameters has started. -/
theorem Program.Opens.starts {d : Draft} {p : Program} {f : FunctionDeclaration}
    {vars : Variables} (h : p.Opens d.program f) :
    p.Starts (d.setFunction p.functions.size { f with vars }).program
      { f with vars } where
  forest := h.forest
  size := by simp [Draft.setFunction, h.functions]
  functions n := by
    have hfound : d.program.functions[p.functions.size]? = some f := by
      rw [h.functions, Array.getElem?_push_size]
    rw [Draft.functions_setFunction hfound]
    split
    · rfl
    · next hn => rw [h.functions, Array.getElem?_push, if_neg (Ne.symm hn)]
  modules := h.modules
  findFunction := h.findFunction
  findMethod := h.findMethod

namespace Program.Starts

variable {p p' : Program} {c : Chart} {f : FunctionDeclaration}

/-- The variables of modules are as before when a function starts. -/
theorem table (h : p.Starts p' f) (k : Nat) :
    p'.table ⟨k, none⟩ = p.table ⟨k, none⟩ := by
  have hk := congrArg (Option.map Prod.snd) (h.modules k)
  simp only [Option.map_map] at hk
  unfold Program.table
  exact congrArg (Option.getD · Variables.empty) hk

/-- The variables of the function are its parameters. -/
theorem own (h : p.Starts p' f) (k : Nat) :
    p'.table ⟨k, some p.functions.size⟩ = f.vars := by
  unfold Program.table
  simp [h.functions]

/-- A function that starts takes nothing away. -/
theorem grows (h : p.Starts p' f) : p.Grows p' := by
  refine ⟨h.forest ▸ .refl _, ?_, ?_, ?_⟩
  · rintro ⟨k, _ | n⟩ name v hv
    · rwa [h.table]
    · by_cases hn : p.functions.size = n
      · subst hn
        -- the new function had no table before
        simp [Program.table, Variables.empty, Table.find?] at hv
      · unfold Program.table at hv ⊢
        simpa only [h.functions, if_neg hn] using hv
  · intro k m hm
    have hk := h.modules k
    rw [hm] at hk
    obtain ⟨m', hm', heq⟩ := Option.map_eq_some_iff.mp hk
    exact ⟨m', hm', congrArg Prod.fst heq⟩
  · intro n g hg
    have hne : p.functions.size ≠ n := by
      rintro rfl
      simp at hg
    exact ⟨g, by rw [h.functions, if_neg hne, hg], fun _ h => h⟩

/-- A chart gets a note for the function. -/
theorem layout (h : p.Starts p' f) (hlayout : Layout p c) {note : Note}
    (hmodule : ∃ m, p.modules[note.module]? = some m ∧ m.name = f.module)
    (hparameters : ∀ q ∈ f.parameters, f.vars.find? q.name = some ⟨q.type, none⟩)
    (hbody : f.body = none) : Layout p' (c.noted note) := by
  refine hlayout.grow h.grows (c.grows_noted note) ?_ ?_ ?_ ?_ ?_
    (Layout.none_added (by rw [h.forest]))
  · rw [h.forest]
    exact hlayout.labels
  · rw [h.size]
    simp [Chart.noted, hlayout.notes]
  · intro i label node hmarks hnode
    exact .inl ⟨hmarks, by rwa [← h.forest]⟩
  · intro n g hg
    rw [h.functions] at hg
    split at hg
    · next hn =>
      subst hn
      cases hg
      refine .inr ⟨note, by simp [Chart.noted, ← hlayout.notes], ?_, ?_, ?_⟩
      · obtain ⟨m, hm, hname⟩ := hmodule
        obtain ⟨m', hm', hname'⟩ := h.grows.modules _ m hm
        exact ⟨m', hm', hname'.trans hname⟩
      · intro q hq
        exact ⟨_, by rw [h.own]; exact hparameters q hq, rfl⟩
      · simp [hbody]
    · exact .inl hg
  · intro root hroot
    rw [h.forest] at hroot ⊢
    exact .inl ⟨hroot, rfl⟩

/-- The body of a function that has been declared can be read. -/
theorem ready {d d' : Draft} {label : Label} (h : d.program.Starts d'.program f)
    (hready : d.Ready c label) (houtside : label.code.function = none)
    (hmodule : d'.module = d.module)
    (hfunction : d'.function = some d.program.functions.size)
    (hname : ∃ m, d.program.modules[label.code.module]? = some m ∧ m.name = f.module)
    (hparameters : ∀ q ∈ f.parameters, f.vars.find? q.name = some ⟨q.type, none⟩)
    (honly : ∀ name, f.vars.has name = true →
      name ∈ f.parameters.map Parameter.name)
    (hbody : f.body = none) :
    d'.Ready (c.noted ⟨label.code.module, label.seen⟩)
      ⟨⟨label.code.module, some d.program.functions.size⟩, false,
        f.parameters.map Parameter.name⟩ := by
  have hnote : (c.noted ⟨label.code.module, label.seen⟩).notes[d.program.functions.size]? =
      some ⟨label.code.module, label.seen⟩ := by
    simp [Chart.noted, ← hready.layout.notes]
  have hchart := c.grows_noted ⟨label.code.module, label.seen⟩
  have hcalls : ∀ callee, c.Calls label callee ∨
      callee = .declared d.program.functions.size →
      (c.noted ⟨label.code.module, label.seen⟩).Calls
        ⟨⟨label.code.module, some d.program.functions.size⟩, false,
          f.parameters.map Parameter.name⟩ callee := by
    rintro callee (⟨n, note, rfl, hn, hmodule', houter⟩ | rfl)
    · -- what was certain around the function when it was declared is in its note
      refine ⟨n, note, rfl, hchart.note hn, hmodule', fun name hmem => ?_⟩
      have hseen := houter name hmem
      unfold Chart.Surrounds at hseen
      rw [houtside] at hseen
      exact ⟨_, hnote, hseen⟩
    · -- the function itself, for it may call itself
      exact ⟨_, _, rfl, hnote, rfl, fun name hmem => ⟨_, hnote, hmem⟩⟩
  refine ⟨h.layout hready.layout hname hparameters hbody, ?_, hfunction, ?_, ?_, ?_, ?_, ?_⟩
  · rw [hmodule, hready.module]
  · intro name hmem
    obtain ⟨q, hq, rfl⟩ := List.mem_map.mp hmem
    rw [h.own]
    exact Table.has_iff.mpr ⟨_, hparameters q hq⟩
  · intro name hmem
    rw [h.own] at hmem
    exact .inl (honly name hmem)
  · intro name hmem
    change (d'.program.table ⟨label.code.module, none⟩).has name = true at hmem
    rw [h.table] at hmem
    have hcode : label.code = ⟨label.code.module, none⟩ := by rw [← houtside]
    rw [← hcode] at hmem
    obtain hseen | hdoubts := hready.table name hmem
    · exact .inl ⟨_, hnote, hseen⟩
    · rw [hcode] at hdoubts
      exact .inr (hdoubts.grow hchart h.grows)
  · intro name callee hfound
    exact hcalls callee
      ((h.findFunction _ _ _ hfound).imp_left (hready.functions name callee))
  · intro owner name callee hfound
    exact hcalls callee
      ((h.findMethod _ _ _ _ hfound).imp_left (hready.methods owner name callee))

end Program.Starts

/-- A function whose body has been read is complete. -/
def Draft.withBody (d : Draft) (n : Nat) (f : FunctionDeclaration)
    (body : Option Nat) : Draft :=
  { d.setFunction n { f with body } with function := none }

namespace Draft

variable {d : Draft} {c : Chart} {n : Nat} {f : FunctionDeclaration}
  (body : Option Nat)

/-- To close a function gives it its body. -/
theorem closeFunction_eq (hf : d.program.functions[n]? = some f) :
    d.closeFunction n body = d.withBody n f body := by
  unfold closeFunction withBody
  rw [hf]

/-- A body where there was none takes nothing away. -/
theorem grows_withBody (hf : d.program.functions[n]? = some f)
    (hbody : f.body = none) : d.program.Grows (d.withBody n f body).program := by
  have hfunctions := functions_setFunction hf (f := { f with body })
  refine ⟨.refl _, ?_, fun _ m hm => ⟨m, hm, rfl⟩, ?_⟩
  · rintro ⟨k, _ | j⟩ name v hv
    · exact hv
    · by_cases hj : n = j
      · subst hj
        change ((d.setFunction n { f with body }).program.table ⟨k, some n⟩).find? _ = _
        simp only [Program.table, hf, hfunctions] at hv ⊢
        exact hv
      · change ((d.setFunction n { f with body }).program.table ⟨k, some j⟩).find? _ = _
        simp only [Program.table, hfunctions, if_neg hj] at hv ⊢
        exact hv
  · intro j g hg
    change ∃ g', (d.setFunction n { f with body }).program.functions[j]? = _ ∧ _
    rw [hfunctions]
    by_cases hj : n = j
    · subst hj
      cases hf.symm.trans hg
      rw [if_pos rfl]
      exact ⟨_, rfl, by simp [hbody]⟩
    · rw [if_neg hj]
      exact ⟨g, hg, fun _ h => h⟩

/-- A function whose body starts with a label of the function's own still agrees with the
chart. -/
theorem layout_withBody (h : Layout d.program c)
    (hf : d.program.functions[n]? = some f) (hbody : f.body = none)
    (hmarks : ∀ note start, c.notes[n]? = some note → body = some start →
      c.Marks start ⟨⟨note.module, some n⟩, false, f.parameters.map Parameter.name⟩) :
    Layout (d.withBody n f body).program c := by
  have hgrows := grows_withBody body hf hbody
  refine h.grow hgrows (.refl c) h.labels ?_ (fun _ _ _ hm hn => .inl ⟨hm, hn⟩) ?_
    (fun _ hroot => .inl ⟨hroot, rfl⟩) (Layout.none_added rfl)
  · simpa [withBody, setFunction] using h.notes
  · intro j g hg
    change (d.setFunction n { f with body }).program.functions[j]? = some g at hg
    rw [functions_setFunction hf] at hg
    split at hg
    · next hj =>
      subst hj
      cases hg
      obtain ⟨note, hnote, hfits⟩ := h.functions n f hf
      have hfits' := hfits.grow (.refl c) hgrows
      exact .inr ⟨note, hnote, hfits'.module, hfits'.parameters,
        fun start hstart => hmarks note start hnote hstart⟩
    · exact .inl hg

end Draft

/-- A function can be called behind itself. -/
theorem Chart.calls_noted {c : Chart} {label : Label} {n : Nat}
    (hnote : c.notes[n]? = some ⟨label.code.module, label.seen⟩)
    (houtside : label.code.function = none) : c.Calls label (.declared n) := by
  refine ⟨n, _, rfl, hnote, rfl, fun name hmem => ?_⟩
  unfold Chart.Surrounds
  rw [houtside]
  exact hmem

/-- Code of a module can go on behind a function: the body of the function declares in the
table of the function only. -/
theorem Draft.Advances.ready_around {d d₁ d₂ d₃ : Draft} {c c₁ c₂ : Chart} {label : Label}
    {f : FunctionDeclaration} (hadvances : d₁.Advances d₂ c₁ c₂) (hready : d.Ready c label)
    (houtside : label.code.function = none) (hstarts : d.program.Starts d₁.program f)
    (hinside : d₁.function ≠ none)
    (hnote : c₁.notes[d.program.functions.size]? = some ⟨label.code.module, label.seen⟩)
    (hlayout : Layout d₃.program c₂) (hgrows : d.program.Grows d₃.program)
    (hchart : c.Grows c₂) (hmodule : d₃.module = d.module) (hclosed : d₃.function = none)
    (hmodules : d₃.program.modules = d₂.program.modules)
    (hclasses : d₃.program.classes = d₂.program.classes) : d₃.Ready c₂ label := by
  have hcode : label.code = ⟨label.code.module, none⟩ := by rw [← houtside]
  have htable : d₃.program.table label.code = d.program.table label.code := by
    rw [hcode]
    have hsame : d₃.program.table ⟨label.code.module, none⟩ =
        d₂.program.table ⟨label.code.module, none⟩ := by
      unfold Program.table
      rw [hmodules]
    exact hsame.trans ((hadvances.outside hinside _).trans (hstarts.table _))
  have hown : c₂.Calls label (.declared d.program.functions.size) :=
    Chart.calls_noted (hadvances.chart.note hnote) houtside
  have houter : label.code.outside = label.code := hcode.symm
  refine hready.goesOn hlayout hgrows hchart hmodule ?_ htable (houter ▸ htable) ?_ ?_
  · rw [hclosed, hready.function, houtside]
  · intro name callee hfound
    unfold Program.findFunction at hfound
    rw [hmodules] at hfound
    refine (hstarts.findFunction _ _ _ ((hadvances.findFunction _ _).symm.trans hfound)).imp_right
      ?_
    rintro rfl
    exact hown
  · intro owner name callee hfound
    unfold Program.findMethod at hfound
    rw [hmodules, hclasses] at hfound
    refine (hstarts.findMethod _ _ _ _
      ((hadvances.findMethod _ _ _).symm.trans hfound)).imp_right ?_
    rintro rfl
    exact hown

/-- The code around a function goes on when the function has been read. -/
theorem FunctionsRead.close {d d₁ d₂ : Draft} {c c₂ : Chart} {label : Label}
    {f g : FunctionDeclaration} {child : Option Nat} (hready : d.Ready c label)
    (houtside : label.code.function = none) (hstarts : d.program.Starts d₁.program f)
    (hnobody₁ : f.body = none)
    (hfunction : d₁.function = some d.program.functions.size)
    (hmodule : d₁.module = d.module) (hblock : d₁.block = d.block)
    (hlast : d₁.last = d.last)
    (hbody : BodyRead d₁ d₂ (c.noted ⟨label.code.module, label.seen⟩) c₂
      ⟨⟨label.code.module, some d.program.functions.size⟩, false,
        f.parameters.map Parameter.name⟩ child)
    (hg : d₂.program.functions[d.program.functions.size]? = some g) :
    FunctionsRead d (d₂.withBody d.program.functions.size g child) c c₂ label := by
  have hadvances := hbody.advances
  have hnote : (c.noted ⟨label.code.module, label.seen⟩).notes[d.program.functions.size]? =
      some ⟨label.code.module, label.seen⟩ := by
    simp [Chart.noted, ← hready.layout.notes]
  obtain ⟨f', hf', hparameters', -, hnobody⟩ := hadvances.functions _ g hg
  rw [hstarts.functions, if_pos rfl] at hf'
  cases hf'
  rw [hnobody₁] at hnobody
  have hgrows := Draft.grows_withBody child hg hnobody
  have hlayout := Draft.layout_withBody child hadvances.layout hg hnobody (by
    intro note start hn hstart
    cases (hadvances.chart.note hnote).symm.trans hn
    rw [hparameters']
    exact hbody.marks start hstart)
  have hall := hstarts.grows.trans (hadvances.grows.trans hgrows)
  have hchart := (c.grows_noted ⟨label.code.module, label.seen⟩).trans hadvances.chart
  have hready' := hadvances.ready_around hready houtside hstarts (by simp [hfunction]) hnote
    hlayout hall hchart (hadvances.module.trans hmodule) rfl rfl rfl
  refine ⟨hready', hall, hchart, ?_, ?_, hadvances.block.trans hblock,
    hadvances.last.trans hlast, ?_⟩
  · intro i hi
    rw [← hstarts.forest] at hi ⊢
    exact hadvances.old i hi
  · rw [← hstarts.forest]
    exact hadvances.roots
  · intro i l hl hle
    rw [← hstarts.forest] at hle
    obtain ⟨hlcode, start, nested, hstart, hinside, hnested⟩ := hbody.covers i l hl hle
    rw [hlcode, hnested]
    -- what the body placed is reached from the function, now that it has its body
    refine ⟨{ g with body := child }, start, ?_, hstart, ?_⟩
    · exact (Draft.functions_setFunction hg _).trans (if_pos rfl)
    · rw [Bool.false_or]
      exact hinside

/-- The operator of a function is that of a function or of a method. -/
theorem FunctionDeclaration.operator_cases (f : FunctionDeclaration) (n : Nat) :
    f.operator n = .function f.name n ∨ f.operator n = .method f.name n := by
  unfold operator
  split
  · exact .inl rfl
  · exact .inr rfl

namespace Builder

variable {d : Draft} {c : Chart} {label : Label}

/-- The end of a function or a class only takes tokens. -/
theorem closingName_bind {name : String} {β : Type} {f : Unit → Builder β}
    {r : β × Draft} (h : (closingName name >>= f) d = .ok r) :
    ∃ ahead, f () { d with ahead } = .ok r := by
  obtain ⟨_, d₁, hclosing, h⟩ := bind_ok.mp h
  unfold closingName at hclosing
  obtain ⟨_, ahead, -, hclosing⟩ := tokens_bind hclosing
  obtain ⟨_, ahead, -, hclosing⟩ := tokens_bind hclosing
  dsimp only at hclosing
  rw [ite_apply] at hclosing
  split at hclosing
  · obtain ⟨_, _, hfalse, -⟩ := bind_ok.mp hclosing
    exact (throw_ok.mp hfalse).elim
  · obtain ⟨_, ahead, -, hclosing⟩ := tokens_bind hclosing
    cases pure_ok.mp hclosing
    exact ⟨ahead, h⟩

/-- A function behind its header: it is declared, its body is read, and the code
around it goes on. -/
theorem functionRest_read {owner : Owner} {f : FunctionDeclaration}
    {r : Node Operator × Draft} (hready : d.Ready c label)
    (houtside : label.code.function = none)
    (hname : ∃ m, d.program.modules[label.code.module]? = some m ∧
      m.name = f.module)
    (hvars : f.vars = Variables.empty) (hbody : f.body = none)
    (h : functionRest owner f d = .ok r) :
    (∃ c', FunctionsRead d r.2 c c' label) ∧
      ∃ n child, r.1 = { operator := f.operator n, links := { child } } := by
  unfold functionRest at h
  obtain ⟨n, d₁, hdeclare, h⟩ := bind_ok.mp h
  obtain ⟨rfl, hopens, hd₁⟩ := declareFunction_ok hdeclare
  simp only at hopens hd₁ h
  obtain ⟨_, d₂, hmodify, h⟩ := bind_ok.mp h
  cases modify_ok.mp hmodify
  obtain ⟨_, d₃, hparameters, h⟩ := bind_ok.mp h
  have hf : (Draft.program
      { d₁ with function := some d.program.functions.size }).functions[
        d.program.functions.size]? = some f := by
    rw [hopens.functions, Array.getElem?_push_size]
  obtain ⟨vars, hd₃, -, hfound, honly⟩ := declareParameters_ok rfl hf hparameters
  simp only at hd₃
  have hstarts : d.program.Starts d₃.program { f with vars } := by
    rw [hd₃]
    exact hopens.starts
  have hmodule : d₃.module = d.module := by rw [hd₃, hd₁]; rfl
  have hfunction : d₃.function = some d.program.functions.size := by rw [hd₃]; rfl
  have hblock : d₃.block = d.block := by rw [hd₃, hd₁]; rfl
  have hlast : d₃.last = d.last := by rw [hd₃, hd₁]; rfl
  obtain ⟨node, d₄, hread, h⟩ := bind_ok.mp h
  have hready' := hstarts.ready hready houtside hmodule hfunction hname hfound
    (by
      intro name hmem
      refine (honly name hmem).resolve_left ?_
      rw [hvars]
      simp [Variables.empty, Table.has, Table.find?]) hbody
  obtain ⟨child, c', hnode, hread⟩ := body_read (statement_read nestingLimit) hready' hread
  cases hnode
  obtain ⟨_, d₅, hclose, h⟩ := bind_ok.mp h
  cases modify_ok.mp hclose
  obtain ⟨ahead, h⟩ := closingName_bind h
  cases pure_ok.mp h
  refine ⟨⟨c', ?_⟩, _, _, rfl⟩
  obtain ⟨g, hg, -⟩ := hread.advances.grows.functions _ _
    ((hstarts.functions _).trans (if_pos rfl))
  rw [Draft.closeFunction_eq child hg]
  exact (FunctionsRead.close hready houtside hstarts hbody hfunction hmodule hblock hlast
    hread hg).reading ahead

/-- A function keeps everything in agreement, and the code around it goes on. -/
theorem function_read {owner : Owner} {className : Option String}
    {moduleName : String} {r : Node Operator × Draft} (hready : d.Ready c label)
    (houtside : label.code.function = none)
    (hname : ∃ m, d.program.modules[label.code.module]? = some m ∧
      m.name = moduleName)
    (h : function owner className moduleName d = .ok r) :
    (∃ c', FunctionsRead d r.2 c c' label) ∧ ∃ name n child,
      r.1 = { operator := .function name n, links := { child } } ∨
        r.1 = { operator := .method name n, links := { child } } := by
  unfold function at h
  obtain ⟨word, ahead, -, h⟩ := tokens_bind h
  obtain ⟨parameters, ahead, -, h⟩ := tokens_bind h
  obtain ⟨seen, ahead, -, h⟩ := tokens_bind h
  have hend : ∀ {f : FunctionDeclaration} {ahead : List Token},
      functionRest owner f { d with ahead } = .ok r → f.module = moduleName →
      f.vars = Variables.empty → f.body = none →
      (∃ c', FunctionsRead d r.2 c c' label) ∧ ∃ name n child,
        r.1 = { operator := .function name n, links := { child } } ∨
          r.1 = { operator := .method name n, links := { child } } := by
    intro f ahead h hmodule hvars hbody
    obtain ⟨⟨c', hread⟩, n, child, hnode⟩ := functionRest_read (hready.ahead ahead)
      houtside (hmodule ▸ hname) hvars hbody h
    refine ⟨⟨c', hread.since⟩, f.name, n, child, ?_⟩
    rw [hnode]
    exact (f.operator_cases n).imp (fun h => by rw [h]) fun h => by rw [h]
  dsimp only at h
  rw [ite_apply] at h
  split at h
  · obtain ⟨_, ahead, -, h⟩ := tokens_bind h
    obtain ⟨t, ahead, -, h⟩ := tokens_bind h
    exact hend h rfl rfl rfl
  · exact hend h rfl rfl rfl

end Builder

/-! ## Classes

The methods of a class are functions whose names go into the class's own table.  They are
attached to the class one behind the other, as any row of operators is. -/

namespace FunctionsRead

variable {d₀ d d' : Draft} {c₀ c c' : Chart} {label : Label}

/-- No functions have been read. -/
theorem refl (h : d.Ready c label) : FunctionsRead d d c c label :=
  ⟨h, .refl _, .refl _, fun _ _ => rfl, rfl, rfl, rfl, fun _ _ hmarks hle =>
    absurd (h.layout.marks_lt hmarks) (Nat.not_lt.mpr hle)⟩

/-- Functions that were read one behind another. -/
theorem trans (h : FunctionsRead d₀ d c₀ c label) (h' : FunctionsRead d d' c c' label) :
    FunctionsRead d₀ d' c₀ c' label where
  ready := h'.ready
  grows := h.grows.trans h'.grows
  chart := h.chart.trans h'.chart
  old i hi := (h'.old i (Nat.lt_of_lt_of_le hi h.grows.forest.size)).trans (h.old i hi)
  roots := h'.roots.trans h.roots
  block := h'.block.trans h.block
  last := h'.last.trans h.last
  covers i l hl hle := by
    by_cases hnew : d.program.forest.nodes.size ≤ i
    · exact h'.covers i l hl hnew
    · have hold := h.ready.layout.marks_of_grows h'.chart hl (Nat.lt_of_not_le hnew)
      exact (h.covers i l hold hle).grow h'.grows

/-- A method goes into the forest, where it gets no label. -/
theorem placed (h : d.Ready c label) {node : Node Operator}
    (hnode : ¬ node.operator.Labelled) :
    FunctionsRead d (d.withForest (d.program.forest.placed node)) c (c.labelled none)
      label := by
  have hlayout : Layout (d.withForest (d.program.forest.placed node)).program
      (c.labelled none) := h.layout.place (by simp) fun _ => hnode
  have hadvances := Draft.Advances.placed hlayout
  have hold : ∀ i l, (c.labelled none).Marks i l → c.Marks i l := by
    intro i l hl
    obtain ⟨-, hnone⟩ | ⟨-, hl'⟩ := h.layout.of_marks_labelled hl
    · cases hnone
    · exact hl'
  refine ⟨?_, hadvances.grows, hadvances.chart, hadvances.old, rfl, rfl, rfl, ?_⟩
  · exact hadvances.ready h rfl (fun _ hmem => hmem) h.seen fun name hname =>
      (h.table name hname).imp_right (·.grow hadvances.chart hadvances.grows)
  · intro i l hl hle
    exact absurd (h.layout.marks_lt (hold i l hl)) (Nat.not_lt.mpr hle)

/-- A method is linked to the one before it, which has no label either. -/
theorem followed {q index : Nat} {f : Forest Operator}
    (h : FunctionsRead d₀ d c₀ c label) (h₀ : Layout d₀.program c₀)
    (hfollow : d.program.forest.follow q index = .ok f)
    (hnew : d₀.program.forest.nodes.size ≤ q) (hunmarked : ∀ l, ¬ c.Marks q l) :
    FunctionsRead d₀ (d.withForest f) c₀ c label := by
  obtain ⟨node, hnode, hnone, rfl⟩ := Forest.follow_ok hfollow
  have hgrows : d.program.forest.Grows (d.program.forest.followed q index) :=
    Forest.grows_followed hnode hnone
  have hlayout : Layout (d.withForest (d.program.forest.followed q index)).program c := by
    refine h.ready.layout.relink hnode
      ⟨rfl, fun _ h => h, fun _ h => absurd h (by simp [hnone]), rfl, rfl⟩
      (fun l hl => absurd hl (hunmarked l)) fun hroot => ?_
    rw [h.roots] at hroot
    obtain ⟨_, hfound, -⟩ := h₀.roots q hroot
    exact absurd (Array.getElem?_eq_some_iff.mp hfound).1 (Nat.not_lt.mpr hnew)
  refine ⟨h.ready.reforest hgrows hlayout, h.grows.trans (Program.grows_forest hgrows),
    h.chart, fun i hi => ?_, h.roots, h.block, h.last, fun i l hl hle => ?_⟩
  · exact (Forest.nodes_followed_ne (by omega)).trans (h.old i hi)
  · exact (h.covers i l hl hle).grow (Program.grows_forest hgrows)

end FunctionsRead

/-- A draft with one more class in a module, which has no methods yet. -/
def Draft.openClass (d : Draft) (k : Nat) (m : ModuleDeclaration) (name : String) :
    Draft :=
  { d.setModule k m with program :=
      { (d.setModule k m).program with
        classes := d.program.classes.push { name } } }

namespace Draft

variable {d : Draft} {c : Chart} {label : Label} {k : Nat} {m : ModuleDeclaration}
  {classes : Table Nat} {name : String}

/-- A class that is entered takes nothing away. -/
theorem grows_openClass (classes : Table Nat) (name : String)
    (hm : d.program.modules[k]? = some m) :
    d.program.Grows (d.openClass k { m with classes } name).program := by
  have hmodules := modules_setModule hm (m := { m with classes })
  refine ⟨.refl _, ?_, ?_, fun _ f hf => ⟨f, hf, fun _ h => h⟩⟩
  · rintro ⟨j, _ | n⟩ other v hv
    · change ((d.setModule k { m with classes }).program.table ⟨j, none⟩).find? _ = _
      unfold Program.table at hv ⊢
      simp only [hmodules] at hv ⊢
      by_cases hj : k = j
      · subst hj
        rw [hm] at hv
        simpa using hv
      · simpa [hj] using hv
    · exact hv
  · intro j g hg
    change ∃ m', (d.setModule k { m with classes }).program.modules[j]? = _ ∧ _
    rw [hmodules]
    by_cases hj : k = j
    · subst hj
      cases hm.symm.trans hg
      rw [if_pos rfl]
      exact ⟨_, rfl, rfl⟩
    · rw [if_neg hj]
      exact ⟨g, hg, rfl⟩

/-- A method that is found is not one of the new class. -/
theorem findMethod_openClass (hm : d.program.modules[k]? = some m)
    (hdeclare : m.classes.declare name d.program.classes.size = .ok classes)
    {j : Nat} {owner method : String} {callee : Callee}
    (h : (d.openClass k { m with classes } name).program.findMethod j owner method =
      .ok callee) : d.program.findMethod j owner method = .ok callee := by
  obtain ⟨m', i, ofClass, n, hm', hi, hclass, hn, rfl⟩ := Program.findMethod_ok.mp h
  change (d.setModule k { m with classes }).program.modules[j]? = _ at hm'
  change (d.program.classes.push { name })[i]? = some ofClass at hclass
  rw [modules_setModule hm] at hm'
  rw [Array.getElem?_push] at hclass
  split at hclass
  · cases hclass
    simp [Table.find?] at hn
  · next hne =>
    split at hm'
    · next hj =>
      subst hj
      cases hm'
      have hold := (Table.find?_of_declare hdeclare hi).resolve_right hne
      exact Program.findMethod_ok.mpr ⟨m, i, ofClass, n, hm, hold, hclass, hn, rfl⟩
    · exact Program.findMethod_ok.mpr ⟨m', i, ofClass, n, hm', hi, hclass, hn, rfl⟩

end Draft

/-- A class without methods changes nothing for the code around. -/
theorem FunctionsRead.openClass {d : Draft} {c : Chart} {label : Label}
    {m : ModuleDeclaration} {classes : Table Nat} {name : String}
    (hready : d.Ready c label) (hm : d.program.modules[label.code.module]? = some m)
    (hdeclare : m.classes.declare name d.program.classes.size = .ok classes) :
    FunctionsRead d (d.openClass label.code.module { m with classes } name) c c
      label := by
  have hgrows := Draft.grows_openClass classes name hm
  have hlayout := hready.layout.retable hgrows rfl rfl fun _ f hf => ⟨f, hf, rfl, rfl, rfl⟩
  have htable : ∀ code, (d.openClass label.code.module { m with classes }
      name).program.table code = d.program.table code := by
    rintro ⟨j, _ | n⟩
    · change (d.setModule label.code.module { m with classes }).program.table ⟨j, none⟩ = _
      unfold Program.table
      simp only [Draft.modules_setModule hm]
      split
      · next hj =>
        subst hj
        rw [hm]
        rfl
      · rfl
    · rfl
  have hfunctions : ∀ other callee, (d.openClass label.code.module { m with classes }
      name).program.findFunction label.code.module other = .ok callee →
        d.program.findFunction label.code.module other = .ok callee := by
    intro other callee hfound
    obtain ⟨m', n, hm', hn, rfl⟩ := Program.findFunction_ok.mp hfound
    cases ((Draft.modules_setModule hm _).trans (if_pos rfl)).symm.trans hm'
    exact Program.findFunction_ok.mpr ⟨m, n, hm, hn, rfl⟩
  have hready' := hready.goesOn hlayout hgrows (.refl c) rfl rfl (htable _) (htable _)
    (fun _ _ hfound => .inl (hfunctions _ _ hfound))
    fun _ _ _ hfound => .inl (Draft.findMethod_openClass hm hdeclare hfound)
  exact ⟨hready', hgrows, .refl c, fun _ _ => rfl, rfl, rfl, rfl, fun _ _ hmarks hle =>
    absurd (hready.layout.marks_lt hmarks) (Nat.not_lt.mpr hle)⟩

namespace Builder

variable {d : Draft} {c : Chart} {label : Label}

section

variable {π : Type} {nest : π → Nat → Builder π} {owner : π} {number : Nat}
  {className moduleName : String}

/-- The methods of a class are over, or one of them is read and attached before the
others. -/
theorem methods_ok {b : Token} {bound : List Token} {previous : Option Nat}
    {r : π × Draft}
    (h : methods nest number className moduleName (b :: bound) owner previous d = .ok r) :
    ∃ ahead, r = (owner, { d with ahead }) ∨
      ∃ node d₁ attached,
        function (.classOf number) (some className) moduleName { d with ahead } =
          .ok (node, d₁) ∧
        attach nest owner previous node d₁ = .ok attached ∧
        methods nest number className moduleName bound attached.1.1 (some attached.1.2)
          attached.2 = .ok r := by
  obtain ⟨seen, ahead, -, h⟩ := tokens_bind h
  rw [ite_apply] at h
  split at h
  · obtain ⟨_, ahead, -, h⟩ := tokens_bind h
    obtain ⟨node, d₁, hfunction, h⟩ := bind_ok.mp h
    obtain ⟨attached, d₂, hattach, h⟩ := bind_ok.mp h
    exact ⟨ahead, .inr ⟨node, d₁, (attached, d₂), hfunction, hattach, h⟩⟩
  · exact ⟨ahead, .inl (pure_ok.mp h)⟩

/-- A method that is read and placed: neither it nor what it declares is part of the code
around the class. -/
theorem method_read {d₀ : Draft} {c₀ : Chart} {r : Node Operator × Draft}
    (houtside : label.code.function = none) (hread : FunctionsRead d₀ d c₀ c label)
    (hname : ∃ m, d.program.modules[label.code.module]? = some m ∧ m.name = moduleName)
    (h : function (.classOf number) (some className) moduleName d = .ok r) :
    r.1.index = none ∧ ∃ c',
      FunctionsRead d₀ (r.2.withForest (r.2.program.forest.placed r.1)) c₀ c' label ∧
      c.Grows c' ∧ (∀ l, ¬ c'.Marks r.2.program.forest.nodes.size l) ∧
      d₀.program.forest.nodes.size ≤ r.2.program.forest.nodes.size ∧
      ∃ m, r.2.program.modules[label.code.module]? = some m ∧ m.name = moduleName := by
  obtain ⟨⟨c₁, hread₁⟩, name, n, child, hcases⟩ :=
    function_read hread.ready houtside hname h
  have hnode : ¬ r.1.operator.Labelled := by
    obtain hnode | hnode := hcases <;> rw [hnode] <;> exact id
  refine ⟨by obtain hnode | hnode := hcases <;> rw [hnode], c₁.labelled none,
    (hread.trans hread₁).trans (.placed hread₁.ready hnode),
    hread₁.chart.trans (c₁.grows_labelled none), fun l hl => ?_,
    Nat.le_trans hread.grows.forest.size hread₁.grows.forest.size, ?_⟩
  · obtain ⟨-, hnone⟩ | ⟨hlt, -⟩ := hread₁.ready.layout.of_marks_labelled hl
    · cases hnone
    · exact absurd hlt (Nat.lt_irrefl _)
  · obtain ⟨m, hm, hmname⟩ := hname
    obtain ⟨m', hm', hmname'⟩ := hread₁.grows.modules _ m hm
    exact ⟨m', hm', hmname'.trans hmname⟩

/-- The methods behind the first one. -/
theorem methods_read {d₀ : Draft} {c₀ : Chart} (h₀ : Layout d₀.program c₀)
    (houtside : label.code.function = none) :
    ∀ (bound : List Token) {q : Nat} {d : Draft} {c : Chart} {r : π × Draft},
      FunctionsRead d₀ d c₀ c label →
      (∃ m, d.program.modules[label.code.module]? = some m ∧ m.name = moduleName) →
      d₀.program.forest.nodes.size ≤ q → q < d.program.forest.nodes.size →
      (∀ l, ¬ c.Marks q l) →
      methods nest number className moduleName bound owner (some q) d = .ok r →
      r.1 = owner ∧ ∃ c', FunctionsRead d₀ r.2 c₀ c' label
  | [], _, _, c, _, hread, _, _, _, _, h => by
    cases pure_ok.mp h
    exact ⟨rfl, c, hread⟩
  | _ :: bound, q, d, c, r, hread, hname, hle, hlt, hunmarked, h => by
    obtain ⟨ahead, rfl | ⟨node, d₁, attached, hfunction, hattach, h⟩⟩ := methods_ok h
    · exact ⟨rfl, c, hread.reading ahead⟩
    · obtain ⟨hloose, c₁, hplaced, hchart, hnew, hlater, hname₁⟩ :=
        method_read houtside (hread.reading ahead) hname hfunction
      obtain ⟨f, hfollow, rfl⟩ := attach_next_ok hloose hattach
      have hq : ∀ l, ¬ c₁.Marks q l := fun l hl =>
        hunmarked l (hread.ready.layout.marks_of_grows hchart hl hlt)
      refine methods_read h₀ houtside bound (hplaced.followed h₀ hfollow hle hq) hname₁ hlater
        ?_ hnew h
      obtain ⟨_, _, _, rfl⟩ := Forest.follow_ok hfollow
      simp [Draft.withForest, Forest.followed, Forest.size_relink, Forest.size_placed]

end

/-- The methods of a class, which has them then. -/
theorem members_read {number : Nat} {className moduleName : String} {d₀ : Draft}
    {c₀ : Chart} {bound : List Token} {operator : Operator} {r : Node Operator × Draft}
    (h₀ : Layout d₀.program c₀) (houtside : label.code.function = none)
    (hread : FunctionsRead d₀ d c₀ c label)
    (hname : ∃ m, d.program.modules[label.code.module]? = some m ∧ m.name = moduleName)
    (h : methods nestLoose number className moduleName bound { operator } none d = .ok r) :
    (∃ child, r.1 = { operator, links := { child } }) ∧
      ∃ c', FunctionsRead d₀ r.2 c₀ c' label := by
  cases bound with
  | nil =>
    cases pure_ok.mp h
    exact ⟨⟨none, rfl⟩, c, hread⟩
  | cons b bound =>
    obtain ⟨ahead, rfl | ⟨node, d₁, attached, hfunction, hattach, h⟩⟩ := methods_ok h
    · exact ⟨⟨none, rfl⟩, c, hread.reading ahead⟩
    · obtain ⟨hloose, c₁, hplaced, -, hnew, hlater, hname₁⟩ :=
        method_read houtside (hread.reading ahead) hname hfunction
      obtain ⟨hindex, hnest⟩ := attach_first_ok hloose hattach
      obtain ⟨howner, hsame⟩ := Prod.mk.inj (nestLoose_ok hnest)
      rw [hindex, hsame, howner] at h
      obtain ⟨hkept, hall⟩ := methods_read h₀ houtside bound hplaced hname₁ hlater
        (by simp [Draft.withForest, Forest.size_placed]) hnew h
      exact ⟨⟨_, hkept⟩, hall⟩

/-- A class keeps everything in agreement, and the code around it goes on. -/
theorem classDeclaration_read {m : ModuleDeclaration} {r : Node Operator × Draft}
    (hready : d.Ready c label) (houtside : label.code.function = none)
    (hm : d.program.modules[label.code.module]? = some m)
    (h : classDeclaration label.code.module m d = .ok r) :
    (∃ c', FunctionsRead d r.2 c c' label) ∧
      ∃ name n child, r.1 = { operator := .classDeclaration name n, links := { child } } := by
  obtain ⟨_, ahead, -, h⟩ := tokens_bind h
  obtain ⟨word, ahead, -, h⟩ := tokens_bind h
  obtain ⟨d₁, d₂, hget, h⟩ := bind_ok.mp h
  cases get_ok.mp hget
  obtain ⟨classes, d₂, hdeclare, h⟩ := bind_ok.mp h
  obtain ⟨hdeclare, rfl⟩ := lift_ok.mp hdeclare
  obtain ⟨_, d₃, hset, h⟩ := bind_ok.mp h
  obtain ⟨-, rfl⟩ := Prod.mk.inj (set_ok.mp hset)
  obtain ⟨d₄, d₅, hget, h⟩ := bind_ok.mp h
  cases get_ok.mp hget
  obtain ⟨node, d₆, hmethods, h⟩ := bind_ok.mp h
  have hopened := FunctionsRead.openClass (hready.ahead ahead) hm hdeclare
  have hname : ∃ m', (d.openClass label.code.module { m with classes }
      word.text).program.modules[label.code.module]? = some m' ∧ m'.name = m.name :=
    ⟨_, (Draft.modules_setModule hm _).trans (if_pos rfl), rfl⟩
  obtain ⟨⟨child, rfl⟩, c', hread⟩ :=
    members_read hready.layout houtside hopened.since hname hmethods
  obtain ⟨ahead, h⟩ := closingName_bind h
  cases pure_ok.mp h
  exact ⟨⟨c', hread.reading ahead⟩, _, _, _, rfl⟩

end Builder

end Pseudocode
