import Pseudocode.Proofs.Fork
import Pseudocode.Proofs.Steady

/-!
# Whose array it is

An array lives in a cell, and whoever has the cell's address can write into it.  A
variable only ever takes an array that has just been copied into a new cell, so that no
two variables hold the same one (`Machine.Owned`).  An array that no variable holds, say
because a call has just given it back, is lost to all of them: nobody can write into it
any more, and it stays what it was (`Machine.Spared`).

`Spared` compares the states before and after a computation and also says what became
of the operands that were written in between.  `Exec.Sparing` is the statement that a
computation leads to such a state; the rules for it follow the way computations are put
together.

There are few ways in which a state changes, and each has one lemma.  A value is kept, in a
new cell if it is an array (`Spared.keep`); a variable takes a new cell (`Spared.hold`), or
a whole scope does with its parameters (`Spared.enter`); an array is written into, which
shows in the one variable that holds it (`Spared.write`); a scope is closed and forgets what
it held (`Spared.pop`); an operand is written out (`Spared.emit`).  Behind the first three is
one lemma, `of_taken`: every variable holds what it held, but for some that have taken new
cells, each its own.

Names of arrays are kept in step with the program's declarations (`Program.MayHold`), so
that a variable that no declaration makes an array never holds one.
-/

namespace Pseudocode

open Exec Machine

/-! ## Declared arrays -/

/-- Whether a program declares an array under a name, as a variable or as a
parameter. -/
def Program.DeclaresArray (p : Program) (name : String) : Prop :=
  ∃ t : DeclaredType, t.isArray = true ∧
    ((∃ (index : Nat) (node : Node Operator) (initial : Option Expr),
        p.forest.nodes[index]? = some node ∧
          node.operator = .declaration t name initial) ∨
      ∃ callee, ⟨t, name⟩ ∈ (p.function callee).parameters)

/-- Whether a program has an output statement that writes the array of a variable. -/
def Program.WritesArrays (p : Program) : Prop :=
  ∃ (index : Nat) (node : Node Operator) (target : Occurrence),
    p.forest.nodes[index]? = some node ∧ node.operator = .output (.read target) ∧
      p.DeclaresArray target.name

/-- Whether an operand that a program writes may be the array of a variable. -/
def Program.Exposes (p : Program) (operand : Operand) : Prop :=
  p.WritesArrays ∧ ∃ address, operand = .cell address

/-- What a variable may hold under a name: anything but an array, or the array in a
cell if the program declares one. -/
def Program.MayHold (p : Program) (name : String) : Operand → Prop
  | .value v => ∀ slots, v ≠ .array slots
  | .cell _ => p.DeclaresArray name

/-- Only conversion to an array gives an array. -/
theorem Value.isArray_of_convert {v : Value} {t : DeclaredType} {slots : List (Option Value)}
    (h : v.convert t = .ok (.array slots)) : t.isArray = true := by
  unfold convert at h
  unfold DeclaredType.isArray
  cases hlength : t.length with
  | some length => rfl
  | none =>
    rw [hlength] at h
    unfold convertScalar at h
    cases hkind : t.kind with
    | integer =>
      rw [hkind] at h
      cases hv : v.toInteger <;> rw [hv] at h <;> cases h
    | real =>
      rw [hkind] at h
      cases hv : v.toReal <;> rw [hv] at h <;> cases h
    | boolean =>
      rw [hkind] at h
      cases hv : v.toBoolean <;> rw [hv] at h <;> cases h
    | string =>
      rw [hkind] at h
      cases hv : v.toText <;> rw [hv] at h <;> cases h

/-- What was converted to a type may be held by a variable of that type. -/
theorem Program.mayHold_keep {p : Program} {name : String} {t : DeclaredType} {v v' : Value}
    (hname : t.isArray = true → p.DeclaresArray name) (hv : v.convert t = .ok v')
    (s : Store) : p.MayHold name (s.keep v').1 := by
  cases v' with
  | scalar _ | bare => exact fun slots heq => nomatch heq
  | array slots => exact hname (Value.isArray_of_convert hv)

namespace Store

variable {s : Store} {address : Nat}

/-- To keep a value leaves the arrays that are there. -/
theorem slots_keep (h : address < s.cells.size) (v : Value) :
    (s.keep v).2.slots address = s.slots address := by
  have hmade : s.Made (.cell address) := h
  exact Value.array.inj (reveal_keep_of_made hmade v)

/-- A cell that was made to keep a value is a new one. -/
theorem cell_keep {v : Value} (h : (s.keep v).1 = .cell address) :
    s.cells.size ≤ address ∧ address < (s.keep v).2.cells.size := by
  have hmade := s.made_keep v
  rw [h] at hmade
  refine ⟨?_, hmade⟩
  cases v with
  | scalar _ | bare => cases h
  | array slots =>
    cases h
    exact Nat.le_refl _

end Store

/-! ## Tables -/

/-- Whether the variable of a name holds the array in a cell. -/
def Variables.Owns (vars : Variables) (name : String) (address : Nat) : Prop :=
  ∃ v, (name, v) ∈ vars.entries ∧ v.binding = some (.held (.cell address))

/-- No name is in the table twice, and all variables hold what they may. -/
structure Variables.Plain (p : Program) (vars : Variables) : Prop where
  named : vars.names.Nodup
  declared : ∀ name v, (name, v) ∈ vars.entries → v.type.isArray = true →
    p.DeclaresArray name
  held : ∀ name v, (name, v) ∈ vars.entries →
    ∃ operand, v.binding = some (.held operand) ∧ p.MayHold name operand

namespace Variables

variable {p : Program} {vars : Variables} {name other : String} {operand : Operand}
  {address : Nat} {t : DeclaredType}

/-- What a variable owns it holds. -/
theorem Owns.holds (h : vars.Owns name address) : vars.Holds address := by
  obtain ⟨v, hmem, hbinding⟩ := h
  exact ⟨name, v, hmem, hbinding⟩

/-- What is owned with one variable more was owned before, or is owned by that variable. -/
theorem owns_append {v : Variable}
    (h : Owns { vars with entries := vars.entries ++ [(name, v)] } other address) :
    vars.Owns other address ∨ other = name ∧ v.binding = some (.held (.cell address)) := by
  obtain ⟨v', hmem, hbinding⟩ := h
  obtain hmem | hmem := List.mem_append.mp hmem
  · exact .inl ⟨v', hmem, hbinding⟩
  · cases List.mem_singleton.mp hmem
    exact .inr ⟨rfl, hbinding⟩

/-- What is owned behind a binding was owned before, or is what was bound. -/
theorem owns_rebind (h : (vars.rebind name (.held operand)).Owns other address) :
    vars.Owns other address ∨ other = name ∧ operand = .cell address := by
  obtain ⟨v', hmem, hbinding⟩ := h
  obtain ⟨⟨name₁, v₁⟩, hmem₁, hentry⟩ := List.mem_map.mp hmem
  split at hentry
  · next heq =>
    cases hentry
    cases hbinding
    exact .inr ⟨heq, rfl⟩
  · cases hentry
    exact .inl ⟨v', hmem₁, hbinding⟩

/-- The same for a variable that is put into a table. -/
theorem owns_put (h : (vars.put t name operand).Owns other address) :
    vars.Owns other address ∨ other = name ∧ operand = .cell address := by
  unfold put at h
  split at h
  · exact owns_rebind h
  · refine (owns_append h).imp_right fun ⟨heq, hbinding⟩ => ⟨heq, ?_⟩
    cases hbinding
    rfl

/-- To bind a variable leaves all names as they are. -/
theorem names_rebind (vars : Variables) (name : String) (binding : Binding) :
    (vars.rebind name binding).names = vars.names := by
  unfold Variables.rebind Table.modify Table.names
  rw [List.map_map]
  refine List.map_congr_left fun entry _ => ?_
  show (if entry.1 = name then _ else entry).1 = entry.1
  split <;> rfl

/-- A name that a table does not have is none of its names. -/
theorem not_mem_names (h : vars.has name = false) : name ∉ vars.names := by
  intro hmem
  obtain ⟨⟨_, v⟩, hentry, rfl⟩ := List.mem_map.mp hmem
  unfold Table.has Table.find? at h
  rw [Option.isSome_eq_false_iff, Option.isNone_iff_eq_none] at h
  have hne := List.lookup_eq_none_iff.mp h _ hentry
  simp at hne

/-- An empty table is plain. -/
theorem plain_nil {kind : NameKind} : Plain p ⟨kind, []⟩ :=
  ⟨List.nodup_nil, fun _ _ h => (nomatch h), fun _ _ h => nomatch h⟩

/-- A variable of the table is the one that is found. -/
theorem Plain.find? (h : vars.Plain p) {v : Variable} (hmem : (name, v) ∈ vars.entries) :
    vars.find? name = some v := by
  have hnamed := h.named
  unfold Table.names at hnamed
  unfold Table.find?
  generalize vars.entries = entries at hmem hnamed
  induction entries with
  | nil => cases hmem
  | cons entry rest ih =>
    obtain ⟨hnew, hrest⟩ := List.nodup_cons.mp hnamed
    obtain rfl | hmem := List.mem_cons.mp hmem
    · simp
    · have hne : (name == entry.1) = false := by
        rw [beq_eq_false_iff_ne]
        rintro rfl
        exact hnew (List.mem_map.mpr ⟨_, hmem, rfl⟩)
      rw [List.lookup_cons, hne]
      exact ih hmem hrest

/-- One variable more, of a new name, leaves a table plain. -/
theorem Plain.append (h : vars.Plain p) (hnew : vars.has name = false)
    (hname : t.isArray = true → p.DeclaresArray name) (hholds : p.MayHold name operand) :
    Plain p { vars with entries := vars.entries ++ [(name, ⟨t, some (.held operand)⟩)] } := by
  refine ⟨?_, fun other v hmem => ?_, fun other v hmem => ?_⟩
  · unfold Table.names
    rw [List.map_append]
    refine List.nodup_append.mpr ⟨h.named, by simp, fun a ha b hb heq => ?_⟩
    obtain rfl : b = name := by simpa using hb
    exact not_mem_names hnew (heq ▸ ha)
  · obtain hmem | hmem := List.mem_append.mp hmem
    · exact h.declared other v hmem
    · cases List.mem_singleton.mp hmem
      exact hname
  · obtain hmem | hmem := List.mem_append.mp hmem
    · exact h.held other v hmem
    · cases List.mem_singleton.mp hmem
      exact ⟨operand, rfl, hholds⟩

/-- A binding to what the variable may hold leaves a table plain. -/
theorem Plain.rebind (h : vars.Plain p) (hholds : p.MayHold name operand) :
    (vars.rebind name (.held operand)).Plain p := by
  have hentry : ∀ other v, (other, v) ∈ (vars.rebind name (.held operand)).entries →
      (other, v) ∈ vars.entries ∨ other = name ∧ v.binding = some (.held operand) ∧
        ∃ v₁, (other, v₁) ∈ vars.entries ∧ v.type = v₁.type := by
    intro other v hmem
    obtain ⟨⟨name₁, v₁⟩, hmem₁, heq⟩ := List.mem_map.mp hmem
    split at heq
    · next hsame =>
      cases heq
      exact .inr ⟨hsame, rfl, v₁, hmem₁, rfl⟩
    · cases heq
      exact .inl hmem₁
  refine ⟨?_, fun other v hmem harray => ?_, fun other v hmem => ?_⟩
  · rw [names_rebind]
    exact h.named
  · obtain hmem | ⟨-, -, v₁, hmem₁, htype⟩ := hentry other v hmem
    · exact h.declared other v hmem harray
    · exact h.declared other v₁ hmem₁ (htype ▸ harray)
  · obtain hmem | ⟨rfl, hbinding, -⟩ := hentry other v hmem
    · exact h.held other v hmem
    · exact ⟨operand, hbinding, hholds⟩

/-- So does a variable that is put into the table. -/
theorem Plain.put (h : vars.Plain p) (hname : t.isArray = true → p.DeclaresArray name)
    (hholds : p.MayHold name operand) : (vars.put t name operand).Plain p := by
  unfold Variables.put
  split
  · exact h.rebind hholds
  · next hhas => exact h.append (by simpa using hhas) hname hholds

end Variables

/-! ## States -/

/-- Whether the variable of a name in a scope holds the array in a cell. -/
def Machine.Owns (m : Machine) (scope : Nat) (name : String) (address : Nat) : Prop :=
  (m.environment.scope scope).vars.Owns name address

/-- Every array is that of one variable. -/
structure Machine.Owned (p : Program) (m : Machine) : Prop where
  plain : ∀ scope, (m.environment.scope scope).vars.Plain p
  made : ∀ scope address, m.Holds scope address → address < m.store.cells.size
  once : ∀ scope name scope' name' address, m.Owns scope name address →
    m.Owns scope' name' address → scope = scope' ∧ name = name'

/-- An operand is not the array of a variable: it is a value, or an array that has been
made since a state and that no variable holds. -/
def Machine.Apart (m m' : Machine) (operand : Operand) : Prop :=
  ∀ address, operand = .cell address → m.store.cells.size ≤ address ∧ m'.Free address

/-- An operand and its text, which nothing can change any more. -/
structure Machine.Settles (m m' : Machine) (operand : Operand) (text : String) : Prop where
  text : m'.textOf operand = .ok text
  apart : m.Apart m' operand

/-- A later state in which every array that no variable held is still that and has not
changed.  What was written in between is made of cells that exist; and if it cannot be
the array of a variable, it has not changed either. -/
structure Machine.Spared (p : Program) (m m' : Machine) : Prop where
  owned : m'.Owned p
  cells : m.store.cells.size ≤ m'.store.cells.size
  free : ∀ address, m.Free address →
    m'.Free address ∧ m'.store.slots address = m.store.slots address
  log : ∃ events, m'.log.toList = m.log.toList ++ events ∧
    ∀ operand text, .written operand text ∈ events →
      m'.store.Made operand ∧ (¬ p.Exposes operand → m.Settles m' operand text)

/-- The variables of a table have taken cells that were added to the store of a state,
each its own. -/
structure Machine.Takes (p : Program) (m : Machine) (store : Store) (vars : Variables) :
    Prop where
  cells : m.store.cells.size ≤ store.cells.size
  slots : ∀ address < m.store.cells.size, store.slots address = m.store.slots address
  plain : vars.Plain p
  made : ∀ name address, vars.Owns name address →
    m.store.cells.size ≤ address ∧ address < store.cells.size
  once : ∀ name name' address, vars.Owns name address → vars.Owns name' address →
    name = name'

/-- A later state with the same variables and arrays, and nothing written in between. -/
structure Machine.Calm (m m' : Machine) : Prop where
  environment : m'.environment = m.environment
  frames : m'.frames = m.frames
  store : m'.store = m.store
  log : ∃ events, m'.log.toList = m.log.toList ++ events ∧
    ∀ operand text, .written operand text ∉ events

namespace Machine

variable {p : Program} {m m' m'' : Machine} {address : Nat}

/-- The array that a variable owns has been made. -/
theorem Owned.owns_lt (h : m.Owned p) {scope : Nat} {name : String}
    (howns : m.Owns scope name address) : address < m.store.cells.size :=
  h.made scope address howns.holds

/-- Nothing has changed. -/
theorem Calm.refl (m : Machine) : m.Calm m :=
  ⟨rfl, rfl, rfl, [], (List.append_nil _).symm, fun _ _ h => nomatch h⟩

/-- What was to be converted is neither a variable nor an array. -/
theorem Calm.refuse (m : Machine) (c : Conversion) : m.Calm { m with refused := some c } :=
  ⟨rfl, rfl, rfl, [], (List.append_nil _).symm, fun _ _ h => nomatch h⟩

/-- No variable and no array has changed in two steps. -/
theorem Calm.trans (h : m.Calm m') (h' : m'.Calm m'') : m.Calm m'' := by
  obtain ⟨events, hlog, hnone⟩ := h.log
  obtain ⟨events', hlog', hnone'⟩ := h'.log
  refine ⟨h'.environment.trans h.environment, h'.frames.trans h.frames,
    h'.store.trans h.store, events ++ events', ?_, fun operand text hmem => ?_⟩
  · rw [hlog', hlog, List.append_assoc]
  · exact (List.mem_append.mp hmem).elim (hnone operand text) (hnone' operand text)

/-- The same arrays are free. -/
theorem Calm.free_iff (h : m.Calm m') : m'.Free address ↔ m.Free address := by
  unfold Free Holds
  rw [h.environment, h.store]

/-- Arrays stay with their variables. -/
theorem Calm.owned (h : m.Calm m') (hm : m.Owned p) : m'.Owned p := by
  refine ⟨?_, ?_, ?_⟩
  · rw [h.environment]
    exact hm.plain
  · unfold Holds
    rw [h.environment, h.store]
    exact hm.made
  · unfold Owns
    rw [h.environment]
    exact hm.once

/-- A scalar is apart from all arrays. -/
theorem apart_value (v : Value) : m.Apart m' (.value v) := nofun

/-- What is apart has been made. -/
theorem Apart.made {operand : Operand} (h : m.Apart m' operand) : m'.store.Made operand := by
  cases operand with
  | value v => trivial
  | cell address => exact (h address rfl).2.1

/-- What is apart stays apart. -/
theorem Apart.later {operand : Operand} (h : m.Apart m' operand) (h' : m'.Spared p m'') :
    m.Apart m'' operand := by
  intro address heq
  obtain ⟨hle, hfree⟩ := h address heq
  exact ⟨hle, (h'.free address hfree).1⟩

/-- What is apart from a later state is so from an earlier one. -/
theorem Apart.earlier {operand : Operand} (h' : m'.Apart m'' operand) (h : m.Spared p m') :
    m.Apart m'' operand := by
  intro address heq
  obtain ⟨hle, hfree⟩ := h' address heq
  exact ⟨Nat.le_trans h.cells hle, hfree⟩

/-- Nobody holds what has just been kept. -/
theorem Owned.apart_keep (hm : m.Owned p) (v : Value) :
    m.Apart { m with store := (m.store.keep v).2 } (m.store.keep v).1 := by
  intro address heq
  obtain ⟨hle, hlt⟩ := Store.cell_keep heq
  refine ⟨hle, hlt, fun scope hheld => ?_⟩
  exact Nat.not_lt.mpr hle (hm.made scope address hheld)

/-- An array that has the same slots has the same text. -/
theorem textOf_cell (h : m'.store.slots address = m.store.slots address) :
    m'.textOf (.cell address) = m.textOf (.cell address) := by
  show (Value.array (m'.store.slots address)).toText = _
  rw [h]
  rfl

namespace Spared

/-- What is spared twice is spared. -/
theorem trans (h : m.Spared p m') (h' : m'.Spared p m'') : m.Spared p m'' := by
  obtain ⟨events, hlog, hevents⟩ := h.log
  obtain ⟨events', hlog', hevents'⟩ := h'.log
  refine ⟨h'.owned, Nat.le_trans h.cells h'.cells, fun address hfree => ?_,
    events ++ events', ?_, fun operand text hmem => ?_⟩
  · obtain ⟨hfree', hslots⟩ := h.free address hfree
    obtain ⟨hfree'', hslots'⟩ := h'.free address hfree'
    exact ⟨hfree'', hslots'.trans hslots⟩
  · rw [hlog', hlog, List.append_assoc]
  · obtain hmem | hmem := List.mem_append.mp hmem
    · obtain ⟨hmade, hsettles⟩ := hevents operand text hmem
      cases operand with
      | value v => exact ⟨trivial, fun hno => ⟨(hsettles hno).text, apart_value v⟩⟩
      | cell address =>
        refine ⟨Nat.lt_of_lt_of_le hmade h'.cells, fun hno => ?_⟩
        -- nobody holds the array any more, so it stays what it was
        obtain ⟨-, hfree⟩ := (hsettles hno).apart address rfl
        have hslots := (h'.free address hfree).2
        exact ⟨(textOf_cell hslots).trans (hsettles hno).text,
          (hsettles hno).apart.later h'⟩
    · obtain ⟨hmade, hsettles⟩ := hevents' operand text hmem
      exact ⟨hmade, fun hno => ⟨(hsettles hno).text, (hsettles hno).apart.earlier h⟩⟩

/-- Where no variable and no array has changed, everything is spared. -/
theorem of_calm (hm : m.Owned p) (h : m.Calm m') : m.Spared p m' := by
  obtain ⟨events, hlog, hnone⟩ := h.log
  refine ⟨h.owned hm, ?_, fun address hfree => ⟨h.free_iff.mpr hfree, ?_⟩, events, hlog,
    fun operand text hmem => absurd hmem (hnone operand text)⟩
  · exact Nat.le_of_eq (by rw [h.store])
  · rw [h.store]

/-- A state spares itself. -/
theorem refl (hm : m.Owned p) : m.Spared p m := of_calm hm (.refl m)

/-- A state in which all variables hold the arrays that they held before, but for some
that have taken new cells, each its own. -/
theorem of_taken (hm : m.Owned p) (taken : Nat → String → Nat → Prop)
    (hlog : m'.log = m.log) (hcells : m.store.cells.size ≤ m'.store.cells.size)
    (hslots : ∀ address < m.store.cells.size,
      m'.store.slots address = m.store.slots address)
    (hplain : ∀ scope, (m'.environment.scope scope).vars.Plain p)
    (howns : ∀ scope name address, m'.Owns scope name address →
      m.Owns scope name address ∨ taken scope name address)
    (hnew : ∀ scope name address, taken scope name address →
      m.store.cells.size ≤ address ∧ address < m'.store.cells.size)
    (honce : ∀ scope name scope' name' address, taken scope name address →
      taken scope' name' address → scope = scope' ∧ name = name') : m.Spared p m' := by
  -- an old cell and one that has just been taken are not the same
  have hdiffer : ∀ {scope name scope' name' address}, m.Owns scope name address →
      ¬ taken scope' name' address := by
    intro scope name scope' name' address hold htaken
    have hlt := hm.owns_lt hold
    have hle := (hnew _ _ _ htaken).1
    omega
  refine ⟨⟨hplain, fun scope address hheld => ?_,
    fun scope name scope' name' address h h' => ?_⟩, hcells,
    fun address hfree => ⟨⟨Nat.lt_of_lt_of_le hfree.1 hcells, fun scope hheld => ?_⟩,
      hslots address hfree.1⟩, [], ?_, fun _ _ h => nomatch h⟩
  · obtain ⟨name, howns'⟩ := hheld
    obtain hold | htaken := howns scope name address howns'
    · exact Nat.lt_of_lt_of_le (hm.owns_lt hold) hcells
    · exact (hnew _ _ _ htaken).2
  · obtain hold | htaken := howns scope name address h
    · obtain hold' | htaken' := howns scope' name' address h'
      · exact hm.once scope name scope' name' address hold hold'
      · exact absurd htaken' (hdiffer hold)
    · obtain hold' | htaken' := howns scope' name' address h'
      · exact absurd htaken (hdiffer hold')
      · exact honce scope name scope' name' address htaken htaken'
  · obtain ⟨name, howns'⟩ := hheld
    obtain hold | htaken := howns scope name address howns'
    · exact hfree.2 scope ⟨name, hold⟩
    · exact Nat.not_lt.mpr (hnew _ _ _ htaken).1 hfree.1
  · rw [hlog, List.append_nil]

/-- A state in which no variable holds anything new. -/
theorem of_owns (hm : m.Owned p) (hlog : m'.log = m.log)
    (hcells : m.store.cells.size ≤ m'.store.cells.size)
    (hslots : ∀ address < m.store.cells.size,
      m'.store.slots address = m.store.slots address)
    (hplain : ∀ scope, (m'.environment.scope scope).vars.Plain p)
    (howns : ∀ scope name address, m'.Owns scope name address →
      m.Owns scope name address) : m.Spared p m' :=
  of_taken hm (fun _ _ _ => False) hlog hcells hslots hplain
    (fun scope name address h => .inl (howns scope name address h))
    (fun _ _ _ h => h.elim) fun _ _ _ _ _ h => h.elim

/-- To keep a value spares everything. -/
theorem keep (hm : m.Owned p) (v : Value) :
    m.Spared p { m with store := (m.store.keep v).2 } :=
  of_owns hm rfl (m.store.size_keep v) (fun _ hlt => Store.slots_keep hlt v) hm.plain
    fun _ _ _ h => h

/-- A variable takes a new cell. -/
theorem hold (hm : m.Owned p) (name : String) {v : Value} {id : Nat}
    {change : Variables → Variables}
    (hplain : (change (m.environment.scope id).vars).Plain p)
    (howns : ∀ other address, (change (m.environment.scope id).vars).Owns other address →
      m.Owns id other address ∨ other = name ∧ (m.store.keep v).1 = .cell address) :
    m.Spared p { m with
      store := (m.store.keep v).2
      environment := m.environment.modifyVariables id change } := by
  refine of_taken hm (fun scope other address => scope = id ∧ other = name ∧
      (m.store.keep v).1 = .cell address) rfl (m.store.size_keep v)
    (fun _ hlt => Store.slots_keep hlt v) (fun scope => ?_) (fun scope other address h => ?_)
    (fun scope other address h => Store.cell_keep h.2.2) ?_
  · show ((m.environment.modifyVariables id change).scope scope).vars.Plain p
    rw [Environment.scope_modify]
    split
    · exact hplain
    · exact hm.plain scope
  · unfold Machine.Owns at h
    rw [Environment.scope_modify] at h
    split at h
    · next heq =>
      obtain ⟨rfl, -⟩ := heq
      exact (howns other address h).imp_right fun ⟨hname, hcell⟩ => ⟨rfl, hname, hcell⟩
    · exact .inl h
  · intro scope other scope' other' address h h'
    exact ⟨h.1.trans h'.1.symm, h.2.1.trans h'.2.1.symm⟩

/-- A scope is opened with variables that have taken new cells. -/
theorem enter (hm : m.Owned p) {store : Store} {vars : Variables}
    (h : m.Takes p store vars) (parent : Option Nat) (name : String) :
    m.Spared p (entered { m with store } parent name vars) := by
  refine of_taken hm (fun scope other address => scope = m.environment.scopes.size ∧
      vars.Owns other address) rfl h.cells h.slots (fun scope => ?_)
    (fun scope other address h => ?_)
    (fun scope other address htaken => h.made other address htaken.2) ?_
  · rw [environment_entered]
    by_cases heq : scope = m.environment.scopes.size
    · subst heq
      rw [Environment.scope_enter.1]
      exact h.plain
    · rw [Environment.scope_enter_ne heq]
      exact hm.plain scope
  · unfold Machine.Owns at h
    rw [environment_entered] at h
    by_cases heq : scope = m.environment.scopes.size
    · subst heq
      rw [Environment.scope_enter.1] at h
      exact .inr ⟨rfl, h⟩
    · rw [Environment.scope_enter_ne heq] at h
      exact .inl h
  · intro scope other scope' other' address htaken htaken'
    exact ⟨htaken.1.trans htaken'.1.symm, h.once other other' address htaken.2 htaken'.2⟩

/-- Variables that are forgotten hold nothing. -/
theorem pop (hm : m.Owned p) : m.Spared p m.popScope := by
  cases hframes : m.frames with
  | nil =>
    unfold popScope
    rw [hframes]
    exact refl hm
  | cons scope rest =>
    rw [popScope_apply hframes]
    refine of_owns hm rfl (Nat.le_refl _) (fun _ _ => rfl) (fun id => ?_)
      fun id name address h => ?_
    · show ((m.environment.clear scope).scope id).vars.Plain p
      unfold Environment.clear
      rw [Environment.scope_modify]
      split
      · exact Variables.plain_nil
      · exact hm.plain id
    · unfold Machine.Owns Environment.clear at h
      rw [Environment.scope_modify] at h
      split at h
      · obtain ⟨_, hmem, -⟩ := h
        cases hmem
      · exact h

/-- Into an array that a variable held before something else was done. -/
theorem write (hm : m.Owned p) (h : m.Spared p m') {scope : Nat}
    (hheld : m.Holds scope address) (slots : List (Option Value)) :
    m.Spared p { m' with store := m'.store.write address slots } := by
  have hsize : (m'.store.write address slots).cells.size = m'.store.cells.size := by
    show (m'.store.cells.setIfInBounds address slots).size = _
    rw [Array.size_setIfInBounds]
  have hother : ∀ other, other ≠ address →
      (m'.store.write address slots).slots other = m'.store.slots other := by
    intro other hne
    rw [Store.slots_write, if_neg fun h => hne h.1]
  have hfree' : ∀ other, m'.Free other →
      Free { m' with store := m'.store.write address slots } other :=
    fun other hfree => ⟨hsize.symm ▸ hfree.1, hfree.2⟩
  obtain ⟨events, hlog, hevents⟩ := h.log
  refine ⟨⟨h.owned.plain, fun scope other hheld => ?_, h.owned.once⟩, ?_,
    fun other hfree => ?_, events, hlog, fun operand text hmem => ?_⟩
  · rw [hsize]
    exact h.owned.made scope other hheld
  · rw [hsize]
    exact h.cells
  · obtain ⟨hfree'', hslots⟩ := h.free other hfree
    have hne : other ≠ address := fun heq => hfree.2 scope (heq ▸ hheld)
    exact ⟨hfree' other hfree'', (hother other hne).trans hslots⟩
  · obtain ⟨hmade, hsettles⟩ := hevents operand text hmem
    cases operand with
    | value v => exact ⟨trivial, fun hno => ⟨(hsettles hno).text, apart_value v⟩⟩
    | cell other =>
      refine ⟨Nat.lt_of_lt_of_eq hmade hsize.symm, fun hno => ?_⟩
      obtain ⟨hle, hfree⟩ := (hsettles hno).apart other rfl
      -- what was written in between is newer than the array of the variable
      have hne : other ≠ address := by
        have hlt := hm.made scope address hheld
        omega
      exact ⟨(textOf_cell (hother other hne)).trans (hsettles hno).text,
        fun _ heq => Operand.cell.inj heq ▸ ⟨hle, hfree' other hfree⟩⟩

/-- An operand is written. -/
theorem emit (h : m.Spared p m') {operand : Operand} {text : String}
    (hmade : m'.store.Made operand) (hsettles : ¬ p.Exposes operand → m.Settles m' operand text) :
    m.Spared p { m' with log := m'.log.push (.written operand text) } := by
  obtain ⟨events, hlog, hevents⟩ := h.log
  refine ⟨⟨h.owned.plain, h.owned.made, h.owned.once⟩, h.cells, h.free,
    events ++ [.written operand text], ?_, fun other text' hmem => ?_⟩
  · show (m'.log.push _).toList = _
    rw [Array.toList_push, hlog, List.append_assoc]
  · obtain hmem | hmem := List.mem_append.mp hmem
    · obtain ⟨hmade', hsettles'⟩ := hevents other text' hmem
      exact ⟨hmade', fun hno => ⟨(hsettles' hno).text, (hsettles' hno).apart⟩⟩
    · cases List.mem_singleton.mp hmem
      exact ⟨hmade, fun hno => ⟨(hsettles hno).text, (hsettles hno).apart⟩⟩

end Spared

namespace Takes

variable {store : Store} {vars vars' : Variables}

/-- No variables take nothing. -/
theorem empty (p : Program) (m : Machine) : m.Takes p m.store Variables.empty :=
  ⟨Nat.le_refl _, fun _ _ => rfl, Variables.plain_nil, fun _ _ ⟨_, hmem, _⟩ => (nomatch hmem),
    fun _ _ _ ⟨_, hmem, _⟩ => nomatch hmem⟩

/-- Variables that take new cells spare everything. -/
theorem spared (h : m.Takes p store vars) (hm : m.Owned p) :
    m.Spared p { m with store } :=
  .of_owns hm rfl h.cells h.slots hm.plain fun _ _ _ howns => howns

/-- One more variable, which takes a value converted to its type. -/
theorem declare (h : m.Takes p store vars) {name : String} {t : DeclaredType}
    {a v : Value} (hname : t.isArray = true → p.DeclaresArray name)
    (hv : a.convert t = .ok v)
    (hdeclare : vars.declare name ⟨t, some (.held (store.keep v).1)⟩ = .ok vars') :
    m.Takes p (store.keep v).2 vars' := by
  obtain ⟨hnew, rfl⟩ := Table.declare_ok hdeclare
  have hmore := store.size_keep v
  have howns : ∀ other address, Variables.Owns { vars with
      entries := vars.entries ++ [(name, ⟨t, some (.held (store.keep v).1)⟩)] } other address →
      vars.Owns other address ∨ other = name ∧ (store.keep v).1 = .cell address := by
    intro other address h
    refine (Variables.owns_append h).imp_right fun ⟨heq, hbinding⟩ => ⟨heq, ?_⟩
    exact Binding.held.inj (Option.some.inj hbinding)
  -- an older variable of the table has an older cell
  have hdiffer : ∀ {other address}, vars.Owns other address →
      (store.keep v).1 ≠ .cell address := by
    intro other address hold heq
    have hlt := (h.made other address hold).2
    have hle := (Store.cell_keep heq).1
    omega
  refine ⟨Nat.le_trans h.cells hmore, fun address hlt => ?_,
    h.plain.append hnew hname (p.mayHold_keep hname hv store), fun other address hadd => ?_,
    fun other other' address hadd hadd' => ?_⟩
  · rw [Store.slots_keep (Nat.lt_of_lt_of_le hlt h.cells)]
    exact h.slots address hlt
  · obtain hold | ⟨-, hcell⟩ := howns other address hadd
    · obtain ⟨hle, hlt⟩ := h.made other address hold
      exact ⟨hle, Nat.lt_of_lt_of_le hlt hmore⟩
    · obtain ⟨hle, hlt⟩ := Store.cell_keep hcell
      exact ⟨Nat.le_trans h.cells hle, hlt⟩
  · obtain hold | ⟨rfl, hcell⟩ := howns other address hadd
    · obtain hold' | ⟨-, hcell'⟩ := howns other' address hadd'
      · exact h.once other other' address hold hold'
      · exact absurd hcell' (hdiffer hold)
    · obtain hold' | ⟨rfl, -⟩ := howns other' address hadd'
      · exact absurd hcell (hdiffer hold')
      · rfl

end Takes

end Machine

end Pseudocode
