import Mathlib.Data.List.Forall2
import Pseudocode.Proofs.Exec

/-!
# Two states side by side

A *fork* is a pair of states from which the same computation goes on twice.  What
the two runs have in common are the scopes of the modules on record and the arrays
that the variables in them hold.  Whatever else there was at the fork is *hidden*:
the states may differ in it, and the runs neither depend on it nor change it.  A
scope opened later has the same number in both runs, and a cell made later is as far
behind the cells of the fork in one run as in the other.

`Fork.Paired` says that two states have come out of a fork this way.  It relies on
each variable's having an array of its own (`Machine.Separate`): if a variable of a
caller and one of a module could hold the same array, no caller's array would be
hidden.

The relation is put together from the parts of a state.  Operands correspond if they are the
same value or cells at the same distance behind the fork (`Fork.Operands`); tables if they
have the same names with operands that do (`Fork.Tables`); stores if cells that correspond
have the same slots (`Fork.Stores`); environments if they have the same scopes, as far as
these are seen (`Fork.Environments`).  Each part has its lemmas for what the interpreter
does with it, so that the next module need not look inside.

Before that the modules' own side: how `Machine.Separate` is kept when a value is kept,
written, bound or forgotten.
-/

namespace Pseudocode

open Exec

/-! ## Who holds an array -/

/-- Whether a variable of a table holds the array in a cell. -/
def Variables.Holds (vars : Variables) (address : Nat) : Prop :=
  ∃ name v, (name, v) ∈ vars.entries ∧ v.binding = some (.held (.cell address))

/-- Whether a variable holds the array in a cell, to be computed. -/
def Variable.isCell (v : Variable) (address : Nat) : Bool :=
  match v.binding with
  | some (.held (.cell i)) => i = address
  | _ => false

/-- A variable that is a cell is bound to it. -/
theorem Variable.binding_of_isCell {v : Variable} {address : Nat}
    (h : v.isCell address = true) : v.binding = some (.held (.cell address)) := by
  unfold isCell at h
  split at h
  · next hbinding => rw [hbinding, decide_eq_true_eq.mp h]
  · cases h

namespace Variables

variable {vars vars' : Variables} {name : String} {operand : Operand} {address : Nat}

/-- A table without entries holds nothing. -/
theorem not_holds_nil {kind : NameKind} : ¬ Holds ⟨kind, []⟩ address := by
  rintro ⟨_, _, hmem, -⟩
  cases hmem

/-- So does an empty table. -/
theorem not_holds_empty : ¬ Variables.empty.Holds address := not_holds_nil

/-- What is held with one variable more was held before, or is held by that variable. -/
theorem holds_append {v : Variable}
    (h : Holds { vars with entries := vars.entries ++ [(name, v)] } address) :
    vars.Holds address ∨ v.binding = some (.held (.cell address)) := by
  obtain ⟨name', v', hmem, hbinding⟩ := h
  obtain hmem | hmem := List.mem_append.mp hmem
  · exact .inl ⟨name', v', hmem, hbinding⟩
  · cases List.mem_singleton.mp hmem
    exact .inr hbinding

/-- What is held behind a binding was held before, or is what was bound. -/
theorem holds_rebind (h : (vars.rebind name (.held operand)).Holds address) :
    vars.Holds address ∨ operand = .cell address := by
  obtain ⟨name', v', hmem, hbinding⟩ := h
  obtain ⟨⟨name₁, v₁⟩, hmem₁, hentry⟩ := List.mem_map.mp hmem
  split at hentry
  · cases hentry
    cases hbinding
    exact .inr rfl
  · cases hentry
    exact .inl ⟨name', v', hmem₁, hbinding⟩

/-- The same for a variable that is put into a table. -/
theorem holds_put {t : DeclaredType} (h : (vars.put t name operand).Holds address) :
    vars.Holds address ∨ operand = .cell address := by
  unfold put at h
  split at h
  · exact holds_rebind h
  · refine (holds_append h).imp_right fun hbinding => ?_
    cases hbinding
    rfl

end Variables

namespace Store

variable {s : Store} {address other : Nat} {slots : List (Option Value)}

/-- To write into a cell changes the slots of that cell. -/
theorem slots_write : (s.write address slots).slots other =
    if other = address ∧ address < s.cells.size then slots else s.slots other := by
  unfold write Store.slots
  rw [Array.getD_eq_getD_getElem?, Array.getElem?_setIfInBounds, Array.getD_eq_getD_getElem?]
  by_cases heq : address = other
  · subst heq
    by_cases hlt : address < s.cells.size
    · simp [hlt]
    · simp [hlt]
  · have hne : other ≠ address := Ne.symm heq
    simp [heq, hne]

/-- A cell that is made has its slots, and the others have theirs. -/
theorem slots_allocate : (s.allocate slots).2.slots other =
    if other = s.cells.size then slots else s.slots other := by
  unfold allocate Store.slots
  simp only [Array.getD_eq_getD_getElem?, Array.getElem?_push]
  split <;> rfl

/-- Whether an operand is a value or the array in a cell that has been made. -/
def Made (s : Store) : Operand → Prop
  | .value _ => True
  | .cell address => address < s.cells.size

/-- What is kept later makes no difference to an operand. -/
theorem reveal_keep_of_made {operand : Operand} (h : s.Made operand) (v : Value) :
    (s.keep v).2.reveal operand = s.reveal operand := by
  cases v with
  | scalar _ | bare => rfl
  | array slots =>
    cases operand with
    | value _ => rfl
    | cell address =>
      show Value.array ((s.allocate slots).2.slots address) = _
      rw [slots_allocate, if_neg (Nat.ne_of_lt h)]
      rfl

/-- To keep a value takes no cell away. -/
theorem size_keep (s : Store) (v : Value) : s.cells.size ≤ (s.keep v).2.cells.size := by
  cases v with
  | scalar _ | bare => exact Nat.le_refl _
  | array slots =>
    show _ ≤ (s.cells.push slots).size
    rw [Array.size_push]
    omega

/-- What has been kept has been made. -/
theorem made_keep (s : Store) (v : Value) : (s.keep v).2.Made (s.keep v).1 := by
  cases v with
  | scalar _ | bare => trivial
  | array slots =>
    show s.cells.size < (s.cells.push slots).size
    rw [Array.size_push]
    omega

/-- What has been made stays so when something else is kept. -/
theorem Made.keep {operand : Operand} (h : s.Made operand) (v : Value) :
    (s.keep v).2.Made operand := by
  cases operand with
  | value _ => trivial
  | cell address => exact Nat.lt_of_lt_of_le h (s.size_keep v)

end Store

namespace Environment

variable {env : Environment} {id i : Nat}

/-- The scopes that a new one inside another lies in. -/
def around (env : Environment) : Option Nat → List Nat
  | none => []
  | some id => env.path id

/-- Around a new scope are the scopes that its parent tells. -/
theorem outer_entering {parent : Option Nat} {name : String} {vars : Variables} :
    ((env.enter parent name vars).2.scope env.scopes.size).outer = env.around parent := by
  cases parent <;> simp [enter, scope, around, path, Array.getD_eq_getD_getElem?]

/-- Outside of the environment scopes are empty. -/
theorem scope_of_le (h : env.scopes.size ≤ id) : env.scope id = Scope.empty := by
  simp [scope, Array.getD_eq_getD_getElem?, h]

end Environment

namespace Machine

/-- Whether a variable of a scope holds the array in a cell. -/
def Holds (m : Machine) (scope address : Nat) : Prop :=
  (m.environment.scope scope).vars.Holds address

/-- Whether a scope is on record as that of a module. -/
def Records (m : Machine) (scope : Nat) : Prop := ∃ name, (name, scope) ∈ m.modules

/-- Whether a cell has been made, and no variable holds its array. -/
def Free (m : Machine) (address : Nat) : Prop :=
  address < m.store.cells.size ∧ ∀ scope, ¬ m.Holds scope address

/-- Arrays belong to variables of one scope each, and modules lie in no scope. -/
structure Separate (m : Machine) : Prop where
  made : ∀ scope address, m.Holds scope address → address < m.store.cells.size
  owned : ∀ scope scope' address, m.Holds scope address → m.Holds scope' address →
    scope = scope'
  recorded : ∀ scope, m.Records scope → scope < m.environment.scopes.size ∧
    (m.environment.scope scope).outer = []

variable {m : Machine}

/-- A module that is found has its scope on record. -/
theorem records_of_lookup {name : String} {scope : Nat}
    (h : m.modules.lookup name = some scope) : m.Records scope := by
  obtain ⟨before, behind, heq, -⟩ := List.lookup_eq_some_iff.mp h
  exact ⟨name, by rw [heq]; simp⟩

/-- A scope on record was so before, or is the one that was recorded. -/
theorem records_recordModule {name : String} {scope s : Nat}
    (h : (m.recordModule name scope).Records s) : s = scope ∨ m.Records s := by
  obtain ⟨name', hmem⟩ := h
  unfold recordModule at hmem
  simp only at hmem
  split at hmem
  · obtain ⟨entry, hentry, heq⟩ := List.mem_map.mp hmem
    split at heq
    · cases heq
      exact .inl rfl
    · subst heq
      exact .inr ⟨name', hentry⟩
  · obtain hold | hnew := List.mem_append.mp hmem
    · exact .inr ⟨name', hold⟩
    · cases List.mem_singleton.mp hnew
      exact .inl rfl

/-- An array that nobody holds is free still when something is kept. -/
theorem Free.keep {address : Nat} (h : m.Free address) (v : Value) :
    Free { m with store := (m.store.keep v).2 } address :=
  ⟨Nat.lt_of_lt_of_le h.1 (m.store.size_keep v), h.2⟩

namespace Separate

/-- No variable holds the array in a new cell. -/
theorem free (h : m.Separate) {v : Value} {address : Nat}
    (haddress : (m.store.keep v).1 = .cell address) :
    Free { m with store := (m.store.keep v).2 } address := by
  have hmade := m.store.made_keep v
  rw [haddress] at hmade
  refine ⟨hmade, fun scope hholds => ?_⟩
  cases v with
  | scalar _ | bare => cases haddress
  | array slots =>
    cases haddress
    exact Nat.lt_irrefl _ (h.made scope _ hholds)

/-- To keep a value leaves the arrays with their variables. -/
theorem keep (h : m.Separate) (v : Value) :
    Separate { m with store := (m.store.keep v).2 } where
  made scope address hholds :=
    Nat.lt_of_lt_of_le (h.made scope address hholds) (m.store.size_keep v)
  owned := h.owned
  recorded := h.recorded

/-- To write into a cell makes nobody hold anything. -/
theorem write (h : m.Separate) (address : Nat) (slots : List (Option Value)) :
    Separate { m with store := m.store.write address slots } where
  made scope other hholds := by
    show other < (m.store.cells.setIfInBounds address slots).size
    rw [Array.size_setIfInBounds]
    exact h.made scope other hholds
  owned := h.owned
  recorded := h.recorded

/-- A state in which every variable holds what it held before, or an array that no
variable has held. -/
theorem hold {m' : Machine} (h : m.Separate) (scope : Nat)
    (hcells : m.store.cells.size ≤ m'.store.cells.size)
    (hholds : ∀ s address, m'.Holds s address →
      m.Holds s address ∨ s = scope ∧ m.Free address)
    (hrecorded : ∀ s, m'.Records s → s < m'.environment.scopes.size ∧
      (m'.environment.scope s).outer = []) : m'.Separate where
  made s address hs := by
    obtain hs | ⟨-, hfree⟩ := hholds s address hs
    · exact Nat.lt_of_lt_of_le (h.made s address hs) hcells
    · exact Nat.lt_of_lt_of_le hfree.1 hcells
  owned s s' address hs hs' := by
    obtain hs | ⟨rfl, hfree⟩ := hholds s address hs
    · obtain hs' | ⟨rfl, hfree⟩ := hholds s' address hs'
      · exact h.owned s s' address hs hs'
      · exact absurd hs (hfree.2 s)
    · obtain hs' | ⟨rfl, -⟩ := hholds s' address hs'
      · exact absurd hs' (hfree.2 s')
      · rfl
  recorded := hrecorded

/-- Variables that are bound to what they held, or to what nobody holds, keep arrays
apart. -/
theorem modify (h : m.Separate) (id : Nat) (change : Variables → Variables)
    (hchange : ∀ address, (change (m.environment.scope id).vars).Holds address →
      m.Holds id address ∨ m.Free address) :
    Separate { m with environment := m.environment.modifyVariables id change } := by
  refine h.hold id (Nat.le_refl _) (fun s address hs => ?_) fun s hs => ?_
  · unfold Holds at hs
    rw [Environment.scope_modify] at hs
    split at hs
    · next heq =>
      obtain ⟨rfl, -⟩ := heq
      exact (hchange address hs).imp_right fun hfree => ⟨rfl, hfree⟩
    · exact .inl hs
  · obtain ⟨hlt, houter⟩ := h.recorded s hs
    refine ⟨?_, ?_⟩
    · rwa [Environment.size_modifyVariables]
    · rwa [Environment.outer_modify]

/-- So do the variables of a new scope, if they hold what nobody held. -/
theorem enter (h : m.Separate) (parent : Option Nat) (name : String) {vars : Variables}
    (hvars : ∀ address, vars.Holds address → m.Free address) :
    (entered m parent name vars).Separate := by
  refine h.hold m.environment.scopes.size (Nat.le_refl _) (fun s address hs => ?_)
    fun s hs => ?_
  · unfold Holds at hs
    rw [environment_entered] at hs
    by_cases heq : s = m.environment.scopes.size
    · subst heq
      rw [Environment.scope_enter.1] at hs
      exact .inr ⟨rfl, hvars address hs⟩
    · rw [Environment.scope_enter_ne heq] at hs
      exact .inl hs
  · obtain ⟨hlt, houter⟩ := h.recorded s hs
    rw [environment_entered, Environment.size_enter,
      Environment.scope_enter_ne (Nat.ne_of_lt hlt)]
    exact ⟨by omega, houter⟩

/-- To record a module makes nobody hold anything. -/
theorem record (h : m.Separate) (name : String) {scope : Nat}
    (hlt : scope < m.environment.scopes.size)
    (houter : (m.environment.scope scope).outer = []) :
    (m.recordModule name scope).Separate where
  made := h.made
  owned := h.owned
  recorded s hs := by
    obtain rfl | hold := records_recordModule hs
    · exact ⟨hlt, houter⟩
    · exact h.recorded s hold

/-- Closing a scope makes nobody hold anything. -/
theorem pop (h : m.Separate) : m.popScope.Separate := by
  unfold popScope
  split
  · exact h
  · next scope frames _ =>
    have hcleared := h.modify scope Table.clear fun address hholds =>
      absurd hholds Variables.not_holds_nil
    exact ⟨hcleared.made, hcleared.owned, hcleared.recorded⟩

end Separate

end Machine

/-! ## What two runs have in common -/

/-- Two states from which a computation goes on. -/
structure Fork where
  left : Machine
  right : Machine

namespace Fork

/-- Whether the runs may look into a scope: it is on record as that of a module, or it
has been opened since. -/
def Sees (k : Fork) (scope : Nat) : Prop :=
  k.left.Records scope ∨ k.left.environment.scopes.size ≤ scope

/-- The cells that correspond: those with the arrays of modules, and those made since,
in order. -/
inductive Cells (k : Fork) : Nat → Nat → Prop where
  | old {scope address} (record : k.left.Records scope)
      (held : k.left.Holds scope address)
      (made : address < k.left.store.cells.size)
      (made' : address < k.right.store.cells.size) : Cells k address address
  | new (n : Nat) : Cells k (k.left.store.cells.size + n) (k.right.store.cells.size + n)

/-- Operands that are the same value, or arrays in cells that correspond. -/
inductive Operands (k : Fork) : Operand → Operand → Prop where
  | value (v) : Operands k (.value v) (.value v)
  | cell {a b} (cells : k.Cells a b) : Operands k (.cell a) (.cell b)

/-- Bindings to the same expression, or to operands that correspond. -/
inductive Bindings (k : Fork) : Option Binding → Option Binding → Prop where
  | none : Bindings k none none
  | deferred (e) : Bindings k (some (.deferred e)) (some (.deferred e))
  | held {a b} (operands : k.Operands a b) :
      Bindings k (some (.held a)) (some (.held b))

/-- Variables that correspond. -/
structure Vars (k : Fork) (v v' : Variable) : Prop where
  type : v'.type = v.type
  binding : k.Bindings v.binding v'.binding

/-- Tables of the same names, in the same order. -/
structure Tables (k : Fork) (t t' : Variables) : Prop where
  kind : t'.kind = t.kind
  entries : List.Forall₂ (fun e e' => e'.1 = e.1 ∧ k.Vars e.2 e'.2) t.entries t'.entries

/-- Scopes that correspond; those around them are the same. -/
structure Scopes (k : Fork) (s s' : Scope) : Prop where
  name : s'.name = s.name
  outer : s'.outer = s.outer
  seen : ∀ id ∈ s.outer, k.Sees id
  vars : k.Tables s.vars s'.vars

/-- Events that correspond. -/
inductive Events (k : Fork) : Event → Event → Prop where
  | written {a b} (operands : k.Operands a b) (text) :
      Events k (.written a text) (.written b text)
  | prompted (text) : Events k (.prompted text) (.prompted text)
  | traced (message) : Events k (.traced message) (.traced message)
  | noticed (message) : Events k (.noticed message) (.noticed message)

/-- Environments in which the scopes that the runs see correspond; in the first, all
others are as they were. -/
structure Environments (k : Fork) (env env' : Environment) : Prop where
  size : env'.scopes.size = env.scopes.size
  more : k.left.environment.scopes.size ≤ env.scopes.size
  scopes : ∀ id, k.Sees id → k.Scopes (env.scope id) (env'.scope id)
  hidden : ∀ id, ¬ k.Sees id → env.scope id = k.left.environment.scope id

/-- Stores with the same arrays in cells that correspond; in the first, all others are
as they were. -/
structure Stores (k : Fork) (s s' : Store) : Prop where
  size : ∃ n, s.cells.size = k.left.store.cells.size + n ∧
    s'.cells.size = k.right.store.cells.size + n
  slots : ∀ a b, k.Cells a b → s'.slots b = s.slots a
  hidden : ∀ a < k.left.store.cells.size, (∀ b, ¬ k.Cells a b) →
    s.slots a = k.left.store.slots a

variable {k : Fork}

/-! ### Operands and tables -/

/-- Cells that correspond to the same cell are the same. -/
theorem Cells.eq_iff {a b a' b' : Nat} (h : k.Cells a b) (h' : k.Cells a' b') :
    a = a' ↔ b = b' := by
  cases h <;> cases h' <;> omega

theorem Bindings.refl {binding : Option Binding}
    (h : ∀ address, binding = some (.held (.cell address)) → k.Cells address address) :
    k.Bindings binding binding := by
  cases binding with
  | none => exact .none
  | some binding =>
    cases binding with
    | deferred e => exact .deferred e
    | held operand =>
      cases operand with
      | value v => exact .held (.value v)
      | cell address => exact .held (.cell (h address rfl))

/-- A table corresponds to itself if the cells of its arrays do. -/
theorem Tables.refl {t : Variables}
    (h : ∀ address, t.Holds address → k.Cells address address) : k.Tables t t := by
  refine ⟨rfl, List.forall₂_same.mpr fun entry hentry => ⟨rfl, rfl, ?_⟩⟩
  exact .refl fun address hbinding => h address ⟨entry.1, entry.2, hentry, hbinding⟩

theorem tables_empty : k.Tables Variables.empty Variables.empty := ⟨rfl, .nil⟩

namespace Tables

variable {t t' : Variables} {name : String} {operand operand' : Operand}

/-- Variables found under a name correspond. -/
theorem find? (h : k.Tables t t') (name : String) :
    Option.Rel k.Vars (t.find? name) (t'.find? name) := by
  unfold Table.find?
  obtain ⟨-, hentries⟩ := h
  generalize t.entries = entries at hentries
  generalize t'.entries = entries' at hentries
  induction hentries with
  | nil => exact .none
  | cons hentry _ ih =>
    obtain ⟨hname, hvars⟩ := hentry
    rw [List.lookup_cons, List.lookup_cons, hname]
    split
    · exact .some hvars
    · exact ih

/-- Tables that correspond have the same names. -/
theorem has (h : k.Tables t t') (name : String) : t'.has name = t.has name := by
  unfold Table.has
  have hfind := h.find? name
  generalize Table.find? t name = found at hfind
  generalize Table.find? t' name = found' at hfind
  cases hfind <;> rfl

/-- One variable more in both tables. -/
theorem append (h : k.Tables t t') {v v' : Variable} (hvars : k.Vars v v') :
    k.Tables { t with entries := t.entries ++ [(name, v)] }
      { t' with entries := t'.entries ++ [(name, v')] } :=
  ⟨h.kind, List.rel_append h.entries (.cons ⟨rfl, hvars⟩ .nil)⟩

/-- The same name bound in both tables. -/
theorem rebind (h : k.Tables t t') (hoperands : k.Operands operand operand') :
    k.Tables (t.rebind name (.held operand)) (t'.rebind name (.held operand')) := by
  refine ⟨h.kind, ?_⟩
  have hentry : ∀ e e' : String × Variable, e'.1 = e.1 ∧ k.Vars e.2 e'.2 →
      (if e'.1 = name then (e'.1, { e'.2 with binding := some (.held operand') })
        else e').1 =
        (if e.1 = name then (e.1, { e.2 with binding := some (.held operand) }) else e).1 ∧
      k.Vars
        (if e.1 = name then (e.1, { e.2 with binding := some (.held operand) }) else e).2
        (if e'.1 = name then (e'.1, { e'.2 with binding := some (.held operand') })
          else e').2 := by
    rintro e e' ⟨hname, hvars⟩
    rw [hname]
    split
    · exact ⟨rfl, hvars.type, .held hoperands⟩
    · exact ⟨hname, hvars⟩
  exact List.rel_map (fun e e' h => hentry e e' h) h.entries

/-- The same variable put into both tables. -/
theorem put (h : k.Tables t t') (type : DeclaredType)
    (hoperands : k.Operands operand operand') :
    k.Tables (t.put type name operand) (t'.put type name operand') := by
  unfold Variables.put
  rw [h.has name]
  split
  · exact h.rebind hoperands
  · exact h.append ⟨rfl, .held hoperands⟩

/-- Both tables emptied. -/
theorem clear (h : k.Tables t t') : k.Tables t.clear t'.clear := ⟨h.kind, .nil⟩

end Tables

/-! ### Stores -/

namespace Stores

variable {s s' : Store} {operand operand' : Operand} {a b : Nat}

/-- Operands that correspond show the same value. -/
theorem reveal (h : k.Stores s s') (hoperands : k.Operands operand operand') :
    s'.reveal operand' = s.reveal operand := by
  cases hoperands with
  | value v => rfl
  | cell hcells => exact congrArg Value.array (h.slots _ _ hcells)

/-- A cell is made in one run if it is in the other. -/
theorem lt_iff (h : k.Stores s s') (hcells : k.Cells a b) :
    b < s'.cells.size ↔ a < s.cells.size := by
  obtain ⟨n, hsize, hsize'⟩ := h.size
  cases hcells <;> omega

/-- The same slots written into cells that correspond. -/
theorem write (h : k.Stores s s') (hcells : k.Cells a b) (slots : List (Option Value)) :
    k.Stores (s.write a slots) (s'.write b slots) := by
  have hlt := h.lt_iff hcells
  refine ⟨?_, fun a' b' hcells' => ?_, fun a' ha' hhidden => ?_⟩
  · simpa only [Store.write, Array.size_setIfInBounds] using h.size
  · rw [Store.slots_write, Store.slots_write, h.slots a' b' hcells']
    have heq := hcells'.eq_iff hcells
    simp only [heq, hlt]
  · -- a cell that corresponds to another one is not hidden
    have hne : a' ≠ a := fun heq => hhidden b (heq ▸ hcells)
    rw [Store.slots_write, if_neg fun h => hne h.1]
    exact h.hidden a' ha' hhidden

/-- The same value kept in both stores. -/
theorem keep (h : k.Stores s s') (v : Value) :
    k.Stores (s.keep v).2 (s'.keep v).2 ∧ k.Operands (s.keep v).1 (s'.keep v).1 := by
  cases v with
  | scalar _ | bare => exact ⟨h, .value _⟩
  | array slots =>
    obtain ⟨n, hsize, hsize'⟩ := h.size
    have hnew : k.Cells s.cells.size s'.cells.size := by
      rw [hsize, hsize']
      exact .new n
    refine ⟨⟨⟨n + 1, ?_, ?_⟩, fun a b hcells => ?_, fun a ha hhidden => ?_⟩, .cell hnew⟩
    · show (s.cells.push slots).size = _
      rw [Array.size_push]
      omega
    · show (s'.cells.push slots).size = _
      rw [Array.size_push]
      omega
    · show (s'.allocate slots).2.slots b = (s.allocate slots).2.slots a
      have heq := hcells.eq_iff hnew
      rw [Store.slots_allocate, Store.slots_allocate, h.slots a b hcells]
      simp only [heq]
    · show (s.allocate slots).2.slots a = _
      rw [Store.slots_allocate, if_neg (by omega)]
      exact h.hidden a ha hhidden

end Stores

/-! ### Environments -/

namespace Environments

variable {env env' : Environment} {id : Nat}

/-- The same change in a scope that both runs see. -/
theorem modify (h : k.Environments env env') (hid : k.Sees id)
    {change change' : Variables → Variables}
    (hchange : k.Tables (env.scope id).vars (env'.scope id).vars →
      k.Tables (change (env.scope id).vars) (change' (env'.scope id).vars)) :
    k.Environments (env.modifyVariables id change) (env'.modifyVariables id change') := by
  refine ⟨?_, ?_, fun i hi => ?_, fun i hi => ?_⟩
  · rw [Environment.size_modifyVariables, Environment.size_modifyVariables, h.size]
  · rw [Environment.size_modifyVariables]
    exact h.more
  · rw [Environment.scope_modify, Environment.scope_modify, h.size]
    split
    · obtain ⟨hname, houter, hseen, hvars⟩ := h.scopes id hid
      exact ⟨hname, houter, hseen, hchange hvars⟩
    · exact h.scopes i hi
  · have hne : i ≠ id := fun heq => hi (heq ▸ hid)
    rw [Environment.scope_modify, if_neg fun h => hne h.1]
    exact h.hidden i hi

/-- The scopes around one that is seen are the same. -/
theorem outer_eq (h : k.Environments env env') {parent : Option Nat}
    (hparent : ∀ id, parent = some id → k.Sees id) :
    env'.around parent = env.around parent := by
  cases parent with
  | none => rfl
  | some id => exact congrArg (id :: ·) (h.scopes id (hparent id rfl)).outer

/-- They are seen, too. -/
theorem outer_seen (h : k.Environments env env') {parent : Option Nat}
    (hparent : ∀ id, parent = some id → k.Sees id) : ∀ id ∈ env.around parent, k.Sees id := by
  cases parent with
  | none => exact fun id hid => nomatch hid
  | some id =>
    exact List.forall_mem_cons.mpr ⟨hparent id rfl, (h.scopes id (hparent id rfl)).seen⟩

/-- A new scope is seen. -/
theorem sees_new (h : k.Environments env env') : k.Sees env.scopes.size := .inr h.more

/-- A new scope in both environments. -/
theorem enter (h : k.Environments env env') {parent : Option Nat}
    (hparent : ∀ id, parent = some id → k.Sees id) (name : String) {vars vars' : Variables}
    (hvars : k.Tables vars vars') :
    k.Environments (env.enter parent name vars).2 (env'.enter parent name vars').2 := by
  refine ⟨?_, ?_, fun i hi => ?_, fun i hi => ?_⟩
  · rw [Environment.size_enter, Environment.size_enter, h.size]
  · rw [Environment.size_enter]
    exact Nat.le_succ_of_le h.more
  · by_cases heq : i = env.scopes.size
    · subst heq
      obtain ⟨hnew, hname⟩ := @Environment.scope_enter env parent name vars
      obtain ⟨hnew', hname'⟩ := @Environment.scope_enter env' parent name vars'
      have houter' := @Environment.outer_entering env' parent name vars'
      rw [h.size] at hnew' hname' houter'
      refine ⟨hname'.trans hname.symm, ?_, ?_, by rwa [hnew, hnew']⟩
      · rw [houter', Environment.outer_entering]
        exact h.outer_eq hparent
      · rw [Environment.outer_entering]
        exact h.outer_seen hparent
    · have heq' : i ≠ env'.scopes.size := by rwa [h.size]
      rw [Environment.scope_enter_ne heq, Environment.scope_enter_ne heq']
      exact h.scopes i hi
  · have hne : i ≠ env.scopes.size := fun heq => hi (heq ▸ h.sees_new)
    rw [Environment.scope_enter_ne hne]
    exact h.hidden i hi

/-- A name is found in the same scope. -/
theorem owner? (h : k.Environments env env') (hid : k.Sees id) (name : String) :
    env'.owner? id name = env.owner? id name := by
  have hscope := h.scopes id hid
  unfold Environment.owner? Environment.path
  rw [hscope.outer]
  have hseen : ∀ i ∈ id :: (env.scope id).outer, k.Sees i :=
    List.forall_mem_cons.mpr ⟨hid, hscope.seen⟩
  generalize id :: (env.scope id).outer = path at hseen
  induction path with
  | nil => rfl
  | cons i path ih =>
    obtain ⟨hi, hpath⟩ := List.forall_mem_cons.mp hseen
    rw [List.find?_cons, List.find?_cons, (h.scopes i hi).vars.has name, ih hpath]

/-- The scope in which a name is found is seen. -/
theorem sees_owner? (h : k.Environments env env') (hid : k.Sees id) {name : String}
    {owner : Nat} (howner : env.owner? id name = some owner) : k.Sees owner := by
  have hmem : owner ∈ id :: (env.scope id).outer := List.mem_of_find?_eq_some howner
  obtain rfl | houter := List.mem_cons.mp hmem
  · exact hid
  · exact (h.scopes id hid).seen owner houter

/-- The variables found under a name correspond. -/
theorem find? (h : k.Environments env env') (hid : k.Sees id) (name : String) :
    Option.Rel k.Vars (env.find? id name) (env'.find? id name) := by
  unfold Environment.find?
  rw [h.owner? hid name]
  cases howner : env.owner? id name with
  | none => exact .none
  | some owner => exact (h.scopes owner (h.sees_owner? hid howner)).vars.find? name

end Environments

end Fork

end Pseudocode
