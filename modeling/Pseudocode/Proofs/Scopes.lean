import Mathlib.Data.Finmap
import Pseudocode.Proofs.Exec

/-!
# Scopes that lie in each other

A scope, the scope around it, the one around that and so on are a chain, and a chain
is a stack of finite maps from names to variables (`Environment.stack`).

What may be asked of the scopes of a chain, and what the answer has to be, is said on
the stack alone (`Answers`): a name means the variable of the nearest map that has it,
counted outwards from the scope that is asked; a declaration goes into the map that is
asked, a new binding into the nearest one that has the name, and to clear a scope empties
its map.  `scopes_stacked` is that the scopes answer any requests in a row in just this way,
and that this is the only way that `Answers` allows (`AnswersAll.unique`).

Two facts carry the proof.  The scopes from a level on are those that the search goes
through (`Chain.path_eq`), and no scope occurs twice in a chain, so that a change of
one scope's table changes one map (`Chain.stack_modify`).  Each kind of request then has one
lemma (`serves_lookup`, `serves_declare`, `serves_rebind`, `serves_clear`), and requests in
a row are an induction (`serves_all`).

Tables are lists of entries, and a name that is declared twice has its last entry behind the
first.  Finite maps have no order, and the two agree because a table refuses a name that it
has (`toMap_declare`).
-/

namespace Pseudocode

/-! ## Finite maps -/

/-- A finite map from names to variables. -/
abbrev VariableMap := Finmap fun _ : String => Variable

namespace Variables

/-- What the names of a table stand for. -/
def toMap (t : Variables) : VariableMap :=
  (t.entries.map fun entry => ⟨entry.1, entry.2⟩).toFinmap

/-- What a name stands for is found in the map. -/
theorem lookup_toMap (t : Variables) (name : String) :
    t.toMap.lookup name = t.find? name := by
  unfold toMap Table.find?
  rw [Finmap.dlookup_list_toFinmap]
  induction t.entries with
  | nil => rfl
  | cons entry entries ih =>
    obtain ⟨key, v⟩ := entry
    rw [List.map_cons, List.lookup_cons]
    by_cases hkey : name = key
    · subst hkey
      rw [List.dlookup_cons_eq, beq_self_eq_true]
    · rw [List.dlookup_cons_ne _ _ hkey, ih, beq_eq_false_iff_ne.mpr hkey]

/-- To declare a name that is new is to insert it into the map. -/
theorem toMap_declare {t t' : Variables} {name : String} {v : Variable}
    (h : t.declare name v = .ok t') : t'.toMap = t.toMap.insert name v := by
  refine Finmap.ext_lookup fun other => ?_
  by_cases hother : other = name
  · subst hother
    rw [Finmap.lookup_insert, lookup_toMap, Table.find?_declare h]
  · rw [Finmap.lookup_insert_of_ne _ hother, lookup_toMap, lookup_toMap]
    obtain ⟨-, rfl⟩ := Table.declare_ok h
    unfold Table.find?
    simp [List.lookup_append, List.lookup_cons, beq_eq_false_iff_ne.mpr hother]

/-- To bind a name changes the binding of that name, and no type. -/
theorem find?_rebind (t : Variables) (name other : String) (binding : Binding) :
    (t.rebind name binding).find? other =
      (t.find? other).map fun v =>
        if other = name then { v with binding := some binding } else v := by
  unfold rebind Table.modify Table.find?
  dsimp only
  induction t.entries with
  | nil => rfl
  | cons entry entries ih =>
    obtain ⟨key, v⟩ := entry
    rw [List.map_cons]
    by_cases hname : key = name
    · rw [if_pos hname, List.lookup_cons, List.lookup_cons, ih]
      by_cases hkey : other = key
      · simp [hkey, hname]
      · rw [beq_eq_false_iff_ne.mpr hkey]
    · rw [if_neg hname, List.lookup_cons, List.lookup_cons, ih]
      by_cases hkey : other = key
      · simp [hkey, hname]
      · rw [beq_eq_false_iff_ne.mpr hkey]

/-- To bind a name that is there is to insert the variable with its new binding. -/
theorem toMap_rebind {t : Variables} {name : String} {v : Variable}
    (h : t.find? name = some v) (binding : Binding) :
    (t.rebind name binding).toMap =
      t.toMap.insert name { v with binding := some binding } := by
  refine Finmap.ext_lookup fun other => ?_
  rw [lookup_toMap, find?_rebind]
  by_cases hother : other = name
  · subst hother
    rw [Finmap.lookup_insert, h, Option.map_some, if_pos rfl]
  · rw [Finmap.lookup_insert_of_ne _ hother, lookup_toMap]
    cases t.find? other with
    | none => rfl
    | some v => rw [Option.map_some, if_neg hother]

end Variables

/-! ## Stacks of maps -/

/-- A stack of finite maps, the innermost first. -/
abbrev ScopeStack := List VariableMap

namespace ScopeStack

variable {s : ScopeStack} {level owner : Nat} {name : String} {v : Variable}

/-- What the map of a level has for a name. -/
def find? (s : ScopeStack) (level : Nat) (name : String) : Option Variable :=
  s[level]?.bind fun map => map.lookup name

/-- From a level on outwards, the nearest map that has a name, and the variable that
it has for it. -/
structure Nearest (s : ScopeStack) (level : Nat) (name : String) (owner : Nat)
    (v : Variable) : Prop where
  outwards : level ≤ owner
  found : s.find? owner name = some v
  hidden : ∀ inner, level ≤ inner → inner < owner → s.find? inner name = none

/-- No map from a level on has a name. -/
def Lacks (s : ScopeStack) (level : Nat) (name : String) : Prop :=
  ∀ outer, level ≤ outer → s.find? outer name = none

/-- The stack with a name standing for a variable in the map of one level. -/
def put (s : ScopeStack) (level : Nat) (name : String) (v : Variable) : ScopeStack :=
  s.modify level fun map => map.insert name v

/-- The stack with the map of one level empty. -/
def clear (s : ScopeStack) (level : Nat) : ScopeStack :=
  s.set level ∅

/-- One map is the nearest. -/
theorem Nearest.unique {owner' : Nat} {v' : Variable} (h : s.Nearest level name owner v)
    (h' : s.Nearest level name owner' v') : owner = owner' ∧ v = v' := by
  have hle : ∀ {i j : Nat} {u u' : Variable}, s.Nearest level name i u →
      s.Nearest level name j u' → ¬ i < j := by
    intro i j u u' hi hj hlt
    cases (hj.hidden i hi.outwards hlt).symm.trans hi.found
  have howner : owner = owner' :=
    Nat.le_antisymm (Nat.le_of_not_lt (hle h' h)) (Nat.le_of_not_lt (hle h h'))
  subst howner
  exact ⟨rfl, Option.some.inj (h.found.symm.trans h'.found)⟩

/-- Where one is nearest the name is not missing. -/
theorem Nearest.not_lacks (h : s.Nearest level name owner v) : ¬ s.Lacks level name :=
  fun hlacks => by cases (hlacks owner h.outwards).symm.trans h.found

/-- What is behind an empty map shows. -/
theorem nearest_clear :
    (s.clear level).Nearest level name owner v ↔ s.Nearest (level + 1) name owner v := by
  have hcleared : (s.clear level).find? level name = none := by
    unfold find? clear
    by_cases hlevel : level < s.length
    · rw [List.getElem?_set_self hlevel]
      rfl
    · rw [List.getElem?_eq_none (by simpa using hlevel)]
      rfl
  have hother : ∀ {i}, i ≠ level → (s.clear level).find? i name = s.find? i name := by
    intro i hi
    unfold find? clear
    rw [List.getElem?_set_ne hi.symm]
  constructor
  · intro h
    have hne : owner ≠ level := by
      rintro rfl
      cases hcleared.symm.trans h.found
    have hlt : level + 1 ≤ owner := Nat.lt_of_le_of_ne h.outwards hne.symm
    refine ⟨hlt, hother hne ▸ h.found, fun inner hlevel hinner => ?_⟩
    rw [← hother (Nat.ne_of_gt hlevel)]
    exact h.hidden inner (Nat.le_of_lt hlevel) hinner
  · intro h
    have hlt : level < owner := h.outwards
    refine ⟨Nat.le_of_lt hlt, hother (Nat.ne_of_gt hlt) ▸ h.found, ?_⟩
    intro inner hlevel hinner
    obtain rfl | hlevel := Nat.eq_or_lt_of_le hlevel
    · exact hcleared
    · rw [hother (Nat.ne_of_gt hlevel)]
      exact h.hidden inner hlevel hinner

end ScopeStack

/-! ## Requests -/

/-- What a scope can be asked to do. -/
inductive ScopeTask where
  | lookup (name : String)
  | declare (name : String) (v : Variable)
  | rebind (name : String) (binding : Binding)
  | clear

/-- A task for one of the scopes of a chain; the innermost is at level 0. -/
structure ScopeRequest where
  level : Nat
  task : ScopeTask

/-- What a task gives: the variable that was looked up, nothing, or a fault. -/
abbrev ScopeReply := Except Fault (Option Variable)

/-- The reply that a stack of maps owes to a task for one of its levels, and the stack
afterwards. -/
inductive ScopeStack.Answers (s : ScopeStack) (level : Nat) :
    ScopeTask → ScopeReply → ScopeStack → Prop
  | found {name owner v} : s.Nearest level name owner v →
      Answers s level (.lookup name) (.ok (some v)) s
  | unknown {name} : s.Lacks level name →
      Answers s level (.lookup name) (.error (.undeclared .variableName name)) s
  | declared {name v} : s.find? level name = none →
      Answers s level (.declare name v) (.ok none) (s.put level name v)
  | redeclared {name v v'} : s.find? level name = some v' →
      Answers s level (.declare name v) (.error (.redeclared .variableName name)) s
  | rebound {name owner v binding} : s.Nearest level name owner v →
      Answers s level (.rebind name binding) (.ok none)
        (s.put owner name { v with binding := some binding })
  | unbound {name binding} : s.Lacks level name →
      Answers s level (.rebind name binding) (.error (.undeclared .variableName name)) s
  | cleared : Answers s level .clear (.ok none) (s.clear level)

/-- The replies that a stack of maps owes to requests in a row. -/
inductive ScopeStack.AnswersAll :
    ScopeStack → List ScopeRequest → List ScopeReply → ScopeStack → Prop
  | nil {s} : AnswersAll s [] [] s
  | cons {s s₁ s₂ level task requests reply replies} : s.Answers level task reply s₁ →
      AnswersAll s₁ requests replies s₂ →
      AnswersAll s (⟨level, task⟩ :: requests) (reply :: replies) s₂

namespace ScopeStack

/-- A stack owes one reply, and becomes one stack. -/
theorem Answers.unique {s s₁ s₂ : ScopeStack} {level : Nat} {task : ScopeTask}
    {reply₁ reply₂ : ScopeReply} (h₁ : s.Answers level task reply₁ s₁)
    (h₂ : s.Answers level task reply₂ s₂) : reply₁ = reply₂ ∧ s₁ = s₂ := by
  cases h₁ with
  | found hnear =>
    cases h₂ with
    | found hnear' =>
      obtain ⟨-, rfl⟩ := hnear.unique hnear'
      exact ⟨rfl, rfl⟩
    | unknown hlacks => exact absurd hlacks hnear.not_lacks
  | unknown hlacks =>
    cases h₂ with
    | found hnear => exact absurd hlacks hnear.not_lacks
    | unknown _ => exact ⟨rfl, rfl⟩
  | declared hnone =>
    cases h₂ with
    | declared _ => exact ⟨rfl, rfl⟩
    | redeclared hsome => cases hnone.symm.trans hsome
  | redeclared hsome =>
    cases h₂ with
    | declared hnone => cases hnone.symm.trans hsome
    | redeclared _ => exact ⟨rfl, rfl⟩
  | rebound hnear =>
    cases h₂ with
    | rebound hnear' =>
      obtain ⟨rfl, rfl⟩ := hnear.unique hnear'
      exact ⟨rfl, rfl⟩
    | unbound hlacks => exact absurd hlacks hnear.not_lacks
  | unbound hlacks =>
    cases h₂ with
    | rebound hnear => exact absurd hlacks hnear.not_lacks
    | unbound _ => exact ⟨rfl, rfl⟩
  | cleared =>
    cases h₂
    exact ⟨rfl, rfl⟩

/-- A stack owes one reply to each request. -/
theorem AnswersAll.unique {s s₁ s₂ : ScopeStack} {requests : List ScopeRequest}
    {replies₁ replies₂ : List ScopeReply} (h₁ : s.AnswersAll requests replies₁ s₁)
    (h₂ : s.AnswersAll requests replies₂ s₂) : replies₁ = replies₂ ∧ s₁ = s₂ := by
  induction h₁ generalizing replies₂ with
  | nil =>
    cases h₂
    exact ⟨rfl, rfl⟩
  | cons hfirst _ ih =>
    cases h₂ with
    | cons hfirst' hrest' =>
      obtain ⟨rfl, rfl⟩ := hfirst.unique hfirst'
      obtain ⟨rfl, rfl⟩ := ih hrest'
      exact ⟨rfl, rfl⟩

end ScopeStack

/-! ## Chains of scopes -/

namespace Environment

variable {env env' : Environment} {ids : List Nat}

/-- Scopes of which each lies directly in the next, the innermost first. -/
structure Chain (env : Environment) (ids : List Nat) : Prop where
  made : ∀ id ∈ ids, id < env.scopes.size
  distinct : ids.Nodup
  outer : ∀ level (h : level < ids.length),
    (env.scope ids[level]).outer = ids.drop (level + 1)
  kind : ∀ id ∈ ids, (env.scope id).vars.kind = .variableName

/-- The maps of a chain of scopes. -/
def stack (env : Environment) (ids : List Nat) : ScopeStack :=
  ids.map fun id => (env.scope id).vars.toMap

/-- The environment after a change that may fail. -/
def settle (env : Environment) : Except Fault Environment → ScopeReply × Environment
  | .ok env' => (.ok none, env')
  | .error fault => (.error fault, env)

/-- The reply of a scope to a task, and the environment afterwards. -/
def answer (env : Environment) (id : Nat) : ScopeTask → ScopeReply × Environment
  | .lookup name => ((env.lookup id name).map some, env)
  | .declare name v => env.settle (env.declare id name v)
  | .rebind name binding => env.settle (env.rebind id name binding)
  | .clear => (.ok none, env.clear id)

/-- The replies of a chain of scopes to requests in a row, and the environment
afterwards. -/
def answers (env : Environment) (ids : List Nat) :
    List ScopeRequest → List ScopeReply × Environment
  | [] => ([], env)
  | request :: requests =>
    let (reply, env) := env.answer (ids.getD request.level 0) request.task
    let (replies, env) := env.answers ids requests
    (reply :: replies, env)

namespace Chain

/-- A name is looked for in the scopes from the one that is asked on. -/
theorem path_eq (h : env.Chain ids) {level : Nat} (hlevel : level < ids.length) :
    env.path ids[level] = ids.drop level := by
  unfold path
  rw [h.outer level hlevel, List.drop_eq_getElem_cons hlevel]

/-- The table of a scope at a level has what the map of that level has. -/
theorem find?_level {level : Nat} (hlevel : level < ids.length) (name : String) :
    (env.scope ids[level]).vars.find? name = (env.stack ids).find? level name := by
  unfold ScopeStack.find? stack
  rw [List.getElem?_map, List.getElem?_eq_getElem hlevel, Option.map_some,
    Option.bind_some, Variables.lookup_toMap]

/-- A table that lacks a name is a map that does. -/
theorem has_eq_false {level : Nat} (hlevel : level < ids.length) {name : String}
    (h : (env.scope ids[level]).vars.has name = false) :
    (env.stack ids).find? level name = none := by
  rw [← find?_level hlevel]
  exact Option.isSome_eq_false_iff.mp h |> Option.isNone_iff_eq_none.mp

/-- The scope that the search ends at is that of the nearest map. -/
theorem nearest (h : env.Chain ids) {level id : Nat} (hlevel : level < ids.length)
    {name : String} (howner : env.owner? ids[level] name = some id) :
    ∃ owner v, ∃ howner : owner < ids.length, ids[owner] = id ∧
      (env.stack ids).Nearest level name owner v := by
  unfold owner? at howner
  rw [h.path_eq hlevel] at howner
  obtain ⟨hhas, i, hi, hid, hinner⟩ := List.find?_eq_some_iff_getElem.mp howner
  have hlt : level + i < ids.length := by
    rw [List.length_drop] at hi
    omega
  rw [List.getElem_drop] at hid
  subst hid
  obtain ⟨v, hv⟩ := Option.isSome_iff_exists.mp hhas
  refine ⟨level + i, v, hlt, rfl, Nat.le_add_right _ _, find?_level hlt name ▸ hv, ?_⟩
  intro inner hle hinner'
  have hnot := hinner (inner - level) (by omega)
  rw [List.getElem_drop] at hnot
  have hinner : level + (inner - level) = inner := by omega
  simp only [hinner, Bool.not_eq_true'] at hnot
  exact has_eq_false (Nat.lt_trans hinner' hlt) hnot

/-- The search ends at no scope if no map has the name. -/
theorem lacks (h : env.Chain ids) {level : Nat} (hlevel : level < ids.length)
    {name : String} (howner : env.owner? ids[level] name = none) :
    (env.stack ids).Lacks level name := by
  unfold owner? at howner
  rw [h.path_eq hlevel] at howner
  intro outer houter
  by_cases hlt : outer < ids.length
  · have hmem : ids[outer] ∈ ids.drop level :=
      List.mem_drop_iff_getElem.mpr ⟨outer - level, by omega, by congr 1; omega⟩
    have hnot := List.find?_eq_none.mp howner _ hmem
    exact has_eq_false hlt (Bool.eq_false_iff.mpr hnot)
  · unfold ScopeStack.find? stack
    rw [List.getElem?_eq_none (by simpa using hlt), Option.bind_none]

/-- A change of one scope's table changes one map. -/
theorem stack_modify (h : env.Chain ids) {level : Nat} (hlevel : level < ids.length)
    (change : Variables → Variables) :
    (env.modifyVariables ids[level] change).stack ids =
      (env.stack ids).set level (change (env.scope ids[level]).vars).toMap := by
  refine List.ext_getElem (by simp [stack]) fun i hi hi' => ?_
  have hlt : i < ids.length := by simpa [stack] using hi
  rw [List.getElem_set]
  simp only [stack, List.getElem_map]
  rw [scope_modify]
  by_cases hlevel' : level = i
  · subst hlevel'
    rw [if_pos ⟨rfl, h.made _ (List.getElem_mem hlevel)⟩, if_pos rfl]
  · have hne : ids[i] ≠ ids[level] := fun heq =>
      hlevel' (h.distinct.getElem_inj_iff.mp heq).symm
    rw [if_neg fun hboth => hne hboth.1, if_neg hlevel']

/-- It keeps the chain. -/
theorem modify (h : env.Chain ids) (id : Nat) {change : Variables → Variables}
    (hkind : ∀ t : Variables, (change t).kind = t.kind) :
    (env.modifyVariables id change).Chain ids := by
  refine ⟨fun i hi => ?_, h.distinct, fun level hlevel => ?_, fun i hi => ?_⟩
  · rw [size_modifyVariables]
    exact h.made i hi
  · rw [outer_modify]
    exact h.outer level hlevel
  · rw [scope_modify]
    split
    · next hid =>
      exact (hkind _).trans (hid.1 ▸ h.kind i hi)
    · exact h.kind i hi

/-- A scope that is entered inside a chain makes it longer. -/
theorem enter (h : env.Chain ids) (name : String) {vars : Variables}
    (hvars : vars.kind = .variableName) :
    (env.enter ids.head? name vars).2.Chain ((env.enter ids.head? name vars).1 :: ids) := by
  have hne : ∀ {i}, i ∈ ids → i ≠ env.scopes.size := fun hi => Nat.ne_of_lt (h.made _ hi)
  have houter : ((env.enter ids.head? name vars).2.scope env.scopes.size).outer = ids := by
    cases hids : ids with
    | nil => simp [Environment.enter, scope, Array.getD_eq_getD_getElem?]
    | cons id rest =>
      have hfirst := h.outer 0 (by simp [hids])
      rw [List.head?_cons, outer_enter]
      simpa [hids] using hfirst
  refine ⟨fun i hi => ?_, ?_, fun level hlevel => ?_, fun i hi => ?_⟩
  · rw [size_enter]
    obtain rfl | hi := List.mem_cons.mp hi
    · exact Nat.lt_succ_self _
    · exact Nat.lt_succ_of_lt (h.made i hi)
  · exact List.nodup_cons.mpr ⟨fun hi => hne hi rfl, h.distinct⟩
  · cases level with
    | zero => exact houter
    | succ level =>
      have hlt : level < ids.length := by simpa using hlevel
      rw [List.getElem_cons_succ, scope_enter_ne (hne (List.getElem_mem hlt)),
        h.outer level hlt, List.drop_succ_cons]
  · obtain rfl | hi := List.mem_cons.mp hi
    · exact (congrArg Table.kind scope_enter.1).trans hvars
    · rw [scope_enter_ne (hne hi)]
      exact h.kind i hi

/-- A change of a table that lets a name stand for a variable. -/
theorem stack_put (h : env.Chain ids) {level : Nat} (hlevel : level < ids.length)
    {change : Variables → Variables} {name : String} {v : Variable}
    (hchange : (change (env.scope ids[level]).vars).toMap =
      (env.scope ids[level]).vars.toMap.insert name v) :
    (env.modifyVariables ids[level] change).stack ids = (env.stack ids).put level name v := by
  rw [h.stack_modify hlevel, hchange]
  unfold ScopeStack.put
  refine List.ext_getElem (by simp) fun i hi hi' => ?_
  rw [List.getElem_set, List.getElem_modify]
  by_cases hlevel' : level = i
  · subst hlevel'
    rw [if_pos rfl, if_pos rfl]
    simp [stack]
  · rw [if_neg hlevel', if_neg hlevel']

end Chain

/-- A reply to a task, and the environment afterwards, are as the stack of maps of the
chain wants them; scopes that are not in the chain are as before. -/
structure Serves (env : Environment) (ids : List Nat) (level : Nat) (task : ScopeTask)
    (reply : ScopeReply) (env' : Environment) : Prop where
  chain : env'.Chain ids
  answers : (env.stack ids).Answers level task reply (env'.stack ids)
  others : ∀ id ∉ ids, env'.scope id = env.scope id

namespace Chain

/-- Scopes outside of the chain are left alone. -/
theorem others {level : Nat} (hlevel : level < ids.length)
    {change : Variables → Variables} {id : Nat} (hid : id ∉ ids) :
    (env.modifyVariables ids[level] change).scope id = env.scope id :=
  scope_modifyVariables_ne change fun heq => hid (heq ▸ List.getElem_mem hlevel)

section

variable {level : Nat} (h : env.Chain ids) (hlevel : level < ids.length)

include h hlevel

/-- A look-up is answered from the nearest map, and changes nothing. -/
theorem serves_lookup (name : String) :
    env.Serves ids level (.lookup name) ((env.lookup ids[level] name).map some) env := by
  refine ⟨h, ?_, fun _ _ => rfl⟩
  unfold Environment.lookup find?
  cases howner : env.owner? ids[level] name with
  | none => exact .unknown (h.lacks hlevel howner)
  | some id =>
    obtain ⟨owner, v, hlt, rfl, hnear⟩ := h.nearest hlevel howner
    rw [Option.bind_some, find?_level hlt, hnear.found]
    exact .found hnear

/-- A declaration goes into the map that is asked, if the name is new there. -/
theorem serves_declare (name : String) (v : Variable) :
    env.Serves ids level (.declare name v) (env.settle (env.declare ids[level] name v)).1
      (env.settle (env.declare ids[level] name v)).2 := by
  have hkind := h.kind _ (List.getElem_mem hlevel)
  unfold Environment.declare
  cases hdeclare : (env.scope ids[level]).vars.declare name v with
  | error fault =>
    unfold Table.declare at hdeclare
    split at hdeclare
    · next hhas =>
      cases hdeclare
      obtain ⟨v', hv'⟩ := Table.has_iff.mp hhas
      rw [hkind]
      exact ⟨h, .redeclared (find?_level hlevel name ▸ hv'), fun _ _ => rfl⟩
    · cases hdeclare
  | ok vars =>
    obtain ⟨hnot, hvars⟩ := Table.declare_ok hdeclare
    -- the change replaces the table, whatever it was
    have hsame : env.modifyVariables ids[level] (fun _ => vars) =
        env.modifyVariables ids[level] fun t =>
          { t with entries := t.entries ++ [(name, v)] } :=
      modifyVariables_congr hvars
    have hchain : (env.modifyVariables ids[level] fun _ => vars).Chain ids :=
      hsame ▸ h.modify _ fun _ => rfl
    refine ⟨hchain, ?_, fun id hid => others hlevel hid⟩
    show (env.stack ids).Answers _ _ _
      ((env.modifyVariables ids[level] fun _ => vars).stack ids)
    rw [h.stack_put hlevel (Variables.toMap_declare hdeclare)]
    exact .declared (has_eq_false hlevel hnot)

/-- A binding goes into the nearest map that has the name. -/
theorem serves_rebind (name : String) (binding : Binding) :
    env.Serves ids level (.rebind name binding)
      (env.settle (env.rebind ids[level] name binding)).1
      (env.settle (env.rebind ids[level] name binding)).2 := by
  unfold Environment.rebind
  cases howner : env.owner? ids[level] name with
  | none => exact ⟨h, .unbound (h.lacks hlevel howner), fun _ _ => rfl⟩
  | some id =>
    obtain ⟨owner, v, hlt, rfl, hnear⟩ := h.nearest hlevel howner
    have hchain : (env.modifyVariables ids[owner] fun t => t.rebind name binding).Chain ids :=
      h.modify _ fun _ => rfl
    have hv : (env.scope ids[owner]).vars.find? name = some v :=
      (find?_level hlt name).trans hnear.found
    refine ⟨hchain, ?_, fun id hid => others hlt hid⟩
    show (env.stack ids).Answers _ _ _
      ((env.modifyVariables ids[owner] fun t => t.rebind name binding).stack ids)
    rw [h.stack_put hlt (Variables.toMap_rebind hv binding)]
    exact .rebound hnear

/-- To clear a scope empties its map. -/
theorem serves_clear :
    env.Serves ids level .clear (.ok none) (env.clear ids[level]) := by
  refine ⟨h.modify _ fun _ => rfl, ?_, fun id hid => others hlevel hid⟩
  unfold Environment.clear
  rw [h.stack_modify hlevel]
  exact .cleared

/-- A scope of a chain answers a task as its stack of maps does. -/
theorem serves (task : ScopeTask) :
    env.Serves ids level task (env.answer ids[level] task).1
      (env.answer ids[level] task).2 := by
  cases task with
  | lookup name => exact h.serves_lookup hlevel name
  | declare name v => exact h.serves_declare hlevel name v
  | rebind name binding => exact h.serves_rebind hlevel name binding
  | clear => exact h.serves_clear hlevel

end

/-- Requests in a row are answered as the stack of maps answers them. -/
theorem serves_all (h : env.Chain ids) {requests : List ScopeRequest}
    (hlevels : ∀ request ∈ requests, request.level < ids.length) :
    (env.answers ids requests).2.Chain ids ∧
      (env.stack ids).AnswersAll requests (env.answers ids requests).1
        ((env.answers ids requests).2.stack ids) ∧
      ∀ id ∉ ids, (env.answers ids requests).2.scope id = env.scope id := by
  induction requests generalizing env with
  | nil => exact ⟨h, .nil, fun _ _ => rfl⟩
  | cons request requests ih =>
    obtain ⟨level, task⟩ := request
    have hlevel : level < ids.length := hlevels _ (List.mem_cons_self ..)
    have hget : ids.getD level 0 = ids[level] := by
      rw [List.getD_eq_getElem?_getD, List.getElem?_eq_getElem hlevel]
      rfl
    have hfirst := h.serves hlevel task
    rw [← hget] at hfirst
    obtain ⟨hchain, hanswers, hothers⟩ :=
      ih hfirst.chain fun request hmem => hlevels request (List.mem_cons_of_mem _ hmem)
    exact ⟨hchain, .cons hfirst.answers hanswers,
      fun id hid => (hothers id hid).trans (hfirst.others id hid)⟩

end Chain

end Environment

/-- A chain of scopes is a stack of finite maps.  It answers any requests in a row as
its stack of maps has to, and in no other way is a stack allowed to; it stays a chain,
and what lies outside is not touched.  Where the map of a scope is emptied the maps
around it show again. -/
theorem scopes_stacked {env : Environment} {ids : List Nat} (hchain : env.Chain ids)
    {requests : List ScopeRequest}
    (hlevels : ∀ request ∈ requests, request.level < ids.length) :
    (env.answers ids requests).2.Chain ids ∧
      (env.stack ids).AnswersAll requests (env.answers ids requests).1
        ((env.answers ids requests).2.stack ids) ∧
      (∀ replies s, (env.stack ids).AnswersAll requests replies s →
        replies = (env.answers ids requests).1 ∧
          s = (env.answers ids requests).2.stack ids) ∧
      (∀ id ∉ ids, (env.answers ids requests).2.scope id = env.scope id) ∧
      ∀ level name owner v,
        (((env.answers ids requests).2.stack ids).clear level).Nearest level name owner v ↔
          ((env.answers ids requests).2.stack ids).Nearest (level + 1) name owner v := by
  obtain ⟨hkept, hanswers, hothers⟩ := hchain.serves_all hlevels
  exact ⟨hkept, hanswers, fun _ _ h => h.unique hanswers, hothers,
    fun _ _ _ _ => ScopeStack.nearest_clear⟩

/-- Three scopes, each inside the one before. -/
def Environment.nested : Environment :=
  let outermost := (({} : Environment).enter none "m" Variables.empty).2
  let middle := (outermost.enter (some 0) "f" Variables.empty).2
  (middle.enter (some 1) "g" Variables.empty).2

/-- An integer variable that is bound to a number. -/
def Variable.holding (n : Int) : Variable :=
  ⟨⟨.integer, none⟩, some (.held (.value (.integer n)))⟩

/-- The innermost `x` hides the outermost one, until its scope is cleared; rebinding
from the middle passes it by, and a name that is nowhere is refused. -/
theorem scopes_stacked_hiding :
    Environment.nested.Chain [2, 1, 0] ∧
      (Environment.nested.stack [2, 1, 0]).AnswersAll
        [⟨2, .declare "x" (.holding 1)⟩, ⟨0, .declare "x" (.holding 2)⟩,
          ⟨0, .declare "x" (.holding 3)⟩, ⟨1, .rebind "x" (.held (.value (.integer 4)))⟩,
          ⟨0, .lookup "x"⟩, ⟨0, .rebind "y" (.held (.value (.integer 5)))⟩,
          ⟨0, .clear⟩, ⟨0, .lookup "x"⟩]
        [.ok none, .ok none, .error (.redeclared .variableName "x"), .ok none,
          .ok (some (.holding 2)), .error (.undeclared .variableName "y"),
          .ok none, .ok (some (.holding 4))]
        [∅, ∅, (∅ : VariableMap).insert "x" (.holding 4)] := by
  have hnone : ({} : Environment).Chain [] :=
    ⟨nofun, List.nodup_nil, nofun, nofun⟩
  have hchain : Environment.nested.Chain [2, 1, 0] :=
    ((hnone.enter "m" rfl).enter "f" rfl).enter "g" rfl
  refine ⟨hchain, ?_⟩
  exact (scopes_stacked hchain (by decide)).2.1

end Pseudocode
