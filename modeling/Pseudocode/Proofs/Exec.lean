import Pseudocode.Machine.Execute
import Pseudocode.Proofs.Table

/-!
# What the steps of a computation do

Equations for the small computations that the interpreter is made of: what each
gives and what it makes of the machine.  Later proofs use these and do not open
the computations again.

The machine has many parts, and each step changes few of them.  So a step is written as the
result that it gives and the state that it leaves, with the parts that change named: a
declaration the environment, a written slot the store, a tick the ticks.  A step that may
fail has both outcomes in its equation, as a choice by what it looked at.

A new scope is entered, something is run in it, and it is closed again, however the run ended
(`within_apply`).  `entered` is the state in which the run begins; the number of the new
scope is the number of scopes before.

Operators that convert what they were given, and put it somewhere, do so in the same way
whatever it was.  Where two branches of the interpreter share such an end it has a name here
(`declareAs`, `readInto`, `leaveWith`).
-/

namespace Pseudocode

/-- A result is not touched when failures are given another name. -/
theorem mapError_eq_ok {ε ε' α : Type} {f : ε → ε'} {x : Except ε α} {a : α}
    (h : x.mapError f = .ok a) : x = .ok a := by
  cases x with
  | ok b =>
    cases h
    rfl
  | error cause => cases h

/-- A failure under another name is one from before. -/
theorem mapError_eq_error {ε ε' α : Type} {f : ε → ε'} {x : Except ε α} {e : ε'}
    (h : x.mapError f = .error e) : ∃ cause, x = .error cause ∧ f cause = e := by
  cases x with
  | ok a => cases h
  | error cause =>
    cases h
    exact ⟨cause, rfl, rfl⟩

/-- The names that a table declares and their types, in order. -/
def Variables.signature (t : Variables) : List (String × DeclaredType) :=
  t.entries.map fun entry => (entry.1, entry.2.type)

/-- To bind a variable leaves all names and types as they are. -/
theorem Variables.signature_rebind (t : Variables) (name : String)
    (binding : Binding) : (t.rebind name binding).signature = t.signature := by
  unfold signature Variables.rebind Table.modify
  rw [List.map_map]
  refine List.map_congr_left fun entry _ => ?_
  simp only [Function.comp_apply]
  split <;> rfl

/-- To declare a variable adds its name and type at the end. -/
theorem Variables.signature_declare {t t' : Variables} {name : String}
    {v : Variable} (h : t.declare name v = .ok t') :
    t'.signature = t.signature ++ [(name, v.type)] := by
  obtain ⟨-, rfl⟩ := Table.declare_ok h
  simp [signature]

/-- A table with a variable bound anew, or declared if it is not there. -/
def Variables.put (vars : Variables) (t : DeclaredType) (name : String)
    (held : Operand) : Variables :=
  if vars.has name then vars.rebind name (.held held)
  else { vars with entries := vars.entries ++ [(name, ⟨t, some (.held held)⟩)] }

/-- To put a variable into a table adds it if it was not there, and else changes no type. -/
theorem Variables.signature_put (vars : Variables) (t : DeclaredType)
    (name : String) (held : Operand) :
    (vars.put t name held).signature =
      if vars.has name then vars.signature else vars.signature ++ [(name, t)] := by
  unfold put
  split
  · exact signature_rebind ..
  · simp [signature]

/-- A table that has a name is not empty. -/
theorem Variables.entries_ne_nil_of_has {vars : Variables} {name : String}
    (h : vars.has name = true) : vars.entries ≠ [] := by
  intro hnil
  simp [Table.has, Table.find?, hnil] at h

namespace Environment

variable {env : Environment} {id i : Nat}

/-- A change of variables opens no scope. -/
@[simp] theorem size_modifyVariables (change : Variables → Variables) :
    (env.modifyVariables id change).scopes.size = env.scopes.size := by
  simp [modifyVariables]

/-- A change in one scope is none in another. -/
theorem scope_modifyVariables_ne (change : Variables → Variables) (h : i ≠ id) :
    (env.modifyVariables id change).scope i = env.scope i := by
  simp [modifyVariables, scope, Array.getD_eq_getD_getElem?,
    Array.getElem?_modify, h.symm]

/-- A change in a scope changes its variables, and nothing else of it. -/
theorem scope_modifyVariables (change : Variables → Variables)
    (h : id < env.scopes.size) :
    (env.modifyVariables id change).scope id =
      { env.scope id with vars := change (env.scope id).vars } := by
  simp only [modifyVariables, scope, Array.getD_eq_getD_getElem?,
    Array.getElem?_modify, if_true, Array.getElem?_eq_getElem h]
  rfl

/-- Nothing changes outside. -/
theorem modifyVariables_of_le (change : Variables → Variables)
    (h : env.scopes.size ≤ id) :
    (env.modifyVariables id change).scope i = env.scope i := by
  by_cases hi : i = id
  · subst hi
    simp [modifyVariables, scope, Array.getD_eq_getD_getElem?, h]
  · exact scope_modifyVariables_ne change hi

/-- What a scope is after a change in one of them. -/
theorem scope_modify (change : Variables → Variables) :
    (env.modifyVariables id change).scope i =
      if i = id ∧ id < env.scopes.size then
        { env.scope id with vars := change (env.scope id).vars }
      else env.scope i := by
  by_cases hlt : id < env.scopes.size
  · by_cases hi : i = id
    · subst hi
      rw [scope_modifyVariables change hlt, if_pos ⟨rfl, hlt⟩]
    · rw [scope_modifyVariables_ne change hi, if_neg fun h => hi h.1]
  · rw [modifyVariables_of_le change (Nat.le_of_not_lt hlt), if_neg fun h => hlt h.2]

/-- Scopes stay inside the same scopes when variables change. -/
theorem outer_modify (change : Variables → Variables) :
    ((env.modifyVariables id change).scope i).outer = (env.scope i).outer := by
  rw [scope_modify]
  split
  · next h => rw [h.1]
  · rfl

/-- A change matters only for the table of the scope. -/
theorem modifyVariables_congr {change change' : Variables → Variables}
    (h : change (env.scope id).vars = change' (env.scope id).vars) :
    env.modifyVariables id change = env.modifyVariables id change' := by
  unfold modifyVariables
  congr 1
  apply Array.ext_getElem?
  intro i
  rw [Array.getElem?_modify, Array.getElem?_modify]
  split
  · next hi =>
    subst hi
    cases hscope : env.scopes[id]? with
    | none => rfl
    | some s =>
      have hs : env.scope id = s := by
        simp [scope, Array.getD_eq_getD_getElem?, hscope]
      rw [hs] at h
      simp [h]
  · rfl

/-- A new scope leaves the others as they are. -/
theorem scope_enter_ne {parent : Option Nat} {name : String} {vars : Variables}
    (h : i ≠ env.scopes.size) :
    (env.enter parent name vars).2.scope i = env.scope i := by
  simp only [enter, scope, Array.getD_eq_getD_getElem?, Array.getElem?_push,
    if_neg h]

/-- A new scope has the variables and the name that it was given. -/
theorem scope_enter {parent : Option Nat} {name : String} {vars : Variables} :
    ((env.enter parent name vars).2.scope env.scopes.size).vars = vars ∧
      ((env.enter parent name vars).2.scope env.scopes.size).name = name := by
  simp [enter, scope, Array.getD_eq_getD_getElem?]

/-- Around a new scope are its parent and what is around that. -/
theorem outer_enter {parent : Nat} {name : String} {vars : Variables} :
    ((env.enter (some parent) name vars).2.scope env.scopes.size).outer =
      parent :: (env.scope parent).outer := by
  simp [enter, scope, Array.getD_eq_getD_getElem?]

/-- A new scope is one scope more. -/
theorem size_enter {parent : Option Nat} {name : String} {vars : Variables} :
    (env.enter parent name vars).2.scopes.size = env.scopes.size + 1 := by
  simp [enter]

end Environment

namespace Exec

open Machine

variable {α β : Type}

/-- Two computations in a row: the second starts where the first ended, if it did not
halt. -/
theorem bind_apply (x : Exec α) (f : α → Exec β) (m : Machine) :
    (x >>= f) m =
      match x m with
      | .ok a m' => f a m'
      | .error halt m' => .error halt m' := by
  show EStateM.bind x f m = _
  unfold EStateM.bind
  cases x m <;> rfl

/-- To look at the state does not change it. -/
theorem get_bind_apply (f : Machine → Exec β) (m : Machine) :
    (get >>= f) m = f m m := by
  rw [bind_apply]
  rfl

/-- To write a slot changes the array in one cell, or fails and changes nothing. -/
theorem setSlot_apply (address : Nat) (index : Int) (content : Value)
    (m : Machine) : setSlot address index content m =
      match Value.setSlotAt (m.store.slots address) index (some content) with
      | .ok slots => .ok () { m with store := m.store.write address slots }
      | .error fault => .error (.fault fault) m := by
  unfold setSlot
  rw [get_bind_apply, bind_apply]
  cases Value.setSlotAt (m.store.slots address) index (some content) <;> rfl

/-- Without ticks a computation is suspended, and says what it was about to look up. -/
theorem tick_of_zero {next : Option Access} {m : Machine} (h : m.ticks = 0) :
    tick next m = .error .suspended { m with pending := next } := by
  unfold tick
  rw [h]

/-- A tick is used up. -/
theorem tick_of_succ {next : Option Access} {m : Machine} {ticks : Nat}
    (h : m.ticks = ticks + 1) : tick next m = .ok () { m with ticks } := by
  unfold tick
  rw [h]

/-- A value is converted and kept, or its conversion fails. -/
theorem convert_apply (operand : Operand) (t : DeclaredType) (m : Machine) :
    convert operand t m =
      match (m.store.reveal operand).convert t with
      | .ok v => .ok (m.store.keep v).1 { m with store := (m.store.keep v).2 }
      | .error fault =>
        .error (.fault fault) { m with refused := some ⟨m.store.reveal operand, t⟩ } := by
  show (settle _ ((m.store.reveal operand).convert t) >>= keep) m = _
  cases (m.store.reveal operand).convert t <;> rfl

/-- The result of a call is converted and kept, or the call is blamed for it. -/
theorem callResult_apply {f : FunctionDeclaration} {type : DeclaredType}
    (htype : f.result = some type) (operand : Operand) (m : Machine) :
    Level.callResult f (some operand) m =
      match (m.store.reveal operand).convert type with
      | .ok v => .ok (some (m.store.keep v).1) { m with store := (m.store.keep v).2 }
      | .error fault => .error (.fault (fault.ofResult f.fullName))
          { m with refused := some ⟨m.store.reveal operand, type⟩ } := by
  unfold Level.callResult
  rw [htype]
  show (settle _ (((m.store.reveal operand).convert type).mapError (Fault.ofResult f.fullName))
    >>= fun v => keep v >>= fun operand => pure (some operand)) m = _
  cases (m.store.reveal operand).convert type <;> rfl

/-- The scope of a module is found if the module is running. -/
theorem moduleScope_apply (name : String) (m : Machine) :
    moduleScope name m =
      match m.modules.lookup name with
      | some scope => .ok scope m
      | none => .error (.fault (.execution (.moduleNotRunning name))) m := by
  unfold moduleScope
  rw [get_bind_apply]
  cases m.modules.lookup name <;> rfl

/-- The innermost frame tells the scope. -/
theorem activeScope_apply {m : Machine} {scope : Nat} {rest : List Nat}
    (h : m.frames = scope :: rest) : activeScope m = .ok scope m := by
  unfold activeScope
  rw [get_bind_apply, h]
  rfl

/-- A change of the environment is made, or it fails and nothing is changed. -/
theorem updateEnvironment_apply (change : Environment → Except Fault Environment)
    (m : Machine) : updateEnvironment change m =
      match change m.environment with
      | .ok environment => .ok () { m with environment }
      | .error fault => .error (.fault fault) m := by
  unfold updateEnvironment
  rw [get_bind_apply, bind_apply]
  cases change m.environment <;> rfl

/-- A declaration that is executed goes into the innermost scope. -/
theorem declareHere_apply {t : DeclaredType} {name : String} {held : Operand}
    {m : Machine} {scope : Nat} {rest : List Nat} (h : m.frames = scope :: rest) :
    declareHere t name held m =
      .ok () { m with
        environment := m.environment.modifyVariables scope fun vars =>
          vars.put t name held } := by
  unfold declareHere
  rw [bind_apply, activeScope_apply h]
  dsimp only
  rw [updateEnvironment_apply]
  have hput : ∀ change : Variables → Variables,
      change (m.environment.scope scope).vars =
        (m.environment.scope scope).vars.put t name held →
      m.environment.modifyVariables scope change =
        m.environment.modifyVariables scope fun vars => vars.put t name held :=
    fun _ h => Environment.modifyVariables_congr h
  by_cases hhas : (m.environment.scope scope).vars.has name = true
  · simp only [hhas, if_true]
    rw [hput _ (by simp [Variables.put, hhas])]
  · have hdeclare : m.environment.declare scope name ⟨t, some (.held held)⟩ =
        .ok (m.environment.modifyVariables scope fun vars =>
          vars.put t name held) := by
      rw [← hput (fun _ => (m.environment.scope scope).vars.put t name held) rfl]
      simp only [Environment.declare, Table.declare, Variables.put, hhas,
        Bool.false_eq_true, if_false]
      rfl
    simp only [hhas, Bool.false_eq_true, if_false, hdeclare]

/-- Without frames nothing can be declared. -/
theorem declareHere_of_nil {t : DeclaredType} {name : String} {held : Operand}
    {m : Machine} (h : m.frames = []) :
    declareHere t name held m = .error (.fault (.execution .noActiveScope)) m := by
  unfold declareHere activeScope
  rw [bind_apply, get_bind_apply, h]
  rfl

/-- To bind a variable changes the scope that has it. -/
theorem rebind_apply (scope : Nat) (name : String) (held : Operand) (m : Machine) :
    rebind scope name held m =
      match m.environment.owner? scope name with
      | some id =>
        .ok () { m with
          environment := m.environment.modifyVariables id fun vars =>
            vars.rebind name (.held held) }
      | none => .error (.fault (.undeclared .variableName name)) m := by
  unfold rebind
  rw [updateEnvironment_apply]
  unfold Environment.rebind
  cases m.environment.owner? scope name <;> rfl

/-- The scope that has a name has it in its table. -/
theorem has_of_owner? {env : Environment} {scope id : Nat} {name : String}
    (h : env.owner? scope name = some id) : (env.scope id).vars.has name = true := by
  unfold Environment.owner? at h
  have hfound := List.find?_some h
  exact hfound

/-- Takes the first of some answers, or fails if there is none. -/
def takeAnswer (fault : Fault) : List String → Exec String
  | [] => fail fault
  | answer :: answers => do
    modify fun m => { m with answers }
    return answer

/-- An answer is taken behind a prompt, if there is somebody to be prompted. -/
theorem nextAnswer_eq (name : String) (t : DeclaredType) :
    nextAnswer name t = get >>= fun m =>
      let fault := .execution (if m.interactive then .inputEnded name else .noAnswer name)
      if m.interactive then
        emit (.prompted (name ++ " (" ++ t.text ++ "): ")) >>= fun _ =>
          takeAnswer fault m.answers
      else takeAnswer fault m.answers := rfl

/-- A machine with one more scope, which is the innermost. -/
def entered (m : Machine) (parent : Option Nat) (name : String)
    (vars : Variables) : Machine :=
  { m with
    environment := (m.environment.enter parent name vars).2
    frames := m.environment.scopes.size :: m.frames }

/-- A scope that is entered is one scope more in the environment. -/
theorem environment_entered (m : Machine) (parent : Option Nat) (name : String)
    (vars : Variables) : (entered m parent name vars).environment =
      (m.environment.enter parent name vars).2 := rfl

/-- So there are more scopes than before. -/
theorem size_lt_entered {m : Machine} {parent : Option Nat} {name : String}
    {vars : Variables} : m.environment.scopes.size <
      (entered m parent name vars).environment.scopes.size := by
  rw [environment_entered, Environment.size_enter]
  exact Nat.lt_succ_self _

/-- The new scope has the name that it was given. -/
theorem name_entered {m : Machine} {parent : Option Nat} {name : String}
    {vars : Variables} : ((entered m parent name vars).environment.scope
      m.environment.scopes.size).name = name := by
  rw [environment_entered]
  exact Environment.scope_enter.2

/-- A run in a new scope starts from there, takes a tick when it ends, and closes the
scope. -/
theorem within_apply {parent : Option Nat} {name : String} {vars : Variables}
    {x : Nat → Exec α} {m : Machine} :
    within parent name vars x m =
      (x m.environment.scopes.size).thenTick.andThenTidy popScope
        (entered m parent name vars) := by
  unfold within
  rw [bind_apply]
  rfl

/-- To close the innermost scope empties it, and drops its frame. -/
theorem popScope_apply {m : Machine} {scope : Nat} {rest : List Nat}
    (h : m.frames = scope :: rest) :
    m.popScope =
      { m with environment := m.environment.clear scope, frames := rest } := by
  unfold popScope
  rw [h]

/-- A module that is recorded is found under its name. -/
theorem lookup_recordModule (m : Machine) (name : String) (scope : Nat) :
    (m.recordModule name scope).modules.lookup name = some scope := by
  have hmap : ∀ entries : List (String × Nat), (entries.lookup name).isSome = true →
      (entries.map fun entry =>
        if entry.1 = name then (name, scope) else entry).lookup name = some scope := by
    intro entries
    induction entries with
    | nil => exact fun h => nomatch h
    | cons entry rest ih =>
      intro hsome
      rw [List.map_cons]
      by_cases hname : entry.1 = name
      · simp [hname]
      · have hne : (name == entry.1) = false := by simpa using Ne.symm hname
        rw [List.lookup_cons, hne] at hsome
        rw [if_neg hname, List.lookup_cons, hne]
        exact ih hsome
  unfold recordModule
  simp only
  split
  · next hsome => exact hmap _ hsome
  · next hnone =>
    have hmissing := Option.not_isSome_iff_eq_none.mp hnone
    simp [List.lookup_append, hmissing]

/-- Whether a computation has a result of which something holds. -/
def succeeds (x : Exec α) (m : Machine) (holds : α → Bool) : Bool :=
  match x m with
  | .ok a _ => holds a
  | .error .. => false

/-- What can be computed of a run that succeeded says that it did. -/
theorem exists_of_succeeds {x : Exec α} {m : Machine} {holds : α → Bool}
    (h : x.succeeds m holds = true) : ∃ a n, x m = .ok a n ∧ holds a = true := by
  unfold succeeds at h
  cases hrun : x m with
  | ok a n =>
    rw [hrun] at h
    exact ⟨a, n, rfl, h⟩
  | error halt n =>
    rw [hrun] at h
    cases h

/-- An attempt hands its outcome on, whatever it is. -/
theorem attempt_bind_apply {x : Exec α} {f : Except Halt α → Exec β} {m : Machine} :
    (x.attempt >>= f) m =
      match x m with
      | .ok a m' => f (.ok a) m'
      | .error halt m' => f (.error halt) m' := by
  rw [bind_apply]
  unfold attempt
  cases x m <;> rfl

/-- A tick behind a run that succeeded. -/
theorem thenTick_of_ok {x : Exec α} {a : α} {m n : Machine} (h : x m = .ok a n) :
    x.thenTick m = endAs (.ok a) n := by
  unfold thenTick
  rw [attempt_bind_apply, h]

/-- A tick behind a run that halted. -/
theorem thenTick_of_error {x : Exec α} {halt : Halt} {m n : Machine}
    (h : x m = .error halt n) : x.thenTick m = endAs (.error halt) n := by
  unfold thenTick
  rw [attempt_bind_apply, h]

end Exec

/-! ## How operators end

What a declaration does behind the value of its variable, an input behind the variable
that it is for, and a `return` behind its result. -/

namespace Level

open Exec

/-- A value is converted to a type and declared in the innermost scope. -/
def declareAs (t : DeclaredType) (name : String) (operand : Operand) : Exec Unit := do
  let held ← convert operand t
  declareHere t name held
  trace 2 fun m => do
    return "declare " ++ name ++ ": " ++ t.text ++ " = " ++ (← m.textOf held)

/-- A declaration with an initial value evaluates it first. -/
theorem executeDeclaration_some (below : Level) (t : DeclaredType) (name : String)
    (e : Expr) : below.executeDeclaration t name (some e) = (do
      let scope ← activeScope
      let operand ← below.evaluate (some scope) e
      declareAs t name operand) := rfl

/-- A declaration without one starts with the value that its type has at first. -/
theorem executeDeclaration_none (below : Level) (t : DeclaredType) (name : String) :
    below.executeDeclaration t name none = (do
      let v ← lift (Value.initial t)
      declareAs t name (.value v)) := rfl

/-- An answer is read into a variable of a type. -/
def readInto (scope : Nat) (target : Occurrence) (type : DeclaredType) : Exec Unit := do
  let answer ← nextAnswer target.name type
  let held ← convert (.value (.string answer)) type
  rebind scope target.name held
  trace 2 fun m => do
    return "input " ++ target.name ++ " = " ++ (← m.textOf held)

/-- Arrays cannot be read from an answer; anything else is. -/
theorem executeInput_eq (target : Occurrence) : executeInput target = (do
    let scope ← activeScope
    let v ← variableIn scope target
    if v.type.isArray then
      fail (.conversion ⟨.scalar .string, .declared v.type, .arrayInput⟩)
    else readInto scope target v.type) := rfl

/-- A function is left, with a result or without. -/
def leaveWith (result : Option Operand) : Exec Unit := do
  tick
  throw (.returned result)

end Level

end Pseudocode
