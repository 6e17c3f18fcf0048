import Pseudocode.Proofs.Isolation
import Pseudocode.Proofs.Ownership

/-!
# A running program leaves arrays to their variables

`Exec.Sparing` says of a computation that, however it ends, it leads from a state in
which every array is that of one variable to one that is `Machine.Spared`.  The rules
for it keep apart the state to compare with and the state in which the computation
starts, so that a sequence is compared with the state before its first part.

If a level of the interpreter spares the arrays (`Level.Spares`), so does the next one
(`spares_running`).  What an expression gives is the array of a variable only if the
expression is that variable, and what a call gives never is.

Most computations touch no variable and no array (`Exec.Calm`), and their results need no
thought.  The others convert before they bind, and a conversion makes a new array of an
array (`sparing_convert`); what it made is taken by one variable right behind it, with
nothing in between (`sparing_declareHere`, `sparing_rebind`).  This is the place where the
proof would fail if an array could be bound as it is.

What is known of a result at the end of a computation may depend on the state, and is then
asked to last through ticks and the closing of scopes (`Lasting`).
-/

namespace Pseudocode

open Exec Machine

namespace Exec

variable {α β : Type}

/-! ## Calm computations

What neither binds a variable nor writes to a cell spares all arrays, and needs nothing else to
be known. -/

/-- A computation that leaves variables and arrays as they are, and writes nothing. -/
def Calm (x : Exec α) : Prop := ∀ m : Machine, m.Calm (x.final m)

/-- Calm computations one after the other are calm. -/
theorem Calm.bind {x : Exec α} {f : α → Exec β} (hx : x.Calm) (hf : ∀ a, (f a).Calm) :
    (x >>= f).Calm := by
  intro m
  have hx' := hx m
  unfold Exec.final at hx' ⊢
  rw [bind_apply]
  cases hrun : x m with
  | error halt m' => simpa only [hrun] using hx'
  | ok a m' =>
    simp only [hrun] at hx' ⊢
    exact hx'.trans (hf a m')

theorem calm_pure (a : α) : (pure a : Exec α).Calm := fun m => .refl m

theorem calm_fail (fault : Fault) : (fail fault : Exec α).Calm := fun m => .refl m

theorem calm_lift (x : Except Fault α) : (lift x).Calm := by
  cases x with
  | ok a => exact calm_pure a
  | error fault => exact calm_fail fault

theorem calm_get {f : Machine → Exec α} (hf : ∀ m, (f m).Calm) :
    (get >>= f : Exec α).Calm := by
  intro m
  unfold Exec.final
  rw [get_bind_apply]
  exact hf m m

theorem calm_tick (next : Option Access) : (tick next).Calm := by
  intro m
  unfold Exec.final tick
  cases m.ticks with
  | zero => exact ⟨rfl, rfl, rfl, [], (List.append_nil _).symm, fun _ _ h => nomatch h⟩
  | succ ticks => exact ⟨rfl, rfl, rfl, [], (List.append_nil _).symm, fun _ _ h => nomatch h⟩

theorem calm_settle (c : Conversion) (x : Except Fault α) : (settle c x).Calm := by
  cases x with
  | ok a => exact calm_pure a
  | error fault => exact fun m => .refuse m c

theorem calm_reveal (operand : Operand) : (reveal operand).Calm :=
  calm_get fun _ => calm_pure _

theorem calm_activeScope : activeScope.Calm := by
  refine calm_get fun m => ?_
  split
  · exact calm_fail _
  · exact calm_pure _

theorem calm_moduleScope (name : String) : (moduleScope name).Calm := by
  refine calm_get fun m => ?_
  split
  · exact calm_fail _
  · exact calm_pure _

/-- To look up a variable is calm. -/
theorem calm_variableIn (scope : Nat) (target : Occurrence) :
    (variableIn scope target).Calm :=
  (calm_tick _).bind fun _ => calm_get fun _ => calm_lift _

/-- To emit what is no output is calm. -/
theorem calm_emit {event : Event} (h : ∀ operand text, event ≠ .written operand text) :
    (emit event).Calm := by
  intro m
  refine ⟨rfl, rfl, rfl, [event], Array.toList_push, fun operand text hmem => ?_⟩
  exact h operand text (List.mem_singleton.mp hmem).symm

/-- To trace a message is calm. -/
theorem calm_trace (level : Nat) (message : Machine → Except Fault String) :
    (trace level message).Calm := by
  refine calm_get fun m => ?_
  split
  · refine (calm_lift _).bind fun text => calm_emit fun operand text' => ?_
    split <;> intro heq <;> cases heq
  · exact calm_pure ()

/-- To take an answer is calm. -/
theorem calm_nextAnswer (name : String) (t : DeclaredType) : (nextAnswer name t).Calm := by
  rw [nextAnswer_eq]
  refine calm_get fun m => ?_
  have hanswer : ∀ fault, (takeAnswer fault m.answers).Calm := by
    intro fault
    cases m.answers with
    | nil => exact calm_fail _
    | cons answer answers =>
      have hset : (modify fun m => { m with answers } : Exec Unit).Calm := fun m =>
        ⟨rfl, rfl, rfl, [], (List.append_nil _).symm, fun _ _ h => nomatch h⟩
      exact hset.bind fun _ => calm_pure _
  dsimp only
  split
  · refine (calm_emit fun operand text heq => ?_).bind fun _ => hanswer _
    cases heq
  · exact hanswer _

/-- What is read from a slot is a value. -/
theorem readSlot_ok {name : String} {array operand : Operand} {index : Int} {m m' : Machine}
    (h : Level.readSlot name array index m = .ok operand m') : ∃ v, operand = .value v := by
  obtain ⟨v, m₁, -, h⟩ := bind_eq_ok h
  split at h
  · obtain ⟨slot, m₂, -, h⟩ := bind_eq_ok h
    split at h
    · cases h
    · next content =>
      cases h
      exact ⟨content, rfl⟩
  · cases h

/-- To read a slot is calm. -/
theorem calm_readSlot (name : String) (array : Operand) (index : Int) :
    (Level.readSlot name array index).Calm := by
  refine (calm_reveal array).bind fun v => ?_
  split
  · refine (calm_lift _).bind fun slot => ?_
    split
    · exact calm_fail _
    · exact calm_pure _
  · exact calm_fail _

/-! ## Rules

A computation is taken together with the state from which arrays have to be spared, which is
that of a whole run and does not change from step to step. -/

/-- A computation leads to states in which the arrays of a state have been spared.
`gives` is what is known of the result. -/
def Sparing (p : Program) (m₀ : Machine) (x : Exec α) (m : Machine)
    (gives : α → Machine → Prop) : Prop :=
  match x m with
  | .ok a m' => m₀.Spared p m' ∧ gives a m'
  | .error _ m' => m₀.Spared p m'

variable {p : Program} {m₀ m₁ m : Machine} {x : Exec α} {f : α → Exec β}
  {gives gives' : α → Machine → Prop} {result : β → Machine → Prop}

/-- Less may be said of the result. -/
theorem Sparing.imp (h : Sparing p m₀ x m gives)
    (hgives : ∀ a m', m₀.Spared p m' → gives a m' → gives' a m') :
    Sparing p m₀ x m gives' := by
  unfold Sparing at h ⊢
  cases hrun : x m with
  | ok a m' =>
    simp only [hrun] at h ⊢
    exact ⟨h.1, hgives a m' h.1 h.2⟩
  | error halt m' => simpa only [hrun] using h

/-- Computations that spare the arrays do so one after the other. -/
theorem Sparing.bind (hx : Sparing p m₀ x m gives)
    (hf : ∀ a m', m₀.Spared p m' → gives a m' → Sparing p m₀ (f a) m' result) :
    Sparing p m₀ (x >>= f) m result := by
  unfold Sparing at hx ⊢
  rw [bind_apply]
  cases hrun : x m with
  | ok a m' =>
    simp only [hrun] at hx ⊢
    exact hf a m' hx.1 hx.2
  | error halt m' => simpa only [hrun] using hx

/-- What spares the arrays of a state spares those of an earlier one. -/
theorem Sparing.behind (hx : Sparing p m₁ x m gives) (h : m₀.Spared p m₁) :
    Sparing p m₀ x m gives := by
  unfold Sparing at hx ⊢
  cases hrun : x m with
  | ok a m' =>
    simp only [hrun] at hx ⊢
    exact ⟨h.trans hx.1, hx.2⟩
  | error halt m' =>
    simp only [hrun] at hx ⊢
    exact h.trans hx

/-- However it ends, the arrays have been spared. -/
theorem Sparing.final (h : Sparing p m₀ x m gives) : m₀.Spared p (x.final m) := by
  unfold Sparing at h
  unfold Exec.final
  cases hrun : x m with
  | ok a m' =>
    simp only [hrun] at h ⊢
    exact h.1
  | error halt m' => simpa only [hrun] using h

/-- A calm computation spares the arrays, and its result is known. -/
theorem Calm.sparing (hx : x.Calm) (h : m₀.Spared p m) :
    Sparing p m₀ x m fun a m' => x m = .ok a m' ∧ m.Calm m' := by
  have hx' := hx m
  unfold Exec.final at hx'
  unfold Sparing
  generalize x m = r at hx' ⊢
  cases r with
  | ok a m' => exact ⟨h.trans (.of_calm h.owned hx'), rfl, hx'⟩
  | error halt m' => exact h.trans (.of_calm h.owned hx')

/-- What follows on a calm computation. -/
theorem Calm.next (hx : x.Calm) (h : m₀.Spared p m)
    (hf : ∀ a m', m₀.Spared p m' → x m = .ok a m' → m.Calm m' →
      Sparing p m₀ (f a) m' result) : Sparing p m₀ (x >>= f) m result :=
  (hx.sparing h).bind fun a m' hspared hgives => hf a m' hspared hgives.1 hgives.2

theorem sparing_pure {a : α} (h : m₀.Spared p m) (hgives : gives a m) :
    Sparing p m₀ (pure a) m gives := ⟨h, hgives⟩

theorem sparing_fail {fault : Fault} (h : m₀.Spared p m) :
    Sparing p m₀ (fail fault) m gives := h

/-- A list of computations spares the arrays if each of them does. -/
theorem sparing_mapM {f : α → Exec β}
    (hf : ∀ a m, m₀.Spared p m → Sparing p m₀ (f a) m fun _ _ => True) :
    ∀ (as : List α) {m : Machine}, m₀.Spared p m →
      Sparing p m₀ (as.mapM f) m fun _ _ => True
  | [], _, h => sparing_pure h trivial
  | a :: as, _, h => by
    rw [List.mapM_cons]
    refine (hf a _ h).bind fun _ m' h' _ => (sparing_mapM hf as h').bind fun _ m'' h'' _ => ?_
    exact sparing_pure h'' trivial

theorem sparing_forM {f : α → Exec PUnit}
    (hf : ∀ a m, m₀.Spared p m → Sparing p m₀ (f a) m fun _ _ => True) :
    ∀ (as : List α) {m : Machine}, m₀.Spared p m →
      Sparing p m₀ (as.forM f) m fun _ _ => True
  | [], _, h => sparing_pure h trivial
  | a :: as, _, h => (hf a _ h).bind fun _ _ h' _ => sparing_forM hf as h'

/-- A loop spares the arrays if its guard and its body do. -/
theorem sparing_loop {guard : Exec Bool} {body : Exec Unit}
    (hguard : ∀ m, m₀.Spared p m → Sparing p m₀ guard m fun _ _ => True)
    (hbody : ∀ m, m₀.Spared p m → Sparing p m₀ body m fun _ _ => True)
    (h : m₀.Spared p m) : Sparing p m₀ (loop guard body) m fun _ _ => True := by
  -- the limit is on the rounds, and each starts from a state that is spared
  have hrounds : ∀ limit m, m₀.Spared p m →
      Sparing p m₀ (repeatWhile guard body limit) m fun _ _ => True := by
    intro limit
    induction limit with
    | zero => exact fun _ h => h
    | succ limit ih =>
      intro m h
      refine (hguard m h).bind fun holds m' h' _ => ?_
      split
      · exact (hbody m' h').bind fun _ m'' h'' _ => ih m'' h''
      · exact sparing_pure h' trivial
  exact hrounds _ m h

/-! ### Values for variables -/

/-- A value is converted, and what is made of it is kept for a variable. -/
theorem sparing_convert {operand : Operand} {t : DeclaredType} {f : Operand → Exec β}
    (h : m₀.Spared p m)
    (hf : ∀ v, (m.store.reveal operand).convert t = .ok v →
      Sparing p m₀ (f (m.store.keep v).1) { m with store := (m.store.keep v).2 } result) :
    Sparing p m₀ (convert operand t >>= f) m result := by
  unfold Sparing
  rw [bind_apply, convert_apply]
  cases hv : (m.store.reveal operand).convert t with
  | error fault => exact h.trans (.of_calm h.owned (.refuse m _))
  | ok v => exact hf v hv

/-- What was converted and kept just now is declared. -/
theorem sparing_declareHere {t : DeclaredType} {name : String} {a v : Value}
    (hname : t.isArray = true → p.DeclaresArray name) (h : m₀.Spared p m)
    (hv : a.convert t = .ok v) :
    Sparing p m₀ (declareHere t name (m.store.keep v).1)
      { m with store := (m.store.keep v).2 } fun _ _ => True := by
  unfold Sparing
  obtain hnil | ⟨scope, rest, hframes⟩ :
      m.frames = [] ∨ ∃ scope rest, m.frames = scope :: rest := by
    cases m.frames with
    | nil => exact .inl rfl
    | cons scope rest => exact .inr ⟨scope, rest, rfl⟩
  · rw [declareHere_of_nil (m := { m with store := (m.store.keep v).2 }) hnil]
    exact h.trans (.keep h.owned v)
  · rw [declareHere_apply (m := { m with store := (m.store.keep v).2 }) hframes]
    refine ⟨h.trans (.hold h.owned name ?_ fun other address => ?_), trivial⟩
    · exact (h.owned.plain scope).put hname (p.mayHold_keep hname hv m.store)
    · exact Variables.owns_put

/-- What was converted and kept just now is bound. -/
theorem sparing_rebind {scope owner : Nat} {name : String} {u : Variable} {a v : Value}
    (h : m₀.Spared p m) (howner : m.environment.owner? scope name = some owner)
    (hfound : (m.environment.scope owner).vars.find? name = some u)
    (hv : a.convert u.type = .ok v) :
    Sparing p m₀ (rebind scope name (m.store.keep v).1)
      { m with store := (m.store.keep v).2 } fun _ _ => True := by
  have hplain := h.owned.plain owner
  have hname := hplain.declared name u (Variables.mem_of_find? hfound)
  unfold Sparing
  rw [rebind_apply, howner]
  refine ⟨h.trans (.hold h.owned name ?_ fun other address => ?_), trivial⟩
  · exact hplain.rebind (p.mayHold_keep hname hv m.store)
  · exact Variables.owns_rebind

/-- A variable that has been looked up is in the table of some scope. -/
theorem variableIn_ok {scope : Nat} {target : Occurrence} {v : Variable} {m' : Machine}
    (h : variableIn scope target m = .ok v m') :
    ∃ owner, m.environment.owner? scope target.name = some owner ∧
      (m.environment.scope owner).vars.find? target.name = some v := by
  obtain ⟨_, m₁, htick, h⟩ := bind_eq_ok h
  have henv : m₁.environment = m.environment := by
    have hcalm := calm_tick (some ⟨scope, target⟩) m
    unfold Exec.final at hcalm
    rw [htick] at hcalm
    exact hcalm.environment
  rw [get_bind_apply, henv] at h
  unfold Environment.lookup Environment.find? at h
  cases howner : m.environment.owner? scope target.name with
  | none =>
    rw [howner] at h
    cases h
  | some owner =>
    rw [howner, Option.bind_some] at h
    cases hfound : (m.environment.scope owner).vars.find? target.name with
    | none =>
      rw [hfound] at h
      cases h
    | some v' =>
      rw [hfound] at h
      cases h
      exact ⟨owner, rfl, hfound⟩

/-! ### Scopes -/

/-- What stays true of a result when arrays are spared. -/
def Lasting (p : Program) (gives : α → Machine → Prop) : Prop :=
  ∀ a m m', m.Spared p m' → gives a m → gives a m'

/-- A tick at the end makes no difference to a result that lasts. -/
theorem Sparing.thenTick (h : Sparing p m₀ x m gives) (hlasting : Lasting p gives) :
    Sparing p m₀ x.thenTick m gives := by
  have htick : ∀ m' {halt : Halt}, m₀.Spared p m' →
      Sparing p m₀ (tick >>= fun _ => throw halt : Exec α) m' gives :=
    fun m' _ h' => (calm_tick none).next h' fun _ _ h'' _ _ => h''
  unfold Exec.thenTick
  unfold Sparing at h ⊢
  rw [attempt_bind_apply]
  cases hrun : x m with
  | ok a m' =>
    simp only [hrun] at h ⊢
    have hpure : Sparing p m₀ (tick >>= fun _ => pure a) m' gives :=
      (calm_tick none).next h.1 fun _ m'' h'' _ hcalm =>
        sparing_pure h'' (hlasting a m' m'' (.of_calm h.1.owned hcalm) h.2)
    exact hpure
  | error halt m' =>
    simp only [hrun] at h ⊢
    cases halt with
    | suspended => exact h
    | fault _ => exact htick m' h
    | returned _ => exact htick m' h

/-- To tidy up makes no difference, if that spares the arrays. -/
theorem Sparing.andThenTidy {tidy : Machine → Machine} (h : Sparing p m₀ x m gives)
    (htidy : ∀ m : Machine, m.Owned p → m.Spared p (tidy m)) (hlasting : Lasting p gives) :
    Sparing p m₀ (x.andThenTidy tidy) m gives := by
  unfold Exec.andThenTidy
  unfold Sparing at h ⊢
  dsimp only
  cases hrun : x m with
  | ok a m' =>
    simp only [hrun] at h ⊢
    have htidied := htidy m' h.1.owned
    exact ⟨h.1.trans htidied, hlasting a m' _ htidied h.2⟩
  | error halt m' =>
    simp only [hrun] at h ⊢
    cases halt with
    | suspended => exact h
    | fault _ | returned _ => exact h.trans (htidy m' h.owned)

/-- A computation in a new scope spares the arrays, and the scope is closed. -/
theorem sparing_within {parent : Option Nat} {name : String} {vars : Variables}
    {x : Nat → Exec α}
    (hx : Sparing p m₀ (x m.environment.scopes.size) (entered m parent name vars) gives)
    (hlasting : Lasting p gives) : Sparing p m₀ (within parent name vars x) m gives := by
  have hbody := (hx.thenTick hlasting).andThenTidy (fun _ => Spared.pop) hlasting
  unfold Sparing at hbody ⊢
  rw [within_apply]
  exact hbody

/-- The body of a function spares the arrays, whatever it gives back. -/
theorem sparing_runBody {function : String} {body : Exec Unit}
    (h : Sparing p m₀ body m fun _ _ => True) :
    Sparing p m₀ (Level.runBody function body) m fun _ _ => True := by
  unfold Level.runBody
  unfold Sparing at h ⊢
  rw [attempt_bind_apply]
  cases hrun : body m with
  | ok a m' =>
    simp only [hrun] at h ⊢
    exact h
  | error halt m' =>
    simp only [hrun] at h ⊢
    cases halt with
    | suspended => exact h
    | fault _ => exact h
    | returned _ => exact ⟨h, trivial⟩

end Exec

/-! ## Levels -/

/-- What an expression gives: the array of a variable only if it is that variable. -/
def Program.Yields (p : Program) (m : Machine) (e : Expr) (operand : Operand)
    (m' : Machine) : Prop :=
  m'.store.Made operand ∧
    ((∃ target, e = .read target ∧ p.DeclaresArray target.name) ∨ m.Apart m' operand)

/-- Whatever a level does, it spares the arrays. -/
structure Level.Spares (p : Program) (level : Level) : Prop where
  evaluate : ∀ m scope e, m.Owned p → Sparing p m (level.evaluate scope e) m (p.Yields m e)
  execute : ∀ m index, m.Owned p → Sparing p m (level.execute index) m fun _ _ => True
  call : ∀ m callee arguments, m.Owned p →
    Sparing p m (level.call callee arguments) m fun result m' =>
      ∀ operand, result = some operand → m.Apart m' operand

namespace Level

variable {p : Program} {m₀ m : Machine}

/-- At the bottom everything is too deep. -/
theorem spares_bottom : bottom.Spares p where
  evaluate _ _ _ hm := sparing_fail (.refl hm)
  execute _ _ hm := sparing_fail (.refl hm)
  call _ _ _ hm := sparing_fail (.refl hm)

/-- A variable gives the array that it holds. -/
theorem sparing_readVariable (below : Level) (scope : Option Nat) (target : Occurrence)
    (h : m₀.Spared p m) :
    Sparing p m₀ (below.readVariable scope target) m fun operand m' => m.Calm m' ∧
      ∀ address, operand = .cell address →
        p.DeclaresArray target.name ∧ ∃ id, m'.Holds id address := by
  unfold readVariable
  cases scope with
  | none => exact sparing_fail h
  | some id =>
    refine (calm_variableIn id target).next h fun v m' h' hfound hcalm => ?_
    obtain ⟨owner, -, hv⟩ := variableIn_ok hfound
    have hmem := Variables.mem_of_find? hv
    obtain ⟨operand, hbinding, hmay⟩ := (h.owned.plain owner).held target.name v hmem
    rw [hbinding]
    refine sparing_pure h' ⟨hcalm, fun address heq => ?_⟩
    subst heq
    refine ⟨hmay, owner, ?_⟩
    unfold Machine.Holds
    rw [hcalm.environment]
    exact ⟨target.name, v, hmem, hbinding⟩

section

variable {below : Level} (hbelow : below.Spares p)

include hbelow

/-! ### Expressions -/

/-- The same of an expression, compared with an earlier state. -/
theorem Spares.evaluates (h : m₀.Spared p m) (scope : Option Nat) (e : Expr) :
    Sparing p m₀ (below.evaluate scope e) m (p.Yields m e) :=
  (hbelow.evaluate m scope e h.owned).behind h

/-- An expression that is read as a truth value spares the arrays. -/
theorem Spares.evaluateTruth (h : m₀.Spared p m) (scope : Option Nat) (e : Expr) :
    Sparing p m₀ (below.evaluateTruth scope e) m fun _ _ => True :=
  (hbelow.evaluates h scope e).bind fun operand _ h' _ =>
    (calm_reveal operand).next h' fun _ _ h'' _ _ =>
      ((calm_lift _).sparing h'').imp fun _ _ _ _ => trivial

/-- An expression that is read as an integer spares the arrays. -/
theorem Spares.evaluateInteger (h : m₀.Spared p m) (scope : Option Nat) (e : Expr) :
    Sparing p m₀ (below.evaluateInteger scope e) m fun _ _ => True :=
  (hbelow.evaluates h scope e).bind fun operand _ h' _ =>
    (calm_reveal operand).next h' fun _ _ h'' _ _ =>
      ((calm_settle _ _).sparing h'').imp fun _ _ _ _ => trivial

/-- A condition spares the arrays. -/
theorem Spares.evaluateCondition (h : m₀.Spared p m) (scope : Option Nat) (op : Condition)
    (left right : Expr) :
    Sparing p m₀ (below.evaluateCondition scope op left right) m fun _ _ => True := by
  cases op with
  | both =>
    refine (hbelow.evaluateTruth h scope left).bind fun holds m' h' _ => ?_
    split
    · exact hbelow.evaluateTruth h' scope right
    · exact sparing_pure h' trivial
  | either =>
    refine (hbelow.evaluateTruth h scope left).bind fun holds m' h' _ => ?_
    split
    · exact sparing_pure h' trivial
    · exact hbelow.evaluateTruth h' scope right
  | compare comparison =>
    refine (hbelow.evaluates h scope left).bind fun a m₁ h₁ _ => ?_
    refine (hbelow.evaluates h₁ scope right).bind fun b m₂ h₂ _ => ?_
    refine (calm_reveal a).next h₂ fun _ m₃ h₃ _ _ => ?_
    refine (calm_reveal b).next h₃ fun _ m₄ h₄ _ _ => ?_
    exact ((calm_lift _).sparing h₄).imp fun _ _ _ _ => trivial

omit hbelow in
/-- A result that is a plain value. -/
theorem sparing_value {x : Exec Value} {e : Expr} (h : Sparing p m x m₀ fun _ _ => True) :
    Sparing p m (x >>= fun v => pure (.value v)) m₀ (p.Yields m e) :=
  h.bind fun v _ h' _ => sparing_pure h' ⟨trivial, .inr (apart_value v)⟩

/-- Every expression of the next level spares the arrays, and gives what it is said to. -/
theorem Spares.evaluateNode (hm : m.Owned p) (scope : Option Nat) (e : Expr) :
    Sparing p m (below.evaluateNode scope e) m (p.Yields m e) := by
  refine (calm_tick _).next (.refl hm) fun _ m₁ h₁ _ _ => ?_
  cases e with
  | literal v => exact sparing_pure h₁ ⟨trivial, .inr (apart_value v)⟩
  | read target =>
    refine (sparing_readVariable below scope target h₁).imp fun operand m₂ h₂ hgives => ?_
    obtain ⟨-, hcell⟩ := hgives
    cases operand with
    | value v => exact ⟨trivial, .inr (apart_value v)⟩
    | cell address =>
      obtain ⟨hdeclares, id, hheld⟩ := hcell address rfl
      exact ⟨h₂.owned.made id address hheld, .inl ⟨target, rfl, hdeclares⟩⟩
  | slot target index =>
    refine (sparing_readVariable below scope target h₁).bind fun array m₂ h₂ _ => ?_
    refine (hbelow.evaluateInteger h₂ scope index).bind fun i m₃ h₃ _ => ?_
    refine ((calm_readSlot _ _ _).sparing h₃).imp fun operand m₄ _ hgives => ?_
    obtain ⟨v, rfl⟩ := readSlot_ok hgives.1
    exact ⟨trivial, .inr (apart_value v)⟩
  | sign symbol operand =>
    refine (hbelow.evaluates h₁ scope operand).bind fun a m₂ h₂ _ => ?_
    refine (calm_reveal a).next h₂ fun _ m₃ h₃ _ _ => sparing_value ?_
    exact ((calm_lift _).sparing h₃).imp fun _ _ _ _ => trivial
  | arithmetic op left right =>
    refine (hbelow.evaluates h₁ scope left).bind fun a m₂ h₂ _ => ?_
    refine (hbelow.evaluates h₂ scope right).bind fun b m₃ h₃ _ => ?_
    refine (calm_reveal a).next h₃ fun _ m₄ h₄ _ _ => ?_
    refine (calm_reveal b).next h₄ fun _ m₅ h₅ _ _ => sparing_value ?_
    exact ((calm_lift _).sparing h₅).imp fun _ _ _ _ => trivial
  | condition op left right =>
    refine (hbelow.evaluateCondition h₁ scope op left right).bind fun _ m₂ h₂ _ => ?_
    exact sparing_pure h₂ ⟨trivial, .inr (apart_value _)⟩
  | call name callee arguments =>
    have hevaluate := fun e m' (h' : m.Spared p m') =>
      (hbelow.evaluates h' scope e).imp fun _ _ _ _ => trivial
    refine (sparing_mapM hevaluate arguments h₁).bind fun operands m₂ h₂ _ => ?_
    refine ((hbelow.call m₂ callee operands h₂.owned).behind h₂).bind
      fun result m₃ h₃ hgives => ?_
    cases result with
    | none => exact sparing_fail h₃
    | some operand =>
      have hapart := (hgives operand rfl).earlier h₂
      exact sparing_pure h₃ ⟨hapart.made, .inr hapart⟩
  | blank => exact sparing_fail h₁

/-! ### Operators -/

/-- Operators one after another spare the arrays. -/
theorem Spares.executeAll : ∀ (places : List Nat) {m : Machine}, m₀.Spared p m →
    Sparing p m₀ (below.executeAll places) m fun _ _ => True
  | [], _, h => ((calm_tick none).sparing h).imp fun _ _ _ _ => trivial
  | index :: rest, m, h =>
    ((hbelow.execute m index h.owned).behind h).bind fun _ _ h' _ => Spares.executeAll rest h'

/-- The guard of a loop spares the arrays. -/
theorem Spares.testGuard (h : m₀.Spared p m) (guard : Expr) :
    Sparing p m₀ (below.testGuard guard) m fun _ _ => True := by
  refine calm_activeScope.next h fun scope m₁ h₁ _ _ => ?_
  refine (hbelow.evaluateInteger h₁ _ guard).bind fun _ m₂ h₂ _ => ?_
  exact (calm_trace _ _).next h₂ fun _ _ h₃ _ _ => sparing_pure h₃ trivial

omit hbelow in
/-- To convert and declare a value spares the arrays. -/
theorem sparing_declareAs {t : DeclaredType} {name : String}
    (hname : t.isArray = true → p.DeclaresArray name) (h : m₀.Spared p m)
    (operand : Operand) :
    Sparing p m₀ (declareAs t name operand) m fun _ _ => True := by
  refine sparing_convert h fun v hv => ?_
  refine (sparing_declareHere hname h hv).bind fun _ m₁ h₁ _ => ?_
  exact ((calm_trace _ _).sparing h₁).imp fun _ _ _ _ => trivial

/-- A declaration spares the arrays. -/
theorem Spares.executeDeclaration {t : DeclaredType} {name : String}
    (hname : t.isArray = true → p.DeclaresArray name) (h : m₀.Spared p m)
    (initial : Option Expr) :
    Sparing p m₀ (below.executeDeclaration t name initial) m fun _ _ => True := by
  cases initial with
  | some e =>
    rw [executeDeclaration_some]
    refine calm_activeScope.next h fun scope m₁ h₁ _ _ => ?_
    exact (hbelow.evaluates h₁ _ e).bind fun operand m₂ h₂ _ =>
      sparing_declareAs hname h₂ operand
  | none =>
    rw [executeDeclaration_none]
    exact (calm_lift _).next h fun v m₁ h₁ _ _ => sparing_declareAs hname h₁ _

omit hbelow in
/-- An assignment to a variable spares the arrays: it takes a copy. -/
theorem sparing_assignVariable (target : Occurrence) (value : Operand) (h : m₀.Spared p m) :
    Sparing p m₀ (assignVariable target value) m fun _ _ => True := by
  refine calm_activeScope.next h fun scope m₁ h₁ _ _ => ?_
  refine (calm_variableIn scope target).next h₁ fun u m₂ h₂ hfound hcalm => ?_
  obtain ⟨owner, howner, hu⟩ := variableIn_ok hfound
  rw [← hcalm.environment] at howner hu
  refine sparing_convert h₂ fun v hv => ?_
  refine (sparing_rebind h₂ howner hu hv).bind fun _ m₃ h₃ _ => ?_
  exact ((calm_trace _ _).sparing h₃).imp fun _ _ _ _ => trivial

/-- An assignment to a slot writes into one array, which one variable holds. -/
theorem Spares.assignSlot (target : Occurrence) (element : Expr) (value : Operand)
    (h : m₀.Spared p m) :
    Sparing p m₀ (below.assignSlot target element value) m fun _ _ => True := by
  refine calm_activeScope.next h fun scope m₁ h₁ _ _ => ?_
  refine (calm_variableIn scope target).next h₁ fun u m₂ h₂ _ _ => ?_
  refine (sparing_readVariable below _ target h₂).bind fun array m₃ h₃ hgives => ?_
  split
  · next address _ =>
    obtain ⟨-, id, hheld⟩ := hgives.2 address rfl
    -- the variable holds the array now, but perhaps not when it is written into
    refine Sparing.behind ?_ h₃
    have hm₃ := h₃.owned
    refine (hbelow.evaluateInteger (.refl hm₃) _ element).bind fun index m₄ h₄ _ => ?_
    refine (calm_reveal value).next h₄ fun v m₅ h₅ _ _ => ?_
    refine (calm_settle _ _).next h₅ fun content m₆ h₆ _ _ => ?_
    have hset : Sparing p m₃ (setSlot address index content) m₆ fun _ _ => True := by
      unfold Sparing
      rw [setSlot_apply]
      cases Value.setSlotAt (m₆.store.slots address) index (some content) with
      | error fault => exact h₆
      | ok slots => exact ⟨.write hm₃ h₆ hheld slots, trivial⟩
    refine hset.bind fun _ m₇ h₇ _ => ?_
    exact ((calm_trace _ _).sparing h₇).imp fun _ _ _ _ => trivial
  · exact (calm_reveal _).next h₃ fun _ _ h₄ _ _ => sparing_fail h₄

/-- An assignment spares the arrays, wherever it goes. -/
theorem Spares.assign (target : Occurrence) (element : Option Expr) (value : Operand)
    (h : m₀.Spared p m) :
    Sparing p m₀ (below.assign target element value) m fun _ _ => True := by
  cases element with
  | none => exact sparing_assignVariable target value h
  | some e => exact hbelow.assignSlot target e value h

omit hbelow in
/-- An answer that is converted and bound spares the arrays. -/
theorem sparing_readInto {target : Occurrence} {scope owner : Nat} {v : Variable}
    (howner : m.environment.owner? scope target.name = some owner)
    (hv : (m.environment.scope owner).vars.find? target.name = some v)
    (h : m₀.Spared p m) :
    Sparing p m₀ (readInto scope target v.type) m fun _ _ => True := by
  refine (calm_nextAnswer _ _).next h fun answer m₁ h₁ _ hcalm => ?_
  rw [← hcalm.environment] at howner hv
  refine sparing_convert h₁ fun u hu => ?_
  refine (sparing_rebind h₁ howner hv hu).bind fun _ m₂ h₂ _ => ?_
  exact ((calm_trace _ _).sparing h₂).imp fun _ _ _ _ => trivial

omit hbelow in
/-- An `input` spares the arrays. -/
theorem sparing_executeInput (target : Occurrence) (h : m₀.Spared p m) :
    Sparing p m₀ (executeInput target) m fun _ _ => True := by
  rw [executeInput_eq]
  refine calm_activeScope.next h fun scope m₁ h₁ _ _ => ?_
  refine (calm_variableIn scope target).next h₁ fun u m₂ h₂ hfound hcalm => ?_
  obtain ⟨owner, howner, hu⟩ := variableIn_ok hfound
  split
  · exact sparing_fail h₂
  · rw [← hcalm.environment] at howner hu
    exact sparing_readInto howner hu h₂

omit hbelow in
/-- A result that leaves spares the arrays. -/
theorem sparing_leaveWith (result : Option Operand) (h : m₀.Spared p m) :
    Sparing p m₀ (leaveWith result) m fun _ _ => True :=
  (calm_tick _).next h fun _ _ h' _ _ => h'

omit hbelow in
/-- An `output` spares the arrays, and what becomes of its operand is known. -/
theorem sparing_write {operand : Operand} (h : m₀.Spared p m) (hmade : m.store.Made operand)
    (hapart : ¬ p.Exposes operand → m₀.Apart m operand) :
    Sparing p m₀ (write operand) m fun _ _ => True := by
  unfold Sparing write
  rw [get_bind_apply, bind_apply]
  cases htext : m.textOf operand with
  | error fault => exact h
  | ok text => exact ⟨h.emit hmade fun hno => ⟨htext, hapart hno⟩, trivial⟩

/-- The further branches of a conditional spare the arrays. -/
theorem Spares.executeBranches (forest : Forest Operator) (fallback : Option Nat) :
    ∀ (branches : List Nat) {m : Machine}, m₀.Spared p m →
      Sparing p m₀ (executeBranches forest below fallback branches) m fun _ _ => True
  | [], _, h => by
    unfold Level.executeBranches
    cases fallback with
    | none => exact sparing_pure h trivial
    | some index => exact hbelow.executeAll _ h
  | index :: rest, _, h => by
    unfold Level.executeBranches
    split
    · refine (hbelow.testGuard h _).bind fun holds m' h' _ => ?_
      split
      · exact hbelow.executeAll _ h'
      · exact Spares.executeBranches forest fallback rest h'
    · exact sparing_fail h

/-- An expression in the innermost scope. -/
theorem Spares.evaluateHere (h : m₀.Spared p m) (e : Expr) :
    Sparing p m₀ (activeScope >>= fun scope => below.evaluate (some scope) e) m
      (p.Yields m e) := by
  refine calm_activeScope.next h fun scope m₁ h₁ _ hcalm => ?_
  refine (hbelow.evaluates h₁ (some scope) e).imp fun operand m₂ _ hyields => ?_
  exact hyields.imp_right fun hor => hor.imp_right fun hapart =>
    hapart.earlier (.of_calm h.owned hcalm)

/-- Every operator of the next level spares the arrays. -/
theorem Spares.executeNode (hm : m.Owned p) (index : Nat) :
    Sparing p m (executeNode p below index) m fun _ _ => True := by
  refine (calm_tick _).next (.refl hm) fun _ m₁ h₁ _ _ => ?_
  cases hnode : p.forest.nodes[index]? with
  | none => exact sparing_fail h₁
  | some node =>
    refine (calm_trace _ _).next h₁ fun _ m₂ h₂ _ _ => ?_
    have hnested : ∀ m', m.Spared p m' → Sparing p m
        (below.executeAll (p.forest.children index)) m' fun _ _ => True :=
      fun m' h' => hbelow.executeAll _ h'
    dsimp only
    cases hoperator : node.operator with
    | module name number =>
      refine sparing_within ?_ fun _ _ _ _ h => h
      have hentered := h₂.trans (.enter h₂.owned (.empty p m₂) none name)
      -- a module that goes on record holds nothing by that
      have hrecord : (modify fun m => Machine.recordModule m name m₂.environment.scopes.size
          : Exec Unit).Calm := fun m =>
        ⟨rfl, rfl, rfl, [], (List.append_nil _).symm, fun _ _ h => nomatch h⟩
      exact hrecord.next hentered fun _ m₃ h₃ _ _ => hnested m₃ h₃
    | beginning => exact hnested m₂ h₂
    | branch guard =>
      refine (hbelow.testGuard h₂ guard).bind fun holds m₃ h₃ _ => ?_
      split
      · exact hnested m₃ h₃
      · exact hbelow.executeBranches _ _ _ h₃
    | loop guard =>
      exact sparing_loop (fun m' h' => hbelow.testGuard h' guard) hnested h₂
    | declaration t name initial =>
      refine hbelow.executeDeclaration (fun harray => ?_) h₂ initial
      exact ⟨t, harray, .inl ⟨index, node, initial, hnode, hoperator⟩⟩
    | assignment target element value =>
      refine calm_activeScope.next h₂ fun scope m₃ h₃ _ _ => ?_
      refine (hbelow.evaluates h₃ _ value).bind fun operand m₄ h₄ _ => ?_
      exact hbelow.assign target element operand h₄
    | input target => exact sparing_executeInput target h₂
    | output value =>
      refine calm_activeScope.next h₂ fun scope m₃ h₃ _ _ => ?_
      refine (hbelow.evaluates h₃ _ value).bind fun operand m₄ h₄ hyields => ?_
      obtain ⟨hmade, hread | hapart⟩ := hyields
      · obtain ⟨target, rfl, hdeclares⟩ := hread
        have hwrites : p.WritesArrays := ⟨index, node, target, hnode, hoperator, hdeclares⟩
        refine sparing_write h₄ hmade fun hno address heq => ?_
        exact absurd ⟨hwrites, address, heq⟩ hno
      · exact sparing_write h₄ hmade fun _ => hapart.earlier h₃
    | call name callee arguments =>
      have hevaluate := fun e m' (h' : m.Spared p m') =>
        (hbelow.evaluateHere h' e).imp fun _ _ _ _ => trivial
      refine (sparing_mapM hevaluate arguments h₂).bind fun operands m₃ h₃ _ => ?_
      refine ((hbelow.call m₃ callee operands h₃.owned).behind h₃).bind fun _ m₄ h₄ _ => ?_
      exact sparing_pure h₄ trivial
    | giveBack result =>
      cases result with
      | none => exact sparing_leaveWith none h₂
      | some e =>
        refine calm_activeScope.next h₂ fun scope m₃ h₃ _ _ => ?_
        exact (hbelow.evaluates h₃ _ e).bind fun operand m₄ h₄ _ => sparing_leaveWith _ h₄
    | function _ _ | method _ _ | classDeclaration _ _ => exact sparing_pure h₂ trivial
    | elseIf _ | elseBranch => exact sparing_fail h₂

/-! ### Calls -/

omit hbelow in
/-- Parameters take new cells. -/
theorem bindParameters_takes (hm : m.Owned p) : ∀ (parameters : List Parameter)
    (arguments : List Operand) {store : Store} {bound : Variables},
    (∀ q ∈ parameters, q.type.isArray = true → p.DeclaresArray q.name) →
    m.Takes p store bound →
    match bindParameters parameters arguments bound { m with store } with
    | .ok bound' m' => ∃ store', m' = { m with store := store' } ∧ m.Takes p store' bound'
    | .error _ m' => m.Spared p m' := by
  intro parameters
  induction parameters with
  | nil => exact fun arguments store bound _ h => ⟨store, rfl, h⟩
  | cons q parameters ih =>
    intro arguments store bound hnames h
    obtain ⟨hname, hnames⟩ := List.forall_mem_cons.mp hnames
    cases arguments with
    | nil => exact ⟨store, rfl, h⟩
    | cons a arguments =>
      rw [bindParameters_cons]
      cases hv : (store.reveal a).convert q.type with
      | error fault =>
        have hspared := h.spared hm
        exact hspared.trans (.of_calm hspared.owned (.refuse _ _))
      | ok v =>
        dsimp only
        cases hdeclare : bound.declare q.name ⟨q.type, some (.held (store.keep v).1)⟩ with
        | error fault =>
          have hspared := h.spared hm
          exact hspared.trans (.keep hspared.owned v)
        | ok bound' => exact ih arguments hnames (h.declare hname hv hdeclare)

omit hbelow in
/-- A result is converted, and what is made of an array is nobody's. -/
theorem sparing_callResult (f : FunctionDeclaration) (result : Option Operand)
    (h : m₀.Spared p m) :
    Sparing p m₀ (callResult f result) m fun result m' =>
      ∀ operand, result = some operand → m₀.Apart m' operand := by
  cases htype : f.result with
  | none =>
    unfold callResult
    rw [htype]
    exact sparing_pure h fun _ heq => nomatch heq
  | some type =>
    cases result with
    | none =>
      unfold callResult
      rw [htype]
      exact sparing_fail h
    | some operand =>
      unfold Sparing
      rw [callResult_apply htype]
      cases (m.store.reveal operand).convert type with
      | error fault => exact h.trans (.of_calm h.owned (.refuse m _))
      | ok v =>
        -- a new cell is made for what is given back
        refine ⟨h.trans (.keep h.owned v), fun operand heq => ?_⟩
        cases heq
        exact (h.owned.apart_keep v).earlier h

/-- A call spares the arrays, and gives none that a variable holds. -/
theorem Spares.enterCall (callee : Callee) (arguments : List Operand) (hm : m.Owned p) :
    Sparing p m (enterCall p below (p.function callee) arguments) m fun result m' =>
      ∀ operand, result = some operand → m.Apart m' operand := by
  generalize hf : p.function callee = f
  refine (calm_moduleScope _).next (.refl hm) fun module m₁ h₁ _ _ => ?_
  have hnames : ∀ q ∈ f.parameters, q.type.isArray = true → p.DeclaresArray q.name :=
    fun q hq harray => ⟨q.type, harray, .inr ⟨callee, hf ▸ hq⟩⟩
  have hbind := bindParameters_takes h₁.owned f.parameters arguments hnames (.empty p m₁)
  unfold Sparing
  rw [bind_apply]
  cases hrun : bindParameters f.parameters arguments Variables.empty m₁ with
  | error halt m₂ =>
    simp only [hrun] at hbind ⊢
    exact h₁.trans hbind
  | ok bound m₂ =>
    simp only [hrun] at hbind ⊢
    obtain ⟨store, rfl, htakes⟩ := hbind
    refine sparing_within ?_ fun result m' m'' hspared hapart operand heq =>
      (hapart operand heq).later hspared
    have hentered := h₁.trans (.enter h₁.owned htakes (some module) f.fullName)
    refine (calm_trace _ _).next hentered fun _ m₃ h₃ _ _ => ?_
    refine (sparing_runBody (hbelow.executeAll _ h₃)).bind fun result m₄ h₄ _ => ?_
    exact sparing_callResult f result h₄

/-- So does every call of the next level. -/
theorem Spares.callNode (callee : Callee) (arguments : List Operand) (hm : m.Owned p) :
    Sparing p m (callNode p below callee arguments) m fun result m' =>
      ∀ operand, result = some operand → m.Apart m' operand := by
  unfold Level.callNode
  dsimp only
  split
  · exact Spared.refl hm
  · exact hbelow.enterCall callee arguments hm

end

/-- Every level of a running program spares the arrays. -/
theorem spares_running (p : Program) : ∀ depth, (running p depth).Spares p
  | 0 => spares_bottom
  | depth + 1 =>
    have below := spares_running p depth
    { evaluate := fun _ scope e hm => below.evaluateNode hm scope e
      execute := fun _ index hm => below.executeNode hm index
      call := fun _ callee arguments hm => below.callNode callee arguments hm }

end Level

/-! ## Runs -/

theorem calm_traceOutline (p : Program) : p.traceOutline.Calm := by
  have hlines : ∀ lines : List String,
      (lines.forM fun line => trace 1 fun _ => .ok ("tree " ++ line)).Calm := by
    intro lines
    induction lines with
    | nil => exact calm_pure ()
    | cons line lines ih => exact (calm_trace _ _).bind fun _ => ih
  refine calm_get fun m => ?_
  split
  · exact (calm_lift _).bind hlines
  · exact calm_pure ()

/-- A whole run spares the arrays. -/
theorem sparing_run (p : Program) {m : Machine} (hm : m.Owned p) :
    Sparing p m p.run m fun _ _ => True := by
  refine (calm_traceOutline p).next (.refl hm) fun _ m₁ h₁ _ _ => ?_
  have hclose : ∀ m : Machine, m.Owned p → m.Spared p m.closeTrace := fun m hm =>
    .of_calm hm ⟨rfl, rfl, rfl, [], (List.append_nil _).symm, fun _ _ h => nomatch h⟩
  refine Sparing.andThenTidy ?_ hclose fun _ _ _ _ h => h
  refine sparing_forM (fun index m' h' => ?_) p.forest.roots h₁
  exact ((Level.spares_running p levelLimit).execute m' index h'.owned).behind h'

/-- Before anything is run there are no arrays. -/
theorem Machine.owned_fresh (p : Program) (answers : List String) (interactive : Bool)
    (verbosity ticks : Nat) : Owned p { answers, interactive, verbosity, ticks } :=
  ⟨fun _ => Variables.plain_nil, fun _ _ hheld => absurd hheld Variables.not_holds_empty,
    fun _ _ _ _ _ howns => absurd howns.holds Variables.not_holds_empty⟩

/-- In every state of a run, every array is that of one variable. -/
theorem Program.Reaches.owned {p : Program} {m : Machine} (h : p.Reaches m) :
    m.Owned p := by
  obtain ⟨answers, interactive, verbosity, ticks, rfl⟩ := h
  rw [p.stateAfter_eq]
  exact (sparing_run p (owned_fresh p answers interactive verbosity ticks)).final.owned

end Pseudocode
