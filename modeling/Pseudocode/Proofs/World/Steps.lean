import Pseudocode.Proofs.World

/-!
# What computations make of worlds

`Exec.Does` is the statement that a computation, started in a state that a world
describes, ends in a state that some world describes again, and that a suspended
one stands in a state where a variable about to be looked up is explained.  The
rules follow the way computations are put together; the rest of the module goes
through the small computations that the interpreter is made of.

It has two parameters for what is known at the end.  `ends` says how the world has changed,
however the computation ended; `gives` says more of it, and of the result, if there is one.
A sequence adds the changes up (`Does.bind`); for the usual cases, nothing changed, only
cells were added, or the innermost scope has grown, there are rules with those words for
names (`Does.next`, `Does.calmly`, `Does.growing`).

Most steps change nothing that a world tells of (`Still`).  The others are few: a value is
kept, a variable is declared or bound, a slot is written, a scope is entered and closed.
-/

namespace Pseudocode

open Exec Machine

/-- A state in which a run may be suspended. -/
def Program.Admits (p : Program) (c : Chart) (m : Machine) : Prop :=
  (∃ w : World, w.Describes p c { m with pending := none }) ∧
    ∀ a, m.pending = some a → p.Explains m a

/-- The state in which a computation has ended is one that some world describes.
`ends` is what is known of that world if the computation was not suspended, and
`gives` if it has a result. -/
abbrev Exec.Leads {α : Type} (p : Program) (c : Chart) (ends : World → Prop)
    (gives : α → World → Prop) : EStateM.Result Halt Machine α → Prop
  | .ok a m => ∃ w : World, w.Describes p c m ∧ ends w ∧ gives a w
  | .error .suspended m => p.Admits c m
  | .error _ m => ∃ w : World, w.Describes p c m ∧ ends w

/-- From states that a world describes, a computation goes to such states. -/
def Exec.Does {α : Type} (p : Program) (c : Chart) (w : World) (x : Exec α)
    (ends : World → Prop) (gives : α → World → Prop) : Prop :=
  ∀ m : Machine, w.Describes p c m → Leads p c ends gives (x m)

variable {α β : Type} {p : Program} {c : Chart} {w : World}

/-- A state that a world describes is admitted. -/
theorem World.Describes.admits {m : Machine} (h : w.Describes p c m) :
    p.Admits c m := by
  refine ⟨⟨w, h.same ⟨⟨rfl, rfl⟩, rfl, rfl, h.idle.symm⟩⟩, fun a ha => ?_⟩
  rw [h.idle] at ha
  cases ha

namespace Exec.Does

variable {x : Exec α} {f : α → Exec β} {ends ends' : World → Prop}
  {gives gives' : α → World → Prop} {result : β → World → Prop}

/-- Less may be said of how a computation ends. -/
theorem imp (h : Does p c w x ends gives) (hends : ∀ w', ends w' → ends' w')
    (hgives : ∀ a w', ends w' → gives a w' → gives' a w') :
    Does p c w x ends' gives' := by
  intro m hm
  have hx := h m hm
  cases hrun : x m with
  | ok a m' =>
    simp only [hrun] at hx ⊢
    obtain ⟨w', hw', hend, hgive⟩ := hx
    exact ⟨w', hw', hends w' hend, hgives a w' hend hgive⟩
  | error halt m' =>
    simp only [hrun] at hx ⊢
    cases halt with
    | suspended => exact hx
    | fault _ | returned _ =>
      obtain ⟨w', hw', hend⟩ := hx
      exact ⟨w', hw', hends w' hend⟩

/-- A computation, and another one that starts in the world that the first left. -/
theorem bind (h : Does p c w x ends gives) (hends : ∀ w', ends w' → ends' w')
    (hf : ∀ a w', ends w' → gives a w' → Does p c w' (f a) ends' result) :
    Does p c w (x >>= f) ends' result := by
  intro m hm
  have hx := h m hm
  rw [bind_apply]
  cases hrun : x m with
  | ok a m' =>
    simp only [hrun] at hx ⊢
    obtain ⟨w', hw', hend, hgive⟩ := hx
    exact hf a w' hend hgive m' hw'
  | error halt m' =>
    simp only [hrun] at hx ⊢
    cases halt with
    | suspended => exact hx
    | fault _ | returned _ =>
      obtain ⟨w', hw', hend⟩ := hx
      exact ⟨w', hw', hends w' hend⟩

/-- A part that leaves the world as it is. -/
theorem next (h : Does p c w x (· = w) gives) (hends : ends w)
    (hf : ∀ a, gives a w → Does p c w (f a) ends result) :
    Does p c w (x >>= f) ends result := by
  refine h.bind (fun w' hw' => hw' ▸ hends) fun a w' hw' hgive => ?_
  subst hw'
  exact hf a hgive

/-- A part that leaves the frames as they are. -/
theorem calmly (h : Does p c w x w.Calm gives)
    (hf : ∀ a w', w.Calm w' → gives a w' → Does p c w' (f a) w'.Calm result) :
    Does p c w (x >>= f) w.Calm result :=
  h.bind (fun _ hcalm => hcalm) fun a w' hcalm hgive =>
    (hf a w' hcalm hgive).imp (fun _ => hcalm.trans) fun _ _ _ h => h

/-- A part that may declare variables. -/
theorem growing (h : Does p c w x w.Grown gives)
    (hf : ∀ a w', w.Grown w' → gives a w' → Does p c w' (f a) w'.Grown result) :
    Does p c w (x >>= f) w.Grown result :=
  h.bind (fun _ hgrown => hgrown) fun a w' hgrown hgive =>
    (hf a w' hgrown hgive).imp (fun _ => hgrown.trans) fun _ _ _ h => h

/-- A part that leaves the frames as they are, before one that may declare. -/
theorem before (h : Does p c w x w.Calm gives)
    (hf : ∀ a w', w.Calm w' → gives a w' → Does p c w' (f a) w'.Grown result) :
    Does p c w (x >>= f) w.Grown result :=
  h.bind (fun _ hcalm => hcalm.grown) fun a w' hcalm hgive =>
    (hf a w' hcalm hgive).imp (fun _ => hcalm.grown.trans) fun _ _ _ h => h

/-- What leaves the frames as they are does not lose any. -/
theorem grown (h : Does p c w x w.Calm gives) : Does p c w x w.Grown gives :=
  h.imp (fun _ hcalm => hcalm.grown) fun _ _ _ h => h

/-- What leaves the world as it is adds no cells. -/
theorem calm (h : Does p c w x (· = w) gives) : Does p c w x w.Calm gives :=
  h.imp (fun _ heq => heq ▸ .refl w) fun _ _ _ h => h

end Exec.Does

/-- A computation that goes on from the outcome of another one, and only passes on
its suspension. -/
theorem Exec.leads_attempt {x : Exec α} {f : Except Halt α → Exec β} {m : Machine}
    {ends ends' : World → Prop} {gives : α → World → Prop} {result : β → World → Prop}
    (h : Leads p c ends gives (x m))
    (hf : ∀ outcome w', outcome ≠ .error .suspended → ends w' →
      (∀ a, outcome = .ok a → gives a w') → Does p c w' (f outcome) ends' result)
    (hsuspended : f (.error .suspended) = throw .suspended) :
    Leads p c ends' result ((x.attempt >>= f) m) := by
  rw [attempt_bind_apply]
  cases hrun : x m with
  | ok a m' =>
    rw [hrun] at h
    obtain ⟨w', hw', hend, hgive⟩ := h
    exact hf (.ok a) w' (by simp) hend (fun _ ha => by cases ha; exact hgive) m' hw'
  | error halt m' =>
    rw [hrun] at h
    cases halt with
    | suspended =>
      simp only [hsuspended]
      exact h
    | fault fault =>
      obtain ⟨w', hw', hend⟩ := h
      exact hf (.error (.fault fault)) w' (by simp) hend (fun _ ha => nomatch ha) m' hw'
    | returned given =>
      obtain ⟨w', hw', hend⟩ := h
      exact hf (.error (.returned given)) w' (by simp) hend (fun _ ha => nomatch ha) m' hw'

/-- A result leaves the world as it is. -/
theorem Exec.does_pure {ends : World → Prop} {gives : α → World → Prop} {a : α}
    (hends : ends w) (hgives : gives a w) :
    Does p c w (pure a : Exec α) ends gives :=
  fun _ hm => ⟨w, hm, hends, hgives⟩

/-- A failure leaves the world as it is. -/
theorem Exec.does_fail {ends : World → Prop} {gives : α → World → Prop}
    (fault : Fault) (hends : ends w) : Does p c w (fail fault : Exec α) ends gives :=
  fun _ hm => ⟨w, hm, hends⟩

/-! ## Computations that change no world

Most steps only read, trace or fail.  They need no rule of their own for every world: whatever
world describes the state before them describes the one behind (`Still`). -/

namespace Exec

/-- A computation that changes nothing that worlds speak of. -/
def Still (x : Exec α) : Prop :=
  ∀ m : Machine,
    match x m with
    | .ok _ m' => m.Same m'
    | .error .suspended _ => False
    | .error _ m' => m.Same m'

/-- What changes nothing that a world tells of leaves it as it is. -/
theorem Still.does {x : Exec α} (h : x.Still) :
    Does p c w x (· = w) fun _ _ => True := by
  intro m hm
  have hx := h m
  cases hrun : x m with
  | ok a m' =>
    simp only [hrun] at hx ⊢
    exact ⟨w, hm.same hx, rfl, trivial⟩
  | error halt m' =>
    simp only [hrun] at hx ⊢
    cases halt with
    | suspended => exact hx.elim
    | fault _ | returned _ => exact ⟨w, hm.same hx, rfl⟩

/-- Two computations that change nothing of the kind. -/
theorem Still.bind {x : Exec α} {f : α → Exec β} (hx : x.Still)
    (hf : ∀ a, (f a).Still) : (x >>= f).Still := by
  intro m
  have hx' := hx m
  rw [bind_apply]
  cases hrun : x m with
  | error halt m' =>
    simp only [hrun] at hx' ⊢
    cases halt with
    | suspended => exact hx'
    | fault _ | returned _ => exact hx'
  | ok a m' =>
    simp only [hrun] at hx' ⊢
    have hf' := hf a m'
    have htrans : ∀ m'', m'.Same m'' → m.Same m'' := fun m'' h =>
      ⟨⟨h.alike.environment.trans hx'.alike.environment,
        h.alike.frames.trans hx'.alike.frames⟩, h.modules.trans hx'.modules,
        h.store.trans hx'.store, h.pending.trans hx'.pending⟩
    cases hrun' : f a m' with
    | ok b m'' =>
      simp only [hrun'] at hf' ⊢
      exact htrans m'' hf'
    | error halt m'' =>
      simp only [hrun'] at hf' ⊢
      cases halt with
      | suspended => exact hf'
      | fault _ | returned _ => exact htrans m'' hf'

theorem still_pure (a : α) : (pure a : Exec α).Still :=
  fun _ => ⟨⟨rfl, rfl⟩, rfl, rfl, rfl⟩

theorem still_fail (fault : Fault) : (fail fault : Exec α).Still :=
  fun _ => ⟨⟨rfl, rfl⟩, rfl, rfl, rfl⟩

theorem still_returned (result : Option Operand) :
    (throw (.returned result) : Exec α).Still :=
  fun _ => ⟨⟨rfl, rfl⟩, rfl, rfl, rfl⟩

theorem still_lift (x : Except Fault α) : (lift x).Still := by
  cases x with
  | ok a => exact still_pure a
  | error fault => exact still_fail fault

theorem still_get {f : Machine → Exec α} (hf : ∀ m, (f m).Still) :
    (get >>= f : Exec α).Still := by
  intro m
  rw [get_bind_apply]
  exact hf m m

theorem still_reveal (operand : Operand) : (reveal operand).Still :=
  still_get fun _ => still_pure _

/-- A conversion that failed and is kept is nothing that a world tells of. -/
theorem still_settle (c : Conversion) (x : Except Fault α) : (settle c x).Still := by
  cases x with
  | ok a => exact still_pure a
  | error fault => exact fun _ => ⟨⟨rfl, rfl⟩, rfl, rfl, rfl⟩

theorem still_emit (event : Event) : (emit event).Still :=
  fun _ => ⟨⟨rfl, rfl⟩, rfl, rfl, rfl⟩

theorem still_trace (level : Nat) (message : Machine → Except Fault String) :
    (trace level message).Still := by
  refine still_get fun m => ?_
  split
  · exact (still_lift _).bind fun _ => still_emit _
  · exact still_pure ()

/-- To take an answer is nothing that a world tells of. -/
theorem still_nextAnswer (name : String) (t : DeclaredType) :
    (nextAnswer name t).Still := by
  rw [nextAnswer_eq]
  refine still_get fun m => ?_
  have hanswer : ∀ fault, (takeAnswer fault m.answers).Still := by
    intro fault
    cases m.answers with
    | nil => exact still_fail _
    | cons answer answers =>
      have hset : (modify fun m => { m with answers } : Exec Unit).Still :=
        fun _ => ⟨⟨rfl, rfl⟩, rfl, rfl, rfl⟩
      exact hset.bind fun _ => still_pure _
  dsimp only
  split
  · exact (still_emit _).bind fun _ => hanswer _
  · exact hanswer _

/-- Nor is to write a value. -/
theorem still_write (operand : Operand) : (Level.write operand).Still := by
  have hwrite : (get >>= fun m : Machine => lift (m.textOf operand) >>= fun text =>
      emit (.written operand text)).Still :=
    still_get fun _ => (still_lift _).bind fun _ => still_emit _
  exact hwrite

end Exec

/-! ## Ticks and scopes

The active scope is the innermost frame of the world, and a variable is looked for along the
chain that the world lists.  This is where types of variables become types of operands. -/

namespace Exec

variable {label : Label} {scope : Nat}

/-- A tick with nothing to be looked up behind it. -/
theorem does_tick : Does p c w tick (· = w) fun _ _ => True := by
  intro m hm
  cases hticks : m.ticks with
  | zero =>
    rw [tick_of_zero hticks]
    exact ⟨⟨w, hm.same ⟨⟨rfl, rfl⟩, rfl, rfl, hm.idle.symm⟩⟩, fun _ h => nomatch h⟩
  | succ ticks =>
    rw [tick_of_succ hticks]
    exact ⟨w, hm.same ⟨⟨rfl, rfl⟩, rfl, rfl, rfl⟩, rfl, trivial⟩

/-- The innermost scope is that of the world. -/
theorem does_activeScope (hat : w.At p c label scope) :
    Does p c w activeScope (· = w) fun a _ => scope = a := by
  intro m hm
  obtain ⟨top, rest, hframes, rfl, -⟩ := hat
  have hscopes : m.frames = top.scope :: rest.map Frame.scope := by
    rw [hm.frames, hframes]
    rfl
  rw [activeScope_apply hscopes]
  exact ⟨w, hm, rfl, rfl⟩

/-- A variable is found in the frame that the world tells, and holds an operand of
its type. -/
theorem does_variableIn (hanchored : Anchored p c) (hat : w.At p c label scope)
    {target : Occurrence} (htarget : c.Resolves p label target) :
    Does p c w (variableIn scope target) (· = w) fun v _ =>
      ∃ f operand, w.owner? target.name = some f ∧
        p.Declares f.code target.name v.type ∧ v.binding = some (.held operand) ∧
        operand.Holds w.cells v.type := by
  intro m hm
  unfold variableIn
  rw [bind_apply]
  cases hticks : m.ticks with
  | zero =>
    rw [tick_of_zero hticks]
    refine ⟨⟨w, hm.same ⟨⟨rfl, rfl⟩, rfl, rfl, hm.idle.symm⟩⟩, ?_⟩
    -- the run stands right before the look-up, and the label explains it
    rintro _ ⟨⟩
    exact hm.explains hanchored hat htarget
  | succ ticks =>
    rw [tick_of_succ hticks]
    have hm' : w.Describes p c { m with ticks } :=
      hm.same ⟨⟨rfl, rfl⟩, rfl, rfl, rfl⟩
    simp only [get_bind_apply]
    obtain ⟨top, rest, hframes, rfl, -⟩ := hat
    unfold Environment.lookup Environment.find?
    rw [hm.owner?_eq hframes]
    cases howner : w.owner? target.name with
    | none => exact ⟨w, hm', rfl⟩
    | some f =>
      obtain ⟨hf, hname⟩ := World.Describes.owner?_mem howner
      have hfits := hm.scopes f hf
      obtain ⟨v, hv⟩ := Option.isSome_iff_exists.mp ((hm.has_iff hf _).mpr hname)
      have hentry := Variables.mem_of_find? hv
      obtain ⟨operand, hbinding, hholds⟩ := hfits.held _ v hentry
      have hdeclares := hfits.declared _ _
        (hfits.signature ▸ Variables.mem_signature hentry)
      have hfound : (Option.map Frame.scope (some f)).bind (fun scope =>
          (m.environment.scope scope).vars.find? target.name) = some v := hv
      rw [hfound]
      exact ⟨w, hm', rfl, f, operand, rfl, hdeclares, hbinding, hholds⟩

end Exec

/-! ## Variables

To declare a variable adds it to the innermost frame unless it is there, to bind one leaves the
frame as it is.  Both need a value of the variable's type, which conversion gives. -/

namespace Environment

variable {env : Environment} {id i : Nat} {change : Variables → Variables}

/-- Only the variables of a scope change. -/
theorem modifyVariables_scope : ∃ vars,
    (env.modifyVariables id change).scope i = { env.scope i with vars } := by
  by_cases hi : i = id
  · subst hi
    by_cases hlt : i < env.scopes.size
    · exact ⟨_, scope_modifyVariables change hlt⟩
    · exact ⟨_, by rw [modifyVariables_of_le change (Nat.le_of_not_lt hlt)]⟩
  · exact ⟨_, scope_modifyVariables_ne change hi⟩

/-- Scopes stay inside the same scopes when variables change. -/
theorem outer_modifyVariables :
    ((env.modifyVariables id change).scope i).outer = (env.scope i).outer := by
  obtain ⟨vars, hscope⟩ : ∃ vars, _ = { env.scope i with vars } :=
    modifyVariables_scope
  rw [hscope]

/-- Scopes keep their names when variables change. -/
theorem name_modifyVariables :
    ((env.modifyVariables id change).scope i).name = (env.scope i).name := by
  obtain ⟨vars, hscope⟩ : ∃ vars, _ = { env.scope i with vars } :=
    modifyVariables_scope
  rw [hscope]

end Environment

/-- The frames do not depend on the variables. -/
theorem Stack.modify {m : Machine} {calls : List Frame} {root : Frame}
    (h : Stack p c m calls root) (id : Nat) (change : Variables → Variables) :
    Stack p c { m with environment := m.environment.modifyVariables id change } calls
      root := by
  refine ⟨h.outside, Environment.outer_modifyVariables.trans h.outer, ?_, ?_⟩
  · obtain ⟨d, hd, hname, hlookup⟩ := h.module
    exact ⟨d, hd, Environment.name_modifyVariables.trans hname, hlookup⟩
  · intro f hf
    obtain ⟨houter, hcode⟩ := h.calls f hf
    exact ⟨Environment.outer_modifyVariables.trans houter, hcode⟩

namespace World.Describes

variable {m : Machine} {change : Variables → Variables}

/-- Variables of an open scope are bound anew. -/
theorem modify (h : w.Describes p c m) {f : Frame} (hf : f ∈ w.frames)
    (hsignature : (change (m.environment.scope f.scope).vars).signature =
      (m.environment.scope f.scope).vars.signature)
    (hheld : (change (m.environment.scope f.scope).vars).Held w.cells) :
    w.Describes p c
      { m with environment := m.environment.modifyVariables f.scope change } := by
  have hid : f.scope ∈ m.frames := h.frames ▸ List.mem_map_of_mem hf
  have hearlier : (m.environment.scope f.scope).vars.signature <+:
      (change (m.environment.scope f.scope).vars).signature := by
    rewrite [hsignature]
    exact List.prefix_refl _
  have hkept := kept_modifyVariables h.tidy hid hearlier
  refine ⟨h.idle, hkept.tidy, h.frames, h.store, fun f' hf' => ?_, ?_⟩
  · have hfits := h.scopes f' hf'
    -- frames have different scopes, so only one of them sees the change
    by_cases heq : f'.scope = f.scope
    · show f'.Fits p w.cells ((m.environment.modifyVariables f.scope change).scope f'.scope)
      rw [heq] at hfits ⊢
      rw [Environment.scope_modifyVariables change (h.tidy.made _ hid)]
      exact ⟨hsignature.trans hfits.signature, hheld, hfits.declared⟩
    · show f'.Fits p w.cells ((m.environment.modifyVariables f.scope change).scope f'.scope)
      rwa [Environment.scope_modifyVariables_ne change heq]
  · exact h.stack.imp_right fun ⟨calls, root, hshape, hstack⟩ =>
      ⟨calls, root, hshape, hstack.modify _ _⟩

/-- The innermost scope gets further variables. -/
theorem declare (h : w.Describes p c m) {top : Frame} {rest : List Frame}
    (hframes : w.frames = top :: rest) {declared : List (String × DeclaredType)}
    (hearlier : top.declared <+: declared)
    (hfits : Frame.Fits p w.cells { top with declared }
      { m.environment.scope top.scope with
        vars := change (m.environment.scope top.scope).vars }) :
    World.Describes p c { w with frames := { top with declared } :: rest }
      { m with environment := m.environment.modifyVariables top.scope change } := by
  have htop : top ∈ w.frames := hframes ▸ List.mem_cons_self ..
  have hid : top.scope ∈ m.frames := h.frames ▸ List.mem_map_of_mem htop
  have hsignature : (m.environment.scope top.scope).vars.signature <+:
      (change (m.environment.scope top.scope).vars).signature := by
    rw [(h.scopes top htop).signature]
    exact hfits.signature ▸ hearlier
  have hkept := kept_modifyVariables h.tidy hid hsignature
  refine ⟨h.idle, hkept.tidy, ?_, h.store, fun f hf => ?_, ?_⟩
  · show m.frames = _
    rw [h.frames, hframes]
    rfl
  · show f.Fits p w.cells ((m.environment.modifyVariables top.scope change).scope f.scope)
    obtain rfl | hf := List.mem_cons.mp hf
    · rw [Environment.scope_modifyVariables change (h.tidy.made _ hid)]
      exact hfits
    · have honce := h.tidy.once
      rw [h.frames, hframes, List.map_cons, List.nodup_cons] at honce
      have hne : f.scope ≠ top.scope := fun heq =>
        honce.1 (heq ▸ List.mem_map_of_mem hf)
      rw [Environment.scope_modifyVariables_ne change hne]
      exact h.scopes f (hframes ▸ List.mem_cons_of_mem _ hf)
  · right
    -- the innermost frame is the module itself or a call in it
    obtain ⟨rfl, hstack⟩ | ⟨calls, root, rfl, hstack⟩ := h.top_cases hframes
    · have hstack' := hstack.modify top.scope change
      exact ⟨[], _, rfl, hstack'.outside, hstack'.outer, hstack'.module,
        fun _ hf => nomatch hf⟩
    · have hstack' := hstack.modify top.scope change
      refine ⟨_ :: calls, root, rfl, hstack'.outside, hstack'.outer, hstack'.module, ?_⟩
      intro f hf
      obtain rfl | hf := List.mem_cons.mp hf
      · exact hstack'.calls top (List.mem_cons_self ..)
      · exact hstack'.calls f (List.mem_cons_of_mem _ hf)

/-- The arrays change or there are more of them. -/
theorem restore (h : w.Describes p c m) {store : Store} {cells : List DeclaredType}
    (hcells : w.cells <+: cells) (hstore : store.Typed cells) :
    World.Describes p c { w with cells } { m with store } := by
  have halike : m.Alike { m with store } := ⟨rfl, rfl⟩
  refine ⟨h.idle, halike.tidy h.tidy, h.frames, hstore,
    fun f hf => (h.scopes f hf).extend hcells, ?_⟩
  refine h.stack.imp_right fun ⟨calls, root, hshape, hstack⟩ => ?_
  exact ⟨calls, root, hshape, hstack.outside, hstack.outer, hstack.module, hstack.calls⟩

end World.Describes

/-- A variable that is bound to an operand of its type holds one. -/
theorem Variables.Held.rebind {vars : Variables} {cells : List DeclaredType}
    {name : String} {operand : Operand} (hvars : vars.Held cells)
    (hoperand : ∀ v, (name, v) ∈ vars.entries → operand.Holds cells v.type) :
    (vars.rebind name (.held operand)).Held cells := by
  intro other v hv
  unfold Variables.rebind Table.modify at hv
  obtain ⟨⟨other', v'⟩, hentry, heq⟩ := List.mem_map.mp hv
  split at heq
  · next hname =>
    cases heq
    exact ⟨operand, rfl, hoperand v' (hname ▸ hentry)⟩
  · cases heq
    exact hvars other v hentry

/-- What a frame declares after a declaration has been executed in it. -/
def Frame.put (f : Frame) (name : String) (t : DeclaredType) :
    List (String × DeclaredType) :=
  if name ∈ f.names then f.declared else f.declared ++ [(name, t)]

namespace Frame

variable {f : Frame} {name other : String} {t : DeclaredType}

/-- To put a variable into a frame loses none. -/
theorem prefix_put (f : Frame) (name : String) (t : DeclaredType) :
    f.declared <+: f.put name t := by
  unfold put
  split
  · exact List.prefix_refl _
  · exact List.prefix_append ..

/-- A name is in the frame then if it was there or is the one that was put. -/
theorem mem_names_put : other ∈ Frame.names { f with declared := f.put name t } ↔
    other ∈ f.names ∨ other = name := by
  show other ∈ (f.put name t).map Prod.fst ↔ _
  unfold put
  split
  · next hname =>
    refine ⟨.inl, ?_⟩
    rintro (h | rfl)
    · exact h
    · exact hname
  · simp [names]

/-- A declared variable holds an operand of its type, also if it was there already,
since a name has one type in the code of a frame. -/
theorem Fits.put {cells : List DeclaredType} {s : Scope} {held : Operand}
    (h : f.Fits p cells s) (hdeclares : p.Declares f.code name t)
    (hheld : held.Holds cells t) :
    Frame.Fits p cells { f with declared := f.put name t }
      { s with vars := s.vars.put t name held } := by
  have hhas : s.vars.has name = true ↔ name ∈ f.names := by
    rw [Variables.has_iff_mem, h.signature]
    rfl
  refine ⟨?_, ?_, ?_⟩
  · show (s.vars.put t name held).signature = f.put name t
    rw [Variables.signature_put, h.signature]
    exact ite_congr (propext hhas) (fun _ => rfl) fun _ => rfl
  · show (s.vars.put t name held).Held cells
    unfold Variables.put
    split
    · refine h.held.rebind fun v hv => ?_
      -- executed again in a loop: the old variable has the declared type, too
      have hv' := h.declared _ _ (h.signature ▸ Variables.mem_signature hv)
      rwa [hv'.unique hdeclares]
    · intro other v hv
      obtain hold | hnew := List.mem_append.mp hv
      · exact h.held other v hold
      · cases List.mem_singleton.mp hnew
        exact ⟨held, rfl, hheld⟩
  · show ∀ other t', (other, t') ∈ f.put name t → _
    intro other t' hmem
    unfold Frame.put at hmem
    split at hmem
    · exact h.declared other t' hmem
    · obtain hold | hnew := List.mem_append.mp hmem
      · exact h.declared other t' hold
      · cases List.mem_singleton.mp hnew
        exact hdeclares

end Frame

/-- The module around the code that is executed is running. -/
theorem World.Describes.module_running {m : Machine} {label : Label} {scope : Nat}
    (h : w.Describes p c m) (hat : w.At p c label scope) {d : ModuleDeclaration}
    (hd : p.modules[label.code.module]? = some d) :
    ∃ root, w.frames.getLast? = some root ∧ root.code.module = label.code.module ∧
      m.modules.lookup d.name = some root.scope := by
  obtain ⟨top, rest, hframes, -, htop⟩ := hat
  -- the code is that of the module, or of a function of it
  obtain ⟨rfl, hstack⟩ | ⟨calls, root, rfl, hstack⟩ := h.top_cases hframes
  · obtain ⟨d', hd', -, hlookup⟩ := hstack.module
    rw [htop.code] at hd'
    cases hd.symm.trans hd'
    exact ⟨top, by rw [hframes]; rfl, by rw [htop.code], hlookup⟩
  · obtain ⟨d', hd', -, hlookup⟩ := hstack.module
    obtain ⟨-, n, note, hcode, -⟩ := hstack.calls top (List.mem_cons_self ..)
    have hmodule : root.code.module = label.code.module := by
      rw [← htop.code, hcode]
    rw [hmodule] at hd'
    cases hd.symm.trans hd'
    have hlast : (calls ++ [root]).getLast? = some root := by simp
    exact ⟨root, by rw [hframes, List.getLast?_cons, hlast]; rfl, hmodule, hlookup⟩

namespace Exec

variable {label : Label} {scope : Nat} {t : DeclaredType} {name : String}
  {held : Operand}

/-- A result leaves the world as it is, and is known. -/
theorem does_lift (x : Except Fault α) :
    Does p c w (lift x) (· = w) fun a _ => x = .ok a := by
  intro m hm
  cases x with
  | ok a => exact ⟨w, hm, rfl, rfl⟩
  | error fault => exact ⟨w, hm, rfl⟩

/-- What is to be converted may be kept, but neither variables nor the store change. -/
theorem does_settle (c' : Conversion) (x : Except Fault α) :
    Does p c w (settle c' x) (· = w) fun a _ => x = .ok a := by
  cases x with
  | ok a => exact does_lift (.ok a)
  | error fault => exact fun m hm => ⟨w, hm.same ⟨⟨rfl, rfl⟩, rfl, rfl, rfl⟩, rfl⟩

/-- A value that is kept may add a cell, and is an operand of its type. -/
theorem does_keep {v : Value} (hv : v.Conforms t) :
    Does p c w (keep v) w.Calm fun operand w' => operand.Holds w'.cells t := by
  intro m hm
  obtain ⟨cells, hcells, htyped, hholds⟩ := hm.store.keep hv
  exact ⟨{ w with cells }, hm.restore hcells htyped, ⟨rfl, hcells⟩, hholds⟩

/-- The scope of the module around the code is that of the last frame. -/
theorem does_moduleScope (hat : w.At p c label scope) {d : ModuleDeclaration}
    (hd : p.modules[label.code.module]? = some d) :
    Does p c w (moduleScope d.name) (· = w) fun a _ => ∃ root,
      w.frames.getLast? = some root ∧ root.code.module = label.code.module ∧
        root.scope = a := by
  intro m hm
  obtain ⟨root, hlast, hmodule, hlookup⟩ := hm.module_running hat hd
  unfold moduleScope
  rw [get_bind_apply, hlookup]
  exact ⟨w, hm, rfl, root, hlast, hmodule, rfl⟩

/-- What a variable is going to hold is of the type that it was converted to. -/
theorem does_convert (operand : Operand) (t : DeclaredType) :
    Does p c w (convert operand t) w.Calm fun held w' => held.Holds w'.cells t := by
  refine (still_reveal operand).does.next (.refl w) fun v _ => ?_
  refine (does_settle _ _).next (.refl w) fun v' hv' => ?_
  exact does_keep (Value.conforms_convert hv')

/-- A declaration that is executed: the next label is right about the innermost
scope. -/
theorem does_declareHere (hat : w.At p c label scope)
    (hdeclares : p.Declares label.code name t) (hheld : held.Holds w.cells t)
    (hdoubts : label.nested = true → c.Doubts p label.code name)
    (initial : Option Expr) :
    Does p c w (declareHere t name held) w.Grown fun _ w' =>
      w'.At p c (label.after (.declaration t name initial)) scope := by
  intro m hm
  obtain ⟨top, rest, hframes, rfl, htop⟩ := hat
  have hmem : top ∈ w.frames := hframes ▸ List.mem_cons_self ..
  have hscopes : m.frames = top.scope :: rest.map Frame.scope := by
    rw [hm.frames, hframes]
    rfl
  have hfits := hm.scopes top hmem
  have hdeclares' : p.Declares top.code name t := htop.code ▸ hdeclares
  rw [declareHere_apply hscopes]
  refine ⟨_, hm.declare hframes ?_ (hfits.put hdeclares' hheld), ⟨?_, List.prefix_refl _⟩,
    _, rest, rfl, rfl, ?_, ?_, ?_⟩
  · exact top.prefix_put name t
  · rw [hframes]
    rfl
  · rw [label.after_code]
    exact htop.code
  · intro other hother
    refine Frame.mem_names_put.mpr ((Label.seen_after hother).imp (htop.seen other) ?_)
    rintro ⟨_, _, ⟨⟩⟩
    rfl
  · intro other hother
    rw [label.after_code]
    obtain hold | rfl := Frame.mem_names_put.mp hother
    · exact (htop.names other hold).imp_left Label.mem_after
    · -- a nested declaration leaves its name in doubt, any other makes it certain
      cases hnested : label.nested with
      | true => exact .inr (hdoubts hnested)
      | false => exact .inl (Label.mem_after_declaration hnested t other initial)

/-- A variable is bound to an operand of its type. -/
theorem does_rebind (hat : w.At p c label scope) {f : Frame}
    (howner : w.owner? name = some f) (hdeclares : p.Declares f.code name t)
    (hheld : held.Holds w.cells t) :
    Does p c w (rebind scope name held) (· = w) fun _ _ => True := by
  intro m hm
  obtain ⟨top, rest, hframes, rfl, -⟩ := hat
  obtain ⟨hf, -⟩ := World.Describes.owner?_mem howner
  have hfits := hm.scopes f hf
  rw [rebind_apply, hm.owner?_eq hframes, howner]
  refine ⟨w, hm.modify hf (Variables.signature_rebind ..) ?_, rfl, trivial⟩
  refine hfits.held.rebind fun v hv => ?_
  have hv' := hfits.declared _ _ (hfits.signature ▸ Variables.mem_signature hv)
  rwa [hv'.unique hdeclares]

/-- A slot that is set to a value of the element's type leaves the world as it is. -/
theorem does_setSlot {address : Nat} (haddress : w.cells[address]? = some t)
    {content : Value} (hcontent : content.Conforms t.element) (index : Int) :
    Does p c w (setSlot address index content) (· = w) fun _ _ => True := by
  intro m hm
  rw [setSlot_apply]
  cases hset : Value.setSlotAt (m.store.slots address) index (some content) with
  | error fault => exact ⟨w, hm, rfl⟩
  | ok slots =>
    have hslots := Value.conforms_setSlotAt (hm.store.slots _ _ haddress) hcontent hset
    exact ⟨w, hm.restore (List.prefix_refl _) (hm.store.write haddress hslots), rfl,
      trivial⟩

end Exec

/-! ## New scopes

A call puts a frame on top, and a module puts the only one.  When the scope is closed, the
world is the one from before, with more cells perhaps. -/

namespace World

/-- A world with one more scope, which is the innermost. -/
def opened (w : World) (scope : Nat) (code : Code)
    (declared : List (String × DeclaredType)) : World :=
  { w with frames := ⟨scope, code, declared⟩ :: w.frames }

namespace Describes

variable {m : Machine} {root : Frame} {vars : Variables}

/-- A new scope leaves the open ones as they are. -/
theorem scope_entered (h : w.Describes p c m) (parent : Option Nat) (name : String)
    (vars : Variables) {f : Frame} (hf : f ∈ w.frames) :
    (entered m parent name vars).environment.scope f.scope =
      m.environment.scope f.scope := by
  have hid : f.scope ∈ m.frames := h.frames ▸ List.mem_map_of_mem hf
  rw [environment_entered]
  exact Environment.scope_enter_ne (Nat.ne_of_lt (h.tidy.made _ hid))

/-- A call opens a scope around which is its module's. -/
theorem call (h : w.Describes p c m) (name : String)
    (hlast : w.frames.getLast? = some root)
    {n : Nat} {note : Note} (hnote : c.notes[n]? = some note)
    (houter : ∀ other ∈ note.outer, other ∈ root.names)
    (hheld : vars.Held w.cells)
    (hdeclared : ∀ other t, (other, t) ∈ vars.signature →
      p.Declares ⟨root.code.module, some n⟩ other t) :
    (w.opened m.environment.scopes.size ⟨root.code.module, some n⟩
      vars.signature).Describes p c (entered m (some root.scope) name vars) := by
  have hold := fun f hf => h.scope_entered (some root.scope) name vars (f := f) hf
  refine ⟨h.idle, tidy_entered h.tidy _ _ _, congrArg _ h.frames, h.store, ?_, .inr ?_⟩
  · intro f hf
    obtain rfl | hf := List.mem_cons.mp hf
    · have hnew : ((entered m (some root.scope) name vars).environment.scope
          m.environment.scopes.size).vars = vars := by
        rw [environment_entered]
        exact Environment.scope_enter.1
      refine ⟨?_, ?_, hdeclared⟩
      · rw [hnew]
      · rw [hnew]
        exact hheld
    · rw [hold f hf]
      exact h.scopes f hf
  · obtain hnil | ⟨calls, root', hshape, hstack⟩ := h.stack
    · rw [hnil] at hlast
      cases hlast
    · have heq : root' = root := by simpa [hshape] using hlast
      subst heq
      have hroot : root' ∈ w.frames := by simp [hshape]
      refine ⟨_ :: calls, root', congrArg _ hshape, hstack.outside, ?_, ?_, ?_⟩
      · rw [hold root' hroot]
        exact hstack.outer
      · rw [hold root' hroot]
        exact hstack.module
      · intro f hf
        obtain rfl | hf := List.mem_cons.mp hf
        · refine ⟨?_, n, note, rfl, hnote, houter⟩
          rw [environment_entered, Environment.outer_enter, hstack.outer]
        · rw [hold f (by simp [hshape, hf])]
          exact hstack.calls f hf

/-- A module opens a scope with none around it, and is recorded with it. -/
theorem start (h : w.Describes p c m) (hnone : w.frames = []) {k : Nat}
    {d : ModuleDeclaration} (hd : p.modules[k]? = some d) :
    (w.opened m.environment.scopes.size ⟨k, none⟩ []).Describes p c
      ((entered m none d.name Variables.empty).recordModule d.name
        m.environment.scopes.size) := by
  have hempty : m.frames = [] := by rw [h.frames, hnone]; rfl
  have halike : (entered m none d.name Variables.empty).Alike
      ((entered m none d.name Variables.empty).recordModule d.name
        m.environment.scopes.size) := ⟨rfl, rfl⟩
  have hnew : (entered m none d.name Variables.empty).environment.scope
      m.environment.scopes.size = ⟨d.name, [], Variables.empty⟩ := by
    rw [environment_entered]
    simp [Environment.enter, Environment.scope, Array.getD_eq_getD_getElem?]
  refine ⟨h.idle, halike.tidy (tidy_entered h.tidy _ _ _), ?_, h.store, ?_, .inr ?_⟩
  · show _ :: m.frames = _ :: w.frames.map Frame.scope
    rw [hempty, hnone]
    rfl
  · intro f hf
    rw [World.opened, hnone, List.mem_singleton] at hf
    subst hf
    show Frame.Fits p w.cells _
      ((entered m none d.name Variables.empty).environment.scope _)
    rw [hnew]
    refine ⟨rfl, fun _ _ hv => ?_, fun _ _ ht => ?_⟩
    · cases hv
    · cases ht
  · refine ⟨[], ⟨m.environment.scopes.size, ⟨k, none⟩, []⟩, ?_, rfl, ?_, ⟨d, hd, ?_, ?_⟩,
      fun _ hf => absurd hf List.not_mem_nil⟩
    · rw [World.opened, hnone]
      rfl
    · show ((entered m none d.name Variables.empty).environment.scope _).outer = []
      rw [hnew]
    · show ((entered m none d.name Variables.empty).environment.scope _).name = _
      rw [hnew]
    · exact lookup_recordModule ..

/-- The innermost scope is closed. -/
theorem leave (h : w.Describes p c m) :
    World.Describes p c { w with frames := w.frames.tail } m.popScope := by
  cases hframes : w.frames with
  | nil =>
    have hempty : m.frames = [] := by rw [h.frames, hframes]; rfl
    have hsame : m.popScope = m := by
      unfold Machine.popScope
      rw [hempty]
    have hworld : ({ w with frames := [] } : World) = w := by rw [← hframes]
    rw [hsame, List.tail_nil, hworld]
    exact h
  | cons top rest =>
    have hscopes : m.frames = top.scope :: rest.map Frame.scope := by
      rw [h.frames, hframes]
      rfl
    have honce := h.tidy.once
    rw [hscopes, List.nodup_cons] at honce
    have htidy := tidy_popScope h.tidy
    rw [popScope_apply hscopes] at htidy ⊢
    refine ⟨h.idle, htidy, rfl, h.store, fun f hf => ?_, ?_⟩
    · have hne : f.scope ≠ top.scope := fun heq =>
        honce.1 (heq ▸ List.mem_map_of_mem hf)
      show f.Fits p w.cells ((m.environment.modifyVariables top.scope _).scope f.scope)
      rw [Environment.scope_modifyVariables_ne _ hne]
      exact h.scopes f (hframes ▸ List.mem_cons_of_mem _ hf)
    · obtain ⟨rfl, -⟩ | ⟨calls, root, rfl, hstack⟩ := h.top_cases hframes
      · exact .inl rfl
      · have hstack' := hstack.modify top.scope Table.clear
        exact .inr ⟨calls, root, rfl, hstack'.outside, hstack'.outer, hstack'.module,
          fun f hf => hstack'.calls f (List.mem_cons_of_mem _ hf)⟩

end Describes

end World

/-- A tick at the end changes nothing that worlds speak of. -/
theorem Exec.leads_thenTick {x : Exec α} {m : Machine} {ends : World → Prop}
    {gives : α → World → Prop} (h : Leads p c ends gives (x m)) :
    Leads p c ends gives (x.thenTick m) := by
  refine leads_attempt h (fun outcome w' hne hends hgives => ?_) rfl
  match outcome with
  | .ok a => exact does_tick.next hends fun _ _ => does_pure hends (hgives a rfl)
  | .error (.returned result) =>
    exact does_tick.next hends fun _ _ m hm => ⟨w', hm, hends⟩
  | .error (.fault fault) => exact does_tick.next hends fun _ _ => does_fail fault hends
  | .error .suspended => exact absurd rfl hne

/-- A computation in a new scope, which is closed behind it. -/
theorem Exec.does_within {parent : Option Nat} {name : String} {vars : Variables}
    {x : Nat → Exec α} (hx : ∀ m, w.Describes p c m → ∃ code declared gives,
      Leads p c (w.opened m.environment.scopes.size code declared).Grown gives
        (x m.environment.scopes.size (entered m parent name vars))) :
    Does p c w (within parent name vars x) w.Calm fun _ _ => True := by
  intro m hm
  obtain ⟨code, declared, gives, hinner⟩ := hx m hm
  have hrun := leads_thenTick hinner
  rw [within_apply]
  unfold andThenTidy
  have hleave : ∀ {w' : World} {m' : Machine}, w'.Describes p c m' →
      (w.opened m.environment.scopes.size code declared).Grown w' →
      ∃ w'' : World, w''.Describes p c m'.popScope ∧ w.Calm w'' :=
    fun hw' hgrown => ⟨_, hw'.leave, hgrown.frames, hgrown.cells⟩
  generalize (x m.environment.scopes.size).thenTick = body at hrun ⊢
  cases hend : body (entered m parent name vars) with
  | ok a m' =>
    rw [hend] at hrun
    obtain ⟨w', hw', hends, -⟩ := hrun
    obtain ⟨w'', hw'', hcalm⟩ := hleave hw' hends
    exact ⟨w'', hw'', hcalm, trivial⟩
  | error halt m' =>
    rw [hend] at hrun
    cases halt with
    | suspended => exact hrun
    | fault _ | returned _ =>
      obtain ⟨w', hw', hends⟩ := hrun
      exact hleave hw' hends

/-! ## Loops, lists and ends -/

namespace Exec

/-- A loop whose guard and body keep the innermost scope right for a label. -/
theorem does_loop {guard : Exec Bool} {body : Exec Unit} (right : World → Prop)
    (hguard : ∀ w, right w → Does p c w guard w.Calm fun _ w' => right w')
    (hbody : ∀ w, right w → Does p c w body w.Grown fun _ w' => right w')
    (h : right w) : Does p c w (loop guard body) w.Grown fun _ w' => right w' := by
  have hrepeat : ∀ limit w, right w →
      Does p c w (repeatWhile guard body limit) w.Grown fun _ w' => right w' := by
    intro limit
    induction limit with
    | zero => exact fun w _ m hm => hm.admits
    | succ limit ih =>
      intro w hw
      refine (hguard w hw).grown.growing fun holds w' _ hw' => ?_
      split
      · exact (hbody w' hw').growing fun _ w'' _ hw'' => ih w'' hw''
      · exact fun m hm => ⟨w', hm, ⟨rfl, List.prefix_refl _⟩, hw'⟩
  exact fun m hm => hrepeat (m.ticks + 1) w h m hm

/-- A list of computations, each of which leaves the frames as they are. -/
theorem does_mapM {f : α → Exec β} (right : World → Prop) :
    ∀ (as : List α) {w : World}, (∀ a ∈ as, ∀ w, right w →
      Does p c w (f a) w.Calm fun _ w' => right w') → right w →
      Does p c w (as.mapM f) w.Calm fun _ w' => right w'
  | [], w, _, hw => fun m hm => ⟨w, hm, .refl w, hw⟩
  | a :: as, w, hf, hw => by
    rw [List.mapM_cons]
    refine (hf a (List.mem_cons_self ..) w hw).calmly fun b w' _ hw' => ?_
    have hrest := fun a' ha' => hf a' (List.mem_cons_of_mem a ha')
    refine (does_mapM right as hrest hw').calmly fun bs w'' _ hw'' => ?_
    exact fun m hm => ⟨w'', hm, .refl w'', hw''⟩

/-- The end of a function's body, whether it gives back a result or not. -/
theorem does_runBody {body : Exec Unit} {ends : World → Prop}
    {gives : Unit → World → Prop} (h : Does p c w body ends gives)
    (function : String) :
    Does p c w (Level.runBody function body) ends fun _ _ => True := by
  refine fun m hm => leads_attempt (h m hm) (fun outcome w' hne hends _ => ?_) rfl
  match outcome with
  | .ok () => exact does_pure hends trivial
  | .error (.returned result) => exact does_pure hends trivial
  | .error (.fault fault) => exact does_fail _ hends
  | .error .suspended => exact absurd rfl hne

/-- The trace is nothing that worlds speak of. -/
theorem does_closeTrace {x : Exec α} {ends : World → Prop} {gives : α → World → Prop}
    (h : Does p c w x ends gives) :
    Does p c w (x.andThenTidy closeTrace) ends gives := by
  intro m hm
  have hx := h m hm
  unfold andThenTidy
  have hsame : ∀ m : Machine, m.Same m.closeTrace := fun _ => ⟨⟨rfl, rfl⟩, rfl, rfl, rfl⟩
  cases hend : x m with
  | ok a m' =>
    rw [hend] at hx
    obtain ⟨w', hw', hends⟩ := hx
    exact ⟨w', hw'.same (hsame m'), hends⟩
  | error halt m' =>
    rw [hend] at hx
    cases halt with
    | suspended => exact hx
    | fault _ | returned _ =>
      obtain ⟨w', hw', hends⟩ := hx
      exact ⟨w', hw'.same (hsame m'), hends⟩

end Exec

end Pseudocode
