import Pseudocode.Proofs.Conformance
import Pseudocode.Proofs.Layout
import Pseudocode.Proofs.Steady

/-!
# Worlds

A *world* tells of the state of a run what the state does not show: the type of
the array in each cell, and for each open scope whose code is executed in it and
what it declares.  `World.Describes` says that a world is right about a state.
All of a run's invariants are in it: variables hold values of their types, the
frames are those of one module and of calls of its functions, and what a scope
declares is in the table of its code.

`World.At` ties a world to a label of the program's chart: the innermost scope
holds the names that the label tells and no others but doubtful ones.

The purpose is to know where names are found.  A state has at most two scopes in which a name
is looked for, the innermost one and the module's (`Describes.path_eq`), and a world says
which names they have (`World.owner?`).  The label of the code that is executed says which
names they have for certain.  Where the two differ, some declaration of the name is
conditional, and that is what `Program.Explains` allows (`Describes.explains`).

While expressions are evaluated a world may get more cells, but its frames stay (`Calm`);
operators may also declare something in the innermost one (`Grown`).
-/

namespace Pseudocode

open Exec Machine

/-- An open scope: its number, the code that is executed in it, and the variables
that it has declared so far. -/
structure Frame where
  scope : Nat
  code : Code
  declared : List (String × DeclaredType)

/-- The names that a frame declares. -/
def Frame.names (f : Frame) : List String := f.declared.map Prod.fst

/-- The types of all cells, and the open scopes, the innermost first. -/
structure World where
  cells : List DeclaredType := []
  frames : List Frame := []

/-! ## What a world says of a state -/

/-- All variables of a table are bound to operands of their types. -/
def Variables.Held (vars : Variables) (cells : List DeclaredType) : Prop :=
  ∀ name v, (name, v) ∈ vars.entries →
    ∃ operand, v.binding = some (.held operand) ∧ operand.Holds cells v.type

/-- A frame is right about a scope: the variables are those that it tells, each is
bound to an operand of its type, and each is in the table of the code. -/
structure Frame.Fits (p : Program) (cells : List DeclaredType) (f : Frame)
    (s : Scope) : Prop where
  signature : s.vars.signature = f.declared
  held : s.vars.Held cells
  declared : ∀ name t, (name, t) ∈ f.declared → p.Declares f.code name t

/-- The frames of a module and of calls of its functions.  A call has the names that
were declared for certain before its function around it. -/
structure Stack (p : Program) (c : Chart) (m : Machine) (calls : List Frame)
    (root : Frame) : Prop where
  outside : root.code.function = none
  outer : (m.environment.scope root.scope).outer = []
  module : ∃ d, p.modules[root.code.module]? = some d ∧
    (m.environment.scope root.scope).name = d.name ∧
    m.modules.lookup d.name = some root.scope
  calls : ∀ f ∈ calls, (m.environment.scope f.scope).outer = [root.scope] ∧
    ∃ n note, f.code = ⟨root.code.module, some n⟩ ∧ c.notes[n]? = some note ∧
      ∀ name ∈ note.outer, name ∈ root.names

/-- A world is right about a state. -/
structure World.Describes (p : Program) (c : Chart) (w : World) (m : Machine) :
    Prop where
  idle : m.pending = none
  tidy : m.Tidy
  frames : m.frames = w.frames.map Frame.scope
  store : m.store.Typed w.cells
  scopes : ∀ f ∈ w.frames, f.Fits p w.cells (m.environment.scope f.scope)
  stack : w.frames = [] ∨ ∃ calls root, w.frames = calls ++ [root] ∧
    Stack p c m calls root

/-- A state that differs in nothing that worlds speak of. -/
structure Machine.Same (m m' : Machine) : Prop where
  alike : m.Alike m'
  modules : m'.modules = m.modules
  store : m'.store = m.store
  pending : m'.pending = m.pending

/-- A frame is one in which code with a label can be executed. -/
structure Frame.At (p : Program) (c : Chart) (f : Frame) (label : Label) : Prop where
  code : f.code = label.code
  seen : ∀ name ∈ label.seen, name ∈ f.names
  names : ∀ name ∈ f.names, name ∈ label.seen ∨ c.Doubts p label.code name

/-- The innermost scope of a world is one in which code with a label can be
executed. -/
def World.At (p : Program) (c : Chart) (w : World) (label : Label) (scope : Nat) :
    Prop :=
  ∃ top rest, w.frames = top :: rest ∧ top.scope = scope ∧ top.At p c label

/-- Nesting makes no difference to where code can be executed. -/
theorem World.At.relabel {p : Program} {c : Chart} {w : World} {label label' : Label}
    {scope : Nat} (h : w.At p c label scope) (hcode : label'.code = label.code)
    (hseen : label'.seen = label.seen) : w.At p c label' scope := by
  obtain ⟨top, rest, hframes, hscope, hat⟩ := h
  refine ⟨top, rest, hframes, hscope, hcode ▸ hat.code, ?_, ?_⟩
  · rw [hseen]
    exact hat.seen
  · rw [hseen, hcode]
    exact hat.names

/-- A world with the same frames and perhaps more cells. -/
structure World.Calm (w w' : World) : Prop where
  frames : w'.frames = w.frames
  cells : w.cells <+: w'.cells

/-- A world with the same frames, the innermost apart, and perhaps more cells. -/
structure World.Grown (w w' : World) : Prop where
  frames : w'.frames.tail = w.frames.tail
  cells : w.cells <+: w'.cells

namespace World

variable {p : Program} {c : Chart} {w w' w'' : World} {label : Label} {scope : Nat}

/-- Nothing has changed. -/
theorem Calm.refl (w : World) : w.Calm w := ⟨rfl, List.prefix_refl _⟩

/-- Cells may be added again and again. -/
theorem Calm.trans (h : w.Calm w') (h' : w'.Calm w'') : w.Calm w'' :=
  ⟨h'.frames.trans h.frames, h.cells.trans h'.cells⟩

/-- A world whose frames are the same has not lost a frame. -/
theorem Calm.grown (h : w.Calm w') : w.Grown w' :=
  ⟨by rw [h.frames], h.cells⟩

/-- Frames below the innermost one stay the same through both. -/
theorem Grown.trans (h : w.Grown w') (h' : w'.Grown w'') : w.Grown w'' :=
  ⟨h'.frames.trans h.frames, h.cells.trans h'.cells⟩

/-- What stands in a world still stands in it when there are more cells. -/
theorem At.calm (h : w.At p c label scope) (hcalm : w.Calm w') :
    w'.At p c label scope := by
  obtain ⟨top, rest, hframes, hrest⟩ := h
  exact ⟨top, rest, hcalm.frames.trans hframes, hrest⟩

end World

/-- Variables hold what they held when there are more cells. -/
theorem Variables.Held.extend {vars : Variables} {cells cells' : List DeclaredType}
    (h : vars.Held cells) (hcells : cells <+: cells') : vars.Held cells' := by
  intro name v hv
  obtain ⟨operand, hbinding, hholds⟩ := h name v hv
  exact ⟨operand, hbinding, hholds.extend hcells⟩

/-- A frame fits as it did when there are more cells. -/
theorem Frame.Fits.extend {p : Program} {cells cells' : List DeclaredType} {f : Frame}
    {s : Scope} (h : f.Fits p cells s) (hcells : cells <+: cells') :
    f.Fits p cells' s :=
  ⟨h.signature, h.held.extend hcells, h.declared⟩

/-! ## Names -/

namespace Variables

variable {vars : Variables} {name : String} {v : Variable}

/-- What is found under a name is an entry. -/
theorem mem_of_find? (h : vars.find? name = some v) : (name, v) ∈ vars.entries := by
  obtain ⟨before, behind, hentries, -⟩ := List.lookup_eq_some_iff.mp h
  rw [hentries]
  exact List.mem_append_right _ (List.mem_cons_self ..)

/-- A name is there just if it has a type. -/
theorem has_iff_mem : vars.has name = true ↔ name ∈ vars.signature.map Prod.fst := by
  unfold Table.has Table.find? signature
  simp

/-- An entry has its type. -/
theorem mem_signature (h : (name, v) ∈ vars.entries) :
    (name, v.type) ∈ vars.signature :=
  List.mem_map.mpr ⟨(name, v), h, rfl⟩

end Variables

/-- A variable has one type in a piece of code. -/
theorem Program.Declares.unique {p : Program} {code : Code} {name : String}
    {t t' : DeclaredType} (h : p.Declares code name t) (h' : p.Declares code name t') :
    t = t' := by
  obtain ⟨v, hv, rfl⟩ := h
  obtain ⟨v', hv', rfl⟩ := h'
  rw [Option.some.inj (hv.symm.trans hv')]

/-- The frame in which a name is found: the innermost one, or else the module's. -/
def World.owner? (w : World) (name : String) : Option Frame :=
  match w.frames with
  | [] => none
  | top :: rest => (top :: rest.getLast?.toList).find? fun f => name ∈ f.names

namespace World.Describes

variable {p : Program} {c : Chart} {w : World} {m : Machine}

/-- The innermost frame is the module's, or that of a call in it. -/
theorem top_cases (h : w.Describes p c m) {top : Frame} {rest : List Frame}
    (hframes : w.frames = top :: rest) :
    (rest = [] ∧ Stack p c m [] top) ∨
      ∃ calls root, rest = calls ++ [root] ∧ Stack p c m (top :: calls) root := by
  obtain hnil | ⟨calls, root, hshape, hstack⟩ := h.stack
  · rw [hnil] at hframes
    cases hframes
  · rw [hshape] at hframes
    cases calls with
    | nil =>
      cases hframes
      exact .inl ⟨rfl, hstack⟩
    | cons first calls =>
      cases hframes
      exact .inr ⟨calls, root, rfl, hstack⟩

/-- A scope has the names that the world tells of its frame. -/
theorem has_iff (h : w.Describes p c m) {f : Frame} (hf : f ∈ w.frames)
    (name : String) : (m.environment.scope f.scope).vars.has name = true ↔
      name ∈ f.names := by
  rw [Variables.has_iff_mem, (h.scopes f hf).signature]
  rfl

/-- The scopes that a name is looked for in. -/
theorem path_eq (h : w.Describes p c m) {top : Frame} {rest : List Frame}
    (hframes : w.frames = top :: rest) :
    m.environment.path top.scope =
      (top :: rest.getLast?.toList).map Frame.scope := by
  unfold Environment.path
  obtain ⟨rfl, hstack⟩ | ⟨calls, root, rfl, hstack⟩ := h.top_cases hframes
  · rw [hstack.outer]
    rfl
  · rw [(hstack.calls top (List.mem_cons_self ..)).1]
    simp

/-- The frames that a name is looked for in are frames of the world. -/
theorem mem_of_path {w : World} {top f : Frame} {rest : List Frame}
    (hframes : w.frames = top :: rest) (hf : f ∈ top :: rest.getLast?.toList) :
    f ∈ w.frames := by
  rw [hframes]
  obtain rfl | hlast := List.mem_cons.mp hf
  · exact List.mem_cons_self ..
  · rw [Option.mem_toList] at hlast
    exact List.mem_cons_of_mem _ (List.mem_of_getLast? hlast)

/-- A name is found in the frame that the world tells. -/
theorem owner?_eq (h : w.Describes p c m) {top : Frame} {rest : List Frame}
    (hframes : w.frames = top :: rest) (name : String) :
    m.environment.owner? top.scope name = (w.owner? name).map Frame.scope := by
  have hfind : ∀ fs : List Frame, (∀ f ∈ fs, f ∈ w.frames) →
      fs.find? ((fun scope => (m.environment.scope scope).vars.has name) ∘ Frame.scope) =
        fs.find? fun f => name ∈ f.names := by
    intro fs hfs
    induction fs with
    | nil => rfl
    | cons f fs ih =>
      have hiff := h.has_iff (hfs f (List.mem_cons_self ..)) name
      have hsame : (m.environment.scope f.scope).vars.has name =
          decide (name ∈ f.names) := Bool.eq_iff_iff.mpr (by rw [hiff]; simp)
      rw [List.find?_cons, List.find?_cons, Function.comp_apply, hsame,
        ih fun f' hf' => hfs f' (List.mem_cons_of_mem _ hf')]
  unfold Environment.owner? World.owner?
  rw [h.path_eq hframes, List.find?_map, hframes]
  exact congrArg _ (hfind _ fun f hf => mem_of_path hframes hf)

/-- The frame in which a name is found has the name. -/
theorem owner?_mem {name : String} {f : Frame} (hf : w.owner? name = some f) :
    f ∈ w.frames ∧ name ∈ f.names := by
  unfold World.owner? at hf
  cases hframes : w.frames with
  | nil => simp [hframes] at hf
  | cons top rest =>
    simp only [hframes] at hf
    have hmem := mem_of_path hframes (List.mem_of_find?_eq_some hf)
    exact ⟨hframes ▸ hmem, by simpa using List.find?_some hf⟩

/-- The scope in which a name is found has none around it just if it is the
module's. -/
theorem outer_owner? (h : w.Describes p c m) {f : Frame} (hf : f ∈ w.frames) :
    (m.environment.scope f.scope).outer.isEmpty = f.code.function.isNone := by
  obtain hnil | ⟨calls, root, hshape, hstack⟩ := h.stack
  · rw [hnil] at hf
    cases hf
  · rw [hshape] at hf
    obtain hcall | hroot := List.mem_append.mp hf
    · obtain ⟨houter, n, note, hcode, -⟩ := hstack.calls f hcall
      rw [houter, hcode]
      rfl
    · rw [List.mem_singleton] at hroot
      subst hroot
      rw [hstack.outer, hstack.outside]
      rfl

/-- The same world describes a state that differs in nothing of it. -/
theorem same {m' : Machine} (h : w.Describes p c m) (hsame : m.Same m') :
    w.Describes p c m' := by
  obtain ⟨halike, hmodules, hstore, hpending⟩ := hsame
  refine ⟨hpending.trans h.idle, halike.tidy h.tidy, halike.frames.trans h.frames,
    hstore ▸ h.store, halike.environment ▸ h.scopes, ?_⟩
  refine h.stack.imp_right fun ⟨calls, root, hshape, hstack⟩ => ?_
  refine ⟨calls, root, hshape, hstack.outside, ?_, ?_, ?_⟩
  · rw [halike.environment]
    exact hstack.outer
  · rw [halike.environment, hmodules]
    exact hstack.module
  · rw [halike.environment]
    exact hstack.calls

end World.Describes

/-! ## Where names are found -/

/-- Where a run finds a variable that it looks up: in a module if the scope has none
around it, else in a call. -/
def Machine.homeOf (m : Machine) (a : Access) : Option Home :=
  (m.environment.owner? a.scope a.target.name).map fun scope =>
    if (m.environment.scope scope).outer.isEmpty then .module else .call

/-- A variable is found where it was found when the program was built, or else code
around the occurrence declares its name inside a loop or a conditional. -/
def Program.Explains (p : Program) (m : Machine) (a : Access) : Prop :=
  ∃ site, a.target.site = some site ∧
    (m.homeOf a = some site.home ∨
      p.DeclaresConditionally ⟨site.module, site.function⟩ a.target.name ∨
      p.DeclaresConditionally ⟨site.module, none⟩ a.target.name)

namespace World

variable {p : Program} {c : Chart} {w : World} {m : Machine} {label : Label}
  {scope : Nat}

/-- Whether a name is found in a module or in a call is told by the world. -/
theorem Describes.homeOf_eq (h : w.Describes p c m) (hat : w.At p c label scope)
    (target : Occurrence) :
    m.homeOf ⟨scope, target⟩ = (w.owner? target.name).map fun f =>
      if f.code.function.isNone then .module else .call := by
  obtain ⟨top, rest, hframes, rfl, -⟩ := hat
  unfold Machine.homeOf
  simp only [h.owner?_eq hframes, Option.map_map]
  cases howner : w.owner? target.name with
  | none => rfl
  | some f =>
    have hf := (Describes.owner?_mem howner).1
    simp only [Option.map_some, Function.comp_apply, h.outer_owner? hf]

/-- A name of the module that is declared for certain where a label stands. -/
theorem Describes.surrounds (h : w.Describes p c m) {top : Frame} {rest : List Frame}
    (hframes : w.frames = top :: rest) (hat : top.At p c label) {name : String}
    (hname : c.Surrounds label name) :
    ∃ root, w.frames.getLast? = some root ∧ name ∈ root.names := by
  unfold Chart.Surrounds at hname
  rw [← hat.code] at hname
  obtain ⟨rfl, hstack⟩ | ⟨calls, root, rfl, hstack⟩ := h.top_cases hframes
  · rw [hstack.outside] at hname
    exact ⟨top, by rw [hframes]; rfl, hat.seen name hname⟩
  · obtain ⟨-, n, note, hcode, hnote, houter⟩ :=
      hstack.calls top (List.mem_cons_self ..)
    rw [hcode] at hname
    obtain ⟨note', hnote', hmem⟩ := hname
    cases hnote.symm.trans hnote'
    have hlast : (calls ++ [root]).getLast? = some root := by simp
    exact ⟨root, by rw [hframes, List.getLast?_cons, hlast]; rfl, houter name hmem⟩

/-- An occurrence that a label allows is explained wherever code with that label is
executed. -/
theorem Describes.explains (h : w.Describes p c m) (hanchored : Anchored p c)
    (hat : w.At p c label scope) {target : Occurrence}
    (htarget : c.Resolves p label target) : p.Explains m ⟨scope, target⟩ := by
  obtain ⟨home, hsite, hhome⟩ := htarget
  refine ⟨_, hsite, ?_⟩
  rw [h.homeOf_eq hat]
  obtain ⟨top, rest, hframes, rfl, htop⟩ := hat
  have hfound : target.name ∈ top.names → w.owner? target.name = some top := by
    intro hmem
    unfold World.owner?
    rw [hframes]
    simp [hmem]
  cases home with
  | call =>
    obtain ⟨hinner, hseen | hdoubts⟩ := hhome
    · left
      rw [hfound (htop.seen _ hseen), Option.map_some, htop.code,
        Option.isNone_eq_false_iff.mpr (Option.isSome_iff_ne_none.mpr hinner)]
      rfl
    · exact .inr (.inl (hanchored.declaresConditionally hdoubts))
  | module =>
    -- found in the module: no declaration in the call may be in between
    obtain ⟨hunseen, hsurrounds | hdoubts⟩ := hhome
    · obtain ⟨root, hlast, hroot⟩ := h.surrounds hframes htop hsurrounds
      obtain ⟨rfl, hstack⟩ | ⟨calls, root', rfl, hstack⟩ := h.top_cases hframes
      · rw [hframes] at hlast
        cases hlast
        left
        rw [hfound hroot, Option.map_some, hstack.outside]
        rfl
      · have hcall := hstack.calls top (List.mem_cons_self ..)
        by_cases htopname : target.name ∈ top.names
        · -- a name that is not there for certain is a doubtful one
          obtain ⟨-, n, note, hcode, -⟩ := hcall
          rw [htop.code] at hcode
          obtain hseen | hdoubts := htop.names _ htopname
          · exact absurd hseen (hunseen (by rw [hcode]; simp))
          · exact .inr (.inl (hanchored.declaresConditionally hdoubts))
        · left
          have hrest : (calls ++ [root']).getLast? = some root' := by simp
          rw [hframes, List.getLast?_cons, hrest] at hlast
          cases hlast
          have howner : w.owner? target.name = some root' := by
            unfold World.owner?
            rw [hframes]
            have hroot' : target.name ∈ root'.names := hroot
            simp [htopname, hroot']
          rw [howner, Option.map_some, hstack.outside]
          rfl
    · exact .inr (.inr (hanchored.declaresConditionally hdoubts))

end World

end Pseudocode
