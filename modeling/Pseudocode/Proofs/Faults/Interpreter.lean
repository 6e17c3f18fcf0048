import Pseudocode.Proofs.Faults
import Pseudocode.Proofs.Lexing
import Pseudocode.Proofs.Runs
import Pseudocode.Proofs.Source.Shape

/-!
# What a run can end with

What a function gives back is thrown by the statement and caught by the call around it.
Calls and expressions let none of it through, whatever the program is and whatever the
state (`contained_running`); that no module does is due to the builder, which allows
`return` in functions only.

For the faults the interpreter is followed level by level, as for worlds: a label tells
which operators can stand at a place, a world tells that variables hold operands and
that the module around a call is running, and the shape of the forest tells that rows
consist of operators that can be executed (`proper_running`).  So what a program text
ends with, if it is refused or if its run fails, is documented
(`only_documented_faults`).

Each of the faults that do not occur is excluded by one of these three.  A symbol without a
meaning is in no expression that was read; an `elseif` stands in no row; a variable that was
found holds an operand, so nothing is left to be evaluated; and the module of a call is the
one around it, which is running.  What is left, besides the faults of the language, are
numerals.  A literal or a length that is too long is the text of a token, which the lexer
has found; a text that is too long for a conversion is the one that the machine has kept
when the run ends.

The witness runs all three: a division by zero inside a call, a module without an end, and
an answer of more digits than are read, which is too long a text to compute with; its run is
followed step by step instead (`Exec.Fails`).
-/

namespace Pseudocode

open Exec Machine

/-! ## What is given back

A `return` ends the body of its function and is caught there.  Expressions and calls therefore
never end by giving something back, and neither does a run. -/

/-- Not to end by giving something back. -/
def Halt.Contained (_ : Option Conversion) : Halt → Prop
  | .returned _ => False
  | .fault _ | .suspended => True

/-- Not to give something back allows every fault, and suspension. -/
theorem Halt.lenient_contained : Lenient Contained := ⟨fun _ => trivial, fun _ => trivial⟩

/-- Expressions and calls of a level do not end by giving something back. -/
structure Level.Contained (level : Level) : Prop where
  evaluate : ∀ scope e, Halts Halt.Contained (level.evaluate scope e)
  call : ∀ callee arguments, Halts Halt.Contained (level.call callee arguments)

namespace Level

variable {p : Program} {below : Level}

/-- At the bottom everything is too deep, and nothing is given back. -/
theorem contained_bottom : bottom.Contained :=
  ⟨fun _ _ => halts_fail fun _ => trivial, fun _ _ => halts_fail fun _ => trivial⟩

/-- Whatever the body of a function does, what it gives back is caught. -/
theorem contained_runBody (function : String) (body : Exec Unit) :
    Halts Halt.Contained (runBody function body) := by
  intro m halt m' h
  unfold runBody at h
  rw [attempt_bind_apply] at h
  cases hrun : body m with
  | ok a m₁ =>
    rw [hrun] at h
    cases h
  | error halt' m₁ =>
    rw [hrun] at h
    cases halt' <;> cases h <;> trivial

section

variable (h : below.Contained)

include h

/-- To read a variable gives nothing back, in this sense. -/
theorem Contained.readVariable (scope : Option Nat) (target : Occurrence) :
    Halts Halt.Contained (below.readVariable scope target) := by
  unfold Level.readVariable
  split
  · exact halts_fail fun _ => trivial
  · refine (halts_variableIn Halt.lenient_contained _ target).bind fun v => ?_
    split
    · exact halts_fail fun _ => trivial
    · exact halts_pure _
    · exact h.evaluate _ _

/-- Nor does an expression that is read as a truth value. -/
theorem Contained.evaluateTruth (scope : Option Nat) (e : Expr) :
    Halts Halt.Contained (below.evaluateTruth scope e) :=
  (h.evaluate scope e).bind fun operand =>
    (halts_reveal operand).bind fun _ => halts_lift fun _ _ _ => trivial

/-- Nor does an expression that is read as an integer. -/
theorem Contained.evaluateInteger (scope : Option Nat) (e : Expr) :
    Halts Halt.Contained (below.evaluateInteger scope e) :=
  (h.evaluate scope e).bind fun operand =>
    (halts_reveal operand).bind (halts_integerOf Halt.lenient_contained)

/-- Nor does a condition. -/
theorem Contained.evaluateCondition (scope : Option Nat) (op : Condition)
    (left right : Expr) :
    Halts Halt.Contained (below.evaluateCondition scope op left right) := by
  cases op with
  | both =>
    refine (h.evaluateTruth scope left).bind fun holds => ?_
    split
    · exact h.evaluateTruth scope right
    · exact halts_pure _
  | either =>
    refine (h.evaluateTruth scope left).bind fun holds => ?_
    split
    · exact halts_pure _
    · exact h.evaluateTruth scope right
  | compare comparison =>
    refine (h.evaluate scope left).bind fun a => (h.evaluate scope right).bind fun b => ?_
    refine (halts_reveal a).bind fun _ => ?_
    refine (halts_reveal b).bind fun _ => ?_
    exact halts_lift fun _ _ _ => trivial

/-- Nor does any expression of the next level. -/
theorem Contained.evaluateNode (scope : Option Nat) (e : Expr) :
    Halts Halt.Contained (below.evaluateNode scope e) := by
  refine (halts_tick (fun _ => trivial) none).bind fun _ => ?_
  cases e with
  | literal v => exact halts_pure _
  | read target => exact h.readVariable scope target
  | slot target index =>
    refine (h.readVariable scope target).bind fun array => ?_
    exact (h.evaluateInteger scope index).bind fun _ =>
      halts_readSlot Halt.lenient_contained _ _ _
  | sign symbol operand =>
    refine (h.evaluate scope operand).bind fun a => (halts_reveal a).bind fun _ => ?_
    exact (halts_lift fun _ _ _ => trivial).bind fun _ => halts_pure _
  | arithmetic op left right =>
    refine (h.evaluate scope left).bind fun a => (h.evaluate scope right).bind fun b => ?_
    refine (halts_reveal a).bind fun _ => (halts_reveal b).bind fun _ => ?_
    exact (halts_lift fun _ _ _ => trivial).bind fun _ => halts_pure _
  | condition op left right =>
    exact (h.evaluateCondition scope op left right).bind fun _ => halts_pure _
  | call name callee arguments =>
    refine (halts_mapM fun e _ => h.evaluate scope e).bind fun operands => ?_
    refine (h.call callee operands).bind fun result => ?_
    split
    · exact halts_pure _
    · exact halts_fail fun _ => trivial
  | blank => exact halts_fail fun _ => trivial

omit h in
/-- A call catches what its body gives back. -/
theorem contained_callNode (callee : Callee) (arguments : List Operand) :
    Halts Halt.Contained (callNode p below callee arguments) := by
  have henter : ∀ f, Halts Halt.Contained (enterCall p below f arguments) := by
    intro f
    have hmodule : Halts Halt.Contained (moduleScope f.module) := by
      refine halts_get fun m => ?_
      split
      · exact halts_fail fun _ => trivial
      · exact halts_pure _
    refine hmodule.bind fun module => ?_
    refine (halts_bindParameters Halt.lenient_contained _ _ _).bind fun bound => ?_
    refine Halts.within (fun scope => ?_) fun _ => trivial
    refine (halts_trace Halt.lenient_contained _ fun _ => told_ok _).bind fun _ => ?_
    exact (contained_runBody _ _).bind fun result =>
      halts_callResult Halt.lenient_contained f result
  have hrefused : ∀ fault, Halts Halt.Contained (fail fault : Exec PUnit) :=
    fun _ => halts_fail fun _ => trivial
  unfold callNode
  dsimp only
  split
  · exact (hrefused _).bind fun _ => henter _
  · exact henter _

end

/-- On no level of a running program does an expression or a call end by giving
something back. -/
theorem contained_running (p : Program) : ∀ depth, (running p depth).Contained
  | 0 => contained_bottom
  | depth + 1 =>
    have below := contained_running p depth
    ⟨fun scope e => below.evaluateNode scope e,
      fun callee arguments => contained_callNode callee arguments⟩

end Level

/-! ## Faults in worlds

That no name is missing at run time, or only one that was in doubt, is known of the states that
a world describes.  So the ends of computations are shown along with the worlds. -/

/-- To end with a documented fault, or by giving something back if that is allowed.  A
numeral is only to blame if the machine has kept the conversion that failed for it. -/
def Halt.Allowed (inner : Prop) (refused : Option Conversion) : Halt → Prop
  | .fault cause => cause.Evident refused
  | .returned _ => inner
  | .suspended => True

/-- What is allowed somewhere includes suspension and what is evident. -/
theorem Halt.lenient_allowed (inner : Prop) : Lenient (Allowed inner) :=
  ⟨fun _ => trivial, fun h => h⟩

/-- From states that a world describes, a computation ends early only as is allowed. -/
def Exec.Ends {α : Type} (p : Program) (c : Chart) (w : World) (inner : Prop)
    (x : Exec α) : Prop :=
  ∀ m : Machine, w.Describes p c m → ∀ halt m', x m = .error halt m' →
    halt.Allowed inner m'.refused

section

variable {α β : Type} {p : Program} {c : Chart} {w : World} {inner : Prop} {x : Exec α}
  {f : α → Exec β} {keeps : World → Prop} {gives : α → World → Prop}

/-- What halts as is allowed from everywhere does so in a world. -/
theorem Exec.Halts.ends (h : Halts (Halt.Allowed inner) x) : Ends p c w inner x :=
  fun m _ => h m

/-- What follows starts in the world that the first part leads to. -/
theorem Exec.Ends.bind (hdoes : Does p c w x keeps gives) (hx : Ends p c w inner x)
    (hf : ∀ a w', keeps w' → gives a w' → Ends p c w' inner (f a)) :
    Ends p c w inner (x >>= f) := by
  intro m hm halt m' h
  have hleads := hdoes m hm
  rw [bind_apply] at h
  cases hrun : x m with
  | ok a m₁ =>
    rw [hrun] at h hleads
    obtain ⟨w', hw', hend, hgive⟩ := hleads
    exact hf a w' hend hgive m₁ hw' halt m' h
  | error halt' m₁ =>
    rw [hrun] at h
    cases h
    exact hx m hm halt _ hrun

/-- A first part that leaves the world as it is. -/
theorem Exec.Ends.next (hdoes : Does p c w x (· = w) gives) (hx : Ends p c w inner x)
    (hf : ∀ a, gives a w → Ends p c w inner (f a)) : Ends p c w inner (x >>= f) := by
  refine .bind hdoes hx fun a w' hw' hgive => ?_
  subst hw'
  exact hf a hgive

/-- A list of computations ends as is allowed if each of them does. -/
theorem Exec.ends_mapM {f : α → Exec β} (right : World → Prop) :
    ∀ {as : List α} {w : World}, (∀ a ∈ as, ∀ w, right w →
        Does p c w (f a) w.Calm fun _ w' => right w') →
      (∀ a ∈ as, ∀ w, right w → Ends p c w inner (f a)) → right w →
      Ends p c w inner (as.mapM f)
  | [], _, _, _, _ => (halts_pure _).ends
  | a :: as, w, hdoes, hends, hw => by
    obtain ⟨hfirst, hrest⟩ := List.forall_mem_cons.mp hdoes
    obtain ⟨hfirstEnds, hrestEnd⟩ := List.forall_mem_cons.mp hends
    rw [List.mapM_cons]
    refine .bind (hfirst w hw) (hfirstEnds w hw) fun b w' _ hw' => ?_
    exact .bind (does_mapM right as hrest hw') (ends_mapM right hrest hrestEnd hw')
      fun _ _ _ _ => (halts_pure _).ends

/-- A loop ends as is allowed if its guard and its body do. -/
theorem Exec.ends_loop {guard : Exec Bool} {body : Exec Unit} (right : World → Prop)
    (hguard : ∀ w, right w → Does p c w guard w.Calm fun _ w' => right w')
    (hbody : ∀ w, right w → Does p c w body w.Grown fun _ w' => right w')
    (hguardEnds : ∀ w, right w → Ends p c w inner guard)
    (hbodyEnds : ∀ w, right w → Ends p c w inner body) (h : right w) :
    Ends p c w inner (loop guard body) := by
  have hrepeat : ∀ limit w, right w → Ends p c w inner (repeatWhile guard body limit) := by
    intro limit
    induction limit with
    | zero => exact fun w _ => (halts_throw fun _ => trivial).ends
    | succ limit ih =>
      intro w hw
      refine .bind (hguard w hw) (hguardEnds w hw) fun holds w' _ hw' => ?_
      split
      · exact .bind (hbody w' hw') (hbodyEnds w' hw') fun _ w'' _ hw'' => ih w'' hw''
      · exact (halts_pure ()).ends
  exact fun m hm => hrepeat (m.ticks + 1) w h m hm

/-- The end of a function's body: what it gives back is the result of the call, and its
fault leaves the call. -/
theorem Exec.ends_runBody {body : Exec Unit} {inside : Prop} (h : Ends p c w inside body)
    (function : String) : Ends p c w inner (Level.runBody function body) := by
  intro m hm halt m' heq
  unfold Level.runBody at heq
  rw [attempt_bind_apply] at heq
  cases hrun : body m with
  | ok a m₁ =>
    rw [hrun] at heq
    cases heq
  | error halt' m₁ =>
    rw [hrun] at heq
    have hhalt := h m hm halt' m₁ hrun
    cases halt' with
    | fault fault =>
      cases heq
      exact hhalt.leaving function
    | returned _ => cases heq
    | suspended =>
      cases heq
      trivial

/-- A computation in a new scope. -/
theorem Exec.ends_within {parent : Option Nat} {name : String} {vars : Variables}
    {x : Nat → Exec α} (hx : ∀ m, w.Describes p c m → ∀ halt m',
      x m.environment.scopes.size (entered m parent name vars) = .error halt m' →
        halt.Allowed inner m'.refused) :
    Ends p c w inner (within parent name vars x) := by
  intro m hm halt m' heq
  rw [within_apply] at heq
  have hinner := hx m hm
  generalize x m.environment.scopes.size = body at heq hinner
  -- from this one state on, the body ends as is allowed
  have hhalts : Halts (Halt.Allowed inner) (fun _ => body (entered m parent name vars)) :=
    fun _ halt m' h => hinner halt m' h
  exact (hhalts.thenTick fun _ => trivial).andThenTidy refused_popScope
    (entered m parent name vars) halt m' heq

end

/-! ## The levels of a running program

The induction is on the depth of levels, as it was for worlds.  The lowest level fails with the
one fault that stands for too deep a nesting. -/

/-- What a level ends with where a label says that something can be done. -/
structure Level.Proper (p : Program) (c : Chart) (level : Level) : Prop extends
    Level.Sound p c level where
  evaluates : ∀ {w : World} {label : Label} {scope : Nat} {e : Expr} {inner : Prop},
    w.At p c label scope → e.Uses (c.Resolves p label) (c.Calls label) →
    Ends p c w inner (level.evaluate (some scope) e)
  executes : ∀ {w : World} {label : Label} {scope index : Nat} {node : Node Operator},
    w.At p c label scope → c.Marks index label → p.forest.nodes[index]? = some node →
    node.operator.InRow → Ends p c w (label.code.function ≠ none) (level.execute index)
  calls : ∀ {w : World} {label : Label} {scope : Nat} {callee : Callee} {inner : Prop}
    (arguments : List Operand), w.At p c label scope → c.Calls label callee →
    Ends p c w inner (level.call callee arguments)
  starts : ∀ {w : World} {root : Nat}, w.frames = [] → root ∈ p.forest.roots →
    Ends p c w False (level.execute root)

namespace Level

variable {p : Program} {c : Chart} {w : World} {label : Label} {scope : Nat}
  {below : Level} {inner : Prop}

/-- At the bottom everything is too deep, which is documented. -/
theorem proper_bottom : bottom.Proper p c where
  toSound := sound_bottom
  evaluates _ _ := (halts_fail fun _ => trivial).ends
  executes _ _ _ _ := (halts_fail fun _ => trivial).ends
  calls _ _ _ := (halts_fail fun _ => trivial).ends
  starts _ _ := (halts_fail fun _ => trivial).ends

/-- A variable is bound to an operand, so nothing is left to be evaluated. -/
theorem ends_readVariable (hanchored : Anchored p c) (hat : w.At p c label scope)
    {target : Occurrence} (htarget : c.Resolves p label target) :
    Ends p c w inner (below.readVariable (some scope) target) := by
  refine .next (does_variableIn hanchored hat htarget)
    (halts_variableIn (Halt.lenient_allowed inner) scope target).ends fun v hv => ?_
  obtain ⟨f, operand, -, -, hbinding, -⟩ := hv
  rw [hbinding]
  exact (halts_pure _).ends

/-- The module around a label is running, so its scope is found. -/
theorem ends_moduleScope (hat : w.At p c label scope) {d : ModuleDeclaration}
    (hd : p.modules[label.code.module]? = some d) :
    Ends p c w inner (moduleScope d.name) := by
  intro m hm halt m' h
  obtain ⟨root, -, -, hlookup⟩ := hm.module_running hat hd
  unfold moduleScope at h
  rw [get_bind_apply, hlookup] at h
  cases h

section

variable (h : below.Proper p c)

include h

/-! ### Expressions -/

/-- An expression that is read as a truth value ends as is allowed. -/
theorem Proper.truthEnds (hat : w.At p c label scope) {e : Expr}
    (he : e.Uses (c.Resolves p label) (c.Calls label)) :
    Ends p c w inner (below.evaluateTruth (some scope) e) := by
  refine .bind (h.evaluate hat he) (h.evaluates hat he) fun operand _ _ _ => ?_
  exact ((halts_reveal operand).bind fun v =>
    halts_told (Halt.lenient_allowed inner) v.told_toBoolean.simple).ends

/-- An expression that is read as an integer ends as is allowed. -/
theorem Proper.integerEnds (hat : w.At p c label scope) {e : Expr}
    (he : e.Uses (c.Resolves p label) (c.Calls label)) :
    Ends p c w inner (below.evaluateInteger (some scope) e) := by
  refine .bind (h.evaluate hat he) (h.evaluates hat he) fun operand _ _ _ => ?_
  exact ((halts_reveal operand).bind (halts_integerOf (Halt.lenient_allowed inner))).ends

/-- A condition that has a meaning ends as is allowed. -/
theorem Proper.conditionEnds (hat : w.At p c label scope) {op : Condition}
    (hop : ∀ symbol, op ≠ .compare (.other symbol)) {left right : Expr}
    (hleft : left.Uses (c.Resolves p label) (c.Calls label))
    (hright : right.Uses (c.Resolves p label) (c.Calls label)) :
    Ends p c w inner (below.evaluateCondition (some scope) op left right) := by
  cases op with
  | both =>
    refine .bind (h.evaluateTruth hat hleft) (h.truthEnds hat hleft)
      fun holds w' hcalm _ => ?_
    split
    · exact h.truthEnds (hat.calm hcalm) hright
    · exact (halts_pure _).ends
  | either =>
    refine .bind (h.evaluateTruth hat hleft) (h.truthEnds hat hleft)
      fun holds w' hcalm _ => ?_
    split
    · exact (halts_pure _).ends
    · exact h.truthEnds (hat.calm hcalm) hright
  | compare comparison =>
    refine .bind (h.evaluate hat hleft) (h.evaluates hat hleft) fun a w' hcalm _ => ?_
    refine .bind (h.evaluate (hat.calm hcalm) hright) (h.evaluates (hat.calm hcalm) hright)
      fun b _ _ _ => ?_
    have hknown : ∀ symbol, comparison ≠ .other symbol := fun symbol heq =>
      hop symbol (congrArg Condition.compare heq)
    exact ((halts_reveal a).bind fun u => (halts_reveal b).bind fun v =>
      halts_told (Halt.lenient_allowed inner) (Value.told_compare hknown u v)).ends

/-- Expressions of which a list is evaluated, one after the other. -/
theorem Proper.allEnd (hat : w.At p c label scope) {es : List Expr}
    (hes : ∀ e ∈ es, e.Uses (c.Resolves p label) (c.Calls label)) :
    Ends p c w inner (es.mapM (below.evaluate (some scope))) :=
  ends_mapM (fun w => w.At p c label scope)
    (fun e he _ hw => (h.evaluate hw (hes e he)).imp (fun _ hcalm => hcalm)
      fun _ _ hcalm _ => hw.calm hcalm)
    (fun e he _ hw => h.evaluates hw (hes e he)) hat

/-- Every expression that its label allows ends as is allowed. -/
theorem Proper.evaluateNode (hanchored : Anchored p c) (hat : w.At p c label scope)
    {e : Expr} (he : e.Uses (c.Resolves p label) (c.Calls label)) :
    Ends p c w inner (below.evaluateNode (some scope) e) := by
  have hmay := Halt.lenient_allowed inner
  refine .next does_tick (halts_tick (fun _ => trivial) none).ends fun _ _ => ?_
  cases he with
  | literal v => exact (halts_pure _).ends
  | read htarget => exact ends_readVariable hanchored hat htarget
  | slot htarget hindex =>
    refine .next (does_readVariable hanchored hat htarget)
      (ends_readVariable hanchored hat htarget) fun array _ => ?_
    exact .bind (h.evaluateInteger hat hindex) (h.integerEnds hat hindex)
      fun _ _ _ _ => (halts_readSlot hmay _ _ _).ends
  | sign hoperand =>
    refine .bind (h.evaluate hat hoperand) (h.evaluates hat hoperand) fun a _ _ _ => ?_
    exact ((halts_reveal a).bind fun v => (halts_told hmay (v.told_negate _)).bind fun _ =>
      halts_pure _).ends
  | arithmetic known hleft hright =>
    refine .bind (h.evaluate hat hleft) (h.evaluates hat hleft) fun a w' hcalm _ => ?_
    refine .bind (h.evaluate (hat.calm hcalm) hright) (h.evaluates (hat.calm hcalm) hright)
      fun b _ _ _ => ?_
    exact ((halts_reveal a).bind fun u => (halts_reveal b).bind fun v =>
      (halts_told hmay (Value.told_combine known u v)).bind fun _ => halts_pure _).ends
  | condition known hleft hright =>
    exact .bind (h.evaluateCondition hat _ hleft hright)
      (h.conditionEnds hat known hleft hright) fun _ _ _ _ => (halts_pure _).ends
  | call hcallee harguments =>
    refine .bind (h.evaluateAll hat harguments) (h.allEnd hat harguments)
      fun operands w' _ hat' => ?_
    refine .bind (h.call operands hat' hcallee) (h.calls operands hat' hcallee)
      fun result _ _ _ => ?_
    cases result with
    | some operand => exact (halts_pure _).ends
    | none => exact (halts_fail fun _ => trivial).ends

/-! ### Operators -/

/-- Operators that follow each other, from a place with a label on. -/
theorem Proper.siblingsEnd (hlayout : Layout p c) (hregular : p.forest.Regular)
    (hat : w.At p c label scope) {start : Option Nat}
    (hstart : ∀ i, start = some i → c.Marks i label ∧ p.forest.Has Operator.InRow i) :
    Ends p c w (label.code.function ≠ none)
      (below.executeAll (p.forest.siblings start)) := by
  have hnothing : ∀ {w : World} {inner : Prop}, Ends p c w inner (below.executeAll []) :=
    (halts_tick (fun _ => trivial) none).ends
  unfold Forest.siblings
  generalize p.forest.size = limit
  induction limit generalizing w label start with
  | zero => cases start <;> exact hnothing
  | succ limit ih =>
    cases start with
    | none => exact hnothing
    | some i =>
      obtain ⟨hmarks, node, hnode, hrow⟩ := hstart i rfl
      have hfits := hlayout.nodes i label node hmarks hnode
      have hlinks : (p.forest.links i).sibling = node.links.sibling := by
        simp [Forest.links, hnode]
      refine .bind (h.execute hat hmarks hnode) (h.executes hat hmarks hnode hrow)
        fun _ w' _ hat' => ?_
      rw [hlinks]
      cases hsibling : node.links.sibling with
      | none =>
        rw [Forest.siblingsWithin]
        exact hnothing
      | some j =>
        obtain ⟨hordinary, hj⟩ := hfits.sibling j hsibling
        have hnext : ∀ k, some j = some k →
            c.Marks k (label.after node.operator) ∧ p.forest.Has Operator.InRow k := by
          rintro _ ⟨⟩
          exact ⟨hj, ((hregular i node hnode).sibling j hsibling).2⟩
        have hrest := ih (hat' (.inl hordinary)) hnext
        rwa [Label.after_code] at hrest

/-- The guard of a loop ends as is allowed. -/
theorem Proper.guardEnds (hat : w.At p c label scope) {guard : Expr}
    (hguard : guard.Uses (c.Resolves p label) (c.Calls label)) :
    Ends p c w inner (below.testGuard guard) := by
  have hmay := Halt.lenient_allowed inner
  refine .next (does_activeScope hat) (halts_activeScope hmay).ends fun a ha => ?_
  subst ha
  refine .bind (h.evaluateInteger hat hguard) (h.integerEnds hat hguard) fun _ _ _ _ => ?_
  exact ((halts_trace hmay _ fun _ => told_ok _).bind fun _ => halts_pure _).ends

/-- An expression in the innermost scope. -/
theorem Proper.evaluatesHere (hat : w.At p c label scope) {e : Expr}
    (he : e.Uses (c.Resolves p label) (c.Calls label)) :
    Ends p c w inner (activeScope >>= fun a => below.evaluate (some a) e) := by
  refine .next (does_activeScope hat) (halts_activeScope (Halt.lenient_allowed inner)).ends
    fun a ha => ?_
  subst ha
  exact h.evaluates hat he

/-- Arguments, evaluated in the innermost scope, end as is allowed. -/
theorem Proper.allHereEnd (hat : w.At p c label scope) {es : List Expr}
    (hes : ∀ e ∈ es, e.Uses (c.Resolves p label) (c.Calls label)) :
    Ends p c w inner (es.mapM fun e => activeScope >>= fun a => below.evaluate (some a) e) :=
  ends_mapM (fun w => w.At p c label scope) (fun e he _ hw => h.evaluateHere hw (hes e he))
    (fun e he _ hw => h.evaluatesHere hw (hes e he)) hat

/-- An expression in the innermost scope, and then something in the same scope. -/
theorem Proper.hereEnds {α : Type} {f : Operand → Exec α} (hat : w.At p c label scope)
    {e : Expr} (he : e.Uses (c.Resolves p label) (c.Calls label))
    (hf : ∀ operand w', w'.At p c label scope → Ends p c w' inner (f operand)) :
    Ends p c w inner (activeScope >>= fun a => below.evaluate (some a) e >>= f) := by
  refine .next (does_activeScope hat) (halts_activeScope (Halt.lenient_allowed inner)).ends
    fun a ha => ?_
  subst ha
  exact .bind (h.evaluate hat he) (h.evaluates hat he) fun operand w' hcalm _ =>
    hf operand w' (hat.calm hcalm)

omit h in
/-- To convert and declare a value ends as is allowed. -/
theorem halts_declareAs (t : DeclaredType) (name : String) (operand : Operand) :
    Halts (Halt.Allowed inner) (declareAs t name operand) := by
  have hmay := Halt.lenient_allowed inner
  refine (halts_convert hmay operand t).bind fun held => ?_
  exact (halts_declareHere hmay t name held).bind fun _ => halts_traceText hmay _ _ _

/-- A declaration ends as is allowed. -/
theorem Proper.declarationEnds (hat : w.At p c label scope) {t : DeclaredType}
    {name : String} {initial : Option Expr}
    (hinitial : ∀ e ∈ initial, e.Uses (c.Resolves p label) (c.Calls label)) :
    Ends p c w inner (below.executeDeclaration t name initial) := by
  cases initial with
  | some e =>
    rw [executeDeclaration_some]
    exact h.hereEnds hat (hinitial e rfl) fun operand _ _ =>
      (halts_declareAs t name operand).ends
  | none =>
    rw [executeDeclaration_none]
    have hmay := Halt.lenient_allowed inner
    exact ((halts_told hmay (Value.told_initial t)).bind fun v =>
      halts_declareAs t name _).ends

/-- An assignment ends as is allowed. -/
theorem Proper.assignEnds (hanchored : Anchored p c) (hat : w.At p c label scope)
    {target : Occurrence} (htarget : c.Resolves p label target) {element : Option Expr}
    (helement : ∀ e ∈ element, e.Uses (c.Resolves p label) (c.Calls label))
    (value : Operand) : Ends p c w inner (below.assign target element value) := by
  have hmay := Halt.lenient_allowed inner
  cases element with
  | none => exact (halts_assignVariable hmay target value).ends
  | some e =>
    refine .next (does_activeScope hat) (halts_activeScope hmay).ends fun a ha => ?_
    subst ha
    refine .next (does_variableIn hanchored hat htarget)
      (halts_variableIn hmay scope target).ends fun v _ => ?_
    refine .next (does_readVariable hanchored hat htarget)
      (ends_readVariable hanchored hat htarget) fun array _ => ?_
    have hrefused : ∀ v : Value, Halts (Halt.Allowed inner)
        (fail (v.failure (.kind .array) (.notIndexable target.name)) : Exec Unit) :=
      fun _ => halts_fail fun _ => trivial
    split
    · have he := helement e rfl
      refine .bind (h.evaluateInteger hat he) (h.integerEnds hat he) fun index _ _ _ => ?_
      refine Halts.ends ((halts_reveal value).bind fun u => ?_)
      refine (halts_converted hmay u _).bind fun content => ?_
      exact (halts_setSlot hmay _ index content).bind fun _ => halts_traceText hmay _ _ _
    · exact ((halts_reveal _).bind fun v => hrefused v).ends

/-- What is nested in a loop or a conditional. -/
theorem Proper.insideEnds (hlayout : Layout p c) (hregular : p.forest.Regular)
    (hat : w.At p c label scope) {index : Nat} {node : Node Operator}
    (hmarks : c.Marks index label) (hnode : p.forest.nodes[index]? = some node)
    (hconditional : node.operator.isConditional = true) :
    Ends p c w (label.code.function ≠ none)
      (below.executeAll (p.forest.children index)) := by
  have hfits := hlayout.nodes index label node hmarks hnode
  have hinside : w.At p c label.inside scope := hat.relabel rfl rfl
  refine h.siblingsEnd hlayout hregular hinside fun j hj => ?_
  rw [Forest.links, hnode] at hj
  exact ⟨hfits.child j hj hconditional, (hregular index node hnode).child j hj⟩

/-- The further branches of a conditional, whichever is executed. -/
theorem Proper.branchesEnd (hlayout : Layout p c) (hregular : p.forest.Regular)
    {fallback : Option Nat}
    (hfallback : ∀ j, fallback = some j → c.Marks j label.inside ∧
      ∃ q, p.forest.nodes[j]? = some q ∧ q.operator.isConditional = true) :
    ∀ {branches : List Nat} {w : World}, (∀ j ∈ branches, c.Marks j label.inside ∧
        p.forest.Has Operator.IsElseIf j) → w.At p c label.inside scope →
      Ends p c w (label.code.function ≠ none)
        (executeBranches p.forest below fallback branches)
  | [], w, _, hat => by
    unfold executeBranches
    cases fallback with
    | none => exact (halts_pure _).ends
    | some j =>
      obtain ⟨hmarks, q, hq, hconditional⟩ := hfallback j rfl
      exact h.insideEnds hlayout hregular hat hmarks hq hconditional
  | j :: rest, w, hbranches, hat => by
    obtain ⟨⟨hmarks, node, hnode, helseIf⟩, hrest⟩ := List.forall_mem_cons.mp hbranches
    have hfits := hlayout.nodes j label.inside node hmarks hnode
    unfold executeBranches
    rw [hnode]
    cases hop : node.operator with
    | elseIf guard =>
      have hguard := hfits.uses
      rw [hop] at hguard
      simp only [Option.map_some, hop]
      refine .bind (h.testGuard hat hguard) (h.guardEnds hat hguard) fun holds w' _ hat' => ?_
      split
      · exact h.insideEnds hlayout hregular hat' hmarks hnode (by rw [hop]; rfl)
      · exact Proper.branchesEnd hlayout hregular hfallback hrest hat'
    | _ =>
      rw [hop] at helseIf
      exact helseIf.elim

/-- An operator that stands in a row ends as is allowed for its code. -/
theorem Proper.executeNode (hlayout : Layout p c) (hanchored : Anchored p c)
    (hregular : p.forest.Regular) (hat : w.At p c label scope) {index : Nat}
    {node : Node Operator} (hmarks : c.Marks index label)
    (hnode : p.forest.nodes[index]? = some node) (hrow : node.operator.InRow) :
    Ends p c w (label.code.function ≠ none) (executeNode p below index) := by
  have hmay := Halt.lenient_allowed (label.code.function ≠ none)
  have hfits := hlayout.nodes index label node hmarks hnode
  have huses := hfits.uses
  refine .next does_tick (halts_tick (fun _ => trivial) none).ends fun _ _ => ?_
  rw [hnode]
  refine .next (still_trace _ _).does (halts_trace hmay _ fun _ => told_ok _).ends
    fun _ _ => ?_
  dsimp only
  have hnested : ∀ {w : World}, node.operator.isConditional = true →
      w.At p c label scope → Ends p c w (label.code.function ≠ none)
        (below.executeAll (p.forest.children index)) := fun hconditional hat =>
    h.insideEnds hlayout hregular hat hmarks hnode hconditional
  cases hop : node.operator with
  | module name number => exact absurd hop (hfits.inner name number)
  | beginning =>
    refine h.siblingsEnd hlayout hregular hat fun j hj => ?_
    rw [Forest.links, hnode] at hj
    exact ⟨hfits.main j hj hop, (hregular index node hnode).child j hj⟩
  | branch guard =>
    rw [hop] at huses
    have hconditional : node.operator.isConditional = true := by rw [hop]; rfl
    refine .bind (h.testGuard hat huses) (h.guardEnds hat huses) fun holds w' _ hat' => ?_
    split
    · exact hnested hconditional hat'
    · refine h.branchesEnd hlayout hregular
        (fun j hj => ⟨hfits.branches j (.inr hj), hfits.fallback j hj⟩)
        (fun j hj => ⟨hfits.branches j (.inl hj), ?_⟩) (hat'.relabel rfl rfl)
      exact (hregular index node hnode).alternatives j hj
  | loop guard =>
    rw [hop] at huses
    have hconditional : node.operator.isConditional = true := by rw [hop]; rfl
    exact ends_loop (fun w => w.At p c label scope) (fun _ hat => h.testGuard hat huses)
      (fun _ hat => h.executeInside hlayout hat hmarks hnode hconditional)
      (fun _ hat => h.guardEnds hat huses) (fun _ hat => hnested hconditional hat) hat
  | declaration t name initial =>
    rw [hop] at huses
    exact h.declarationEnds hat huses
  | assignment target element value =>
    rw [hop] at huses
    obtain ⟨htarget, helement, hvalue⟩ := huses
    exact h.hereEnds hat hvalue fun operand _ hat' =>
      h.assignEnds hanchored hat' htarget helement operand
  | input target => exact (halts_executeInput hmay target).ends
  | output value =>
    rw [hop] at huses
    exact h.hereEnds hat huses fun operand _ _ => (halts_write hmay operand).ends
  | call name callee arguments =>
    rw [hop] at huses
    obtain ⟨hcallee, harguments⟩ := huses
    have hall := does_mapM (fun w => w.At p c label scope) arguments
      (fun e he _ hat => h.evaluateHere hat (harguments e he)) hat
    refine .bind hall (h.allHereEnd hat harguments) fun operands _ _ hat' => ?_
    exact .bind (h.call operands hat' hcallee) (h.calls operands hat' hcallee)
      fun _ _ _ _ => (halts_pure _).ends
  | giveBack result =>
    have hinside := hfits.allowed
    rw [hop] at huses hinside
    have hend : ∀ operand : Option Operand,
        Halts (Halt.Allowed (label.code.function ≠ none)) (leaveWith operand) :=
      fun operand => (halts_tick (fun _ => trivial) none).bind fun _ => halts_throw fun _ => hinside
    cases result with
    | none => exact (hend none).ends
    | some e =>
      exact h.hereEnds hat (huses e rfl) fun operand _ _ => (hend (some operand)).ends
  | function _ _ | method _ _ | classDeclaration _ _ => exact (halts_pure _).ends
  | elseIf _ | elseBranch =>
    rw [hop] at hrow
    exact absurd trivial hrow

/-- A module gives nothing back: its label is that of no function. -/
theorem Proper.executeRoot (hlayout : Layout p c) (hregular : p.forest.Regular)
    (hnone : w.frames = []) {root : Nat} (hroot : root ∈ p.forest.roots) :
    Ends p c w False (Level.executeNode p below root) := by
  have hmay := Halt.lenient_allowed False
  obtain ⟨node, hnode, name, number, d, hop, hd, rfl, hchild⟩ := hlayout.roots root hroot
  refine .next does_tick (halts_tick (fun _ => trivial) none).ends fun _ _ => ?_
  rw [hnode]
  refine .next (still_trace _ _).does (halts_trace hmay _ fun _ => told_ok _).ends
    fun _ _ => ?_
  dsimp only
  rw [hop]
  refine ends_within fun m hm halt m' heq => ?_
  rw [bind_apply] at heq
  have hstart : ∀ j, (p.forest.links root).child = some j →
      c.Marks j ⟨⟨number, none⟩, false, []⟩ ∧ p.forest.Has Operator.InRow j := by
    intro j hj
    rw [Forest.links, hnode] at hj
    exact ⟨hchild j hj, (hregular root node hnode).child j hj⟩
  have hbody := h.siblingsEnd hlayout hregular (at_opened rfl) hstart _ (hm.start hnone hd)
    halt m' heq
  cases halt with
  | fault _ => exact hbody
  | returned _ => exact absurd rfl hbody
  | suspended => trivial

/-! ### Calls -/

omit h in
/-- An operator that is not nested stands in a row. -/
theorem has_inRow (hlayout : Layout p c) {i : Nat} (hmarks : c.Marks i label)
    (hnested : label.nested = false) : p.forest.Has Operator.InRow i := by
  obtain ⟨node, hnode⟩ : ∃ node, p.forest.nodes[i]? = some node :=
    ⟨_, Array.getElem?_eq_getElem (hlayout.marks_lt hmarks)⟩
  have hfits := hlayout.nodes i label node hmarks hnode
  refine ⟨node, hnode, fun halone => ?_⟩
  have hallowed := hfits.allowed
  cases hop : node.operator with
  | module name number => exact hfits.inner name number hop
  | elseIf _ | elseBranch =>
    rw [hop, Operator.Allowed, hnested] at hallowed
    cases hallowed
  | _ =>
    rw [hop] at halone
    exact halone

/-- The body of a function may give something back, but the call does not. -/
theorem Proper.enterCall (hlayout : Layout p c) (hregular : p.forest.Regular)
    (hat : w.At p c label scope) {n : Nat} {f : FunctionDeclaration}
    (hf : p.functions[n]? = some f) (hcallee : c.Calls label (.declared n))
    {arguments : List Operand} (hlength : arguments.length = f.parameters.length) :
    Ends p c w inner (Level.enterCall p below f arguments) := by
  have hmay := Halt.lenient_allowed inner
  obtain ⟨d, hd, hname⟩ := module_of_calls hlayout hf hcallee
  unfold Level.enterCall
  rw [← hname]
  refine .next (does_moduleScope hat hd) (ends_moduleScope hat hd) fun a ha => ?_
  obtain ⟨root, hlast, hroot, rfl⟩ := ha
  have hempty : Variables.empty.Held w.cells := by
    intro _ _ hv
    cases hv
  refine .bind (does_bindParameters f.parameters hlength hempty)
    (halts_bindParameters hmay _ _ _).ends fun bound w' hcalm ⟨hheld, hsignature⟩ => ?_
  refine ends_within fun m hm => ?_
  obtain ⟨code, -, hbody, hopened, hat'⟩ := describes_call hlayout (hat.calm hcalm) hf hcallee
    (hcalm.frames ▸ hlast) hroot hheld hsignature hm
  refine Ends.next (still_trace _ _).does (halts_trace hmay _ fun _ => told_ok _).ends
    (fun _ _ => ?_) _ hopened
  have hstart : ∀ i, f.body = some i → c.Marks i ⟨code, false, _⟩ ∧
      p.forest.Has Operator.InRow i := fun i hi =>
    ⟨hbody i hi, has_inRow hlayout (hbody i hi) rfl⟩
  exact .bind (does_runBody (h.executeSiblings hlayout hat' hbody) _)
    (ends_runBody (h.siblingsEnd hlayout hregular hat' hstart) _)
    fun result _ _ _ => (halts_callResult hmay f result).ends

/-- Every call that its label allows ends as is allowed. -/
theorem Proper.callNode (hlayout : Layout p c) (hregular : p.forest.Regular)
    (hat : w.At p c label scope) {callee : Callee} (hcallee : c.Calls label callee)
    (arguments : List Operand) :
    Ends p c w inner (Level.callNode p below callee arguments) := by
  obtain ⟨n, f, rfl, hf, hfunction⟩ := function_of_calls hlayout hcallee
  unfold Level.callNode
  rw [hfunction]
  dsimp only
  split
  · have hfails : Does p c w (fail (.execution (.wrongArity f.fullName
        f.parameters.length arguments.length)) : Exec PUnit) w.Calm
          fun _ _ => False := does_fail _ (.refl w)
    exact .bind hfails (halts_fail fun _ => trivial).ends fun _ _ _ hfalse => hfalse.elim
  · next hlength =>
    exact h.enterCall hlayout hregular hat hf hcallee (by simpa using hlength)

end

/-- Every level of a running program ends as is allowed. -/
theorem proper_running (hlayout : Layout p c) (hanchored : Anchored p c)
    (hregular : p.forest.Regular) : ∀ depth, (running p depth).Proper p c
  | 0 => proper_bottom
  | depth + 1 =>
    have below := proper_running hlayout hanchored hregular depth
    { toSound := sound_running hlayout hanchored (depth + 1)
      evaluates := fun hat he => below.evaluateNode hanchored hat he
      executes := fun hat hmarks hnode hrow =>
        below.executeNode hlayout hanchored hregular hat hmarks hnode hrow
      calls := fun arguments hat hcallee =>
        below.callNode hlayout hregular hat hcallee arguments
      starts := fun hnone hroot => below.executeRoot hlayout hregular hnone hroot }

end Level

/-! ## Whole runs

The outline comes before the modules; it fails only if the program is nested too deeply.  Behind
it the modules run one after the other, each in a scope of its own. -/

/-- An outline gives up on what is nested too deeply, and fails for no other reason. -/
theorem Forest.eq_tooDeep {f : Forest Operator} {fault : Fault}
    (h : f.outline = .error fault) : fault = .tooDeep := by
  have htrees := Forest.mapM_outcome (f.outlineFrom_outcome outlineLimit 0) f.roots
  unfold Forest.outline at h
  rcases htrees with ⟨-, hrun⟩ | ⟨-, trees, hrun⟩
  · rw [hrun] at h
    cases h
    rfl
  · rw [hrun] at h
    cases h

/-- An outline may fail because it is too deep. -/
theorem Forest.told_outline (f : Forest Operator) : Told Fault.Simple f.outline :=
  fun _ h => Forest.eq_tooDeep h ▸ ⟨trivial, rfl⟩

/-- To trace the outline may fail because it is too deep. -/
theorem halts_traceOutline {may : Option Conversion → Halt → Prop} (hmay : Halt.Lenient may)
    (p : Program) : Halts may p.traceOutline := by
  refine halts_get fun m => ?_
  split
  · refine (halts_told hmay p.forest.told_outline).bind fun lines => ?_
    induction lines with
    | nil => exact halts_pure ()
    | cons line lines ih => exact (halts_trace hmay _ fun _ => told_ok _).bind fun _ => ih
  · exact halts_pure ()

/-- A whole run, from a state without frames on. -/
theorem ends_run {p : Program} {c : Chart} (hlayout : Layout p c)
    (hanchored : Anchored p c) (hregular : p.forest.Regular) {w : World}
    (hnone : w.frames = []) : Ends p c w False p.run := by
  have hproper := Level.proper_running hlayout hanchored hregular levelLimit
  have hmodules : ∀ (roots : List Nat) {w : World},
      (∀ root ∈ roots, root ∈ p.forest.roots) → w.frames = [] →
      Ends p c w False (roots.forM p.level.execute) := by
    intro roots
    induction roots with
    | nil => exact fun _ _ => (halts_pure _).ends
    | cons root roots ih =>
      intro w hroots hnone
      obtain ⟨hroot, hrest⟩ := List.forall_mem_cons.mp hroots
      exact .bind (hproper.start hnone hroot) (hproper.starts hnone hroot)
        fun _ w' hcalm _ => ih hrest (hcalm.frames.trans hnone)
  refine .next (still_traceOutline p).does
    (halts_traceOutline (Halt.lenient_allowed False) p).ends fun _ _ m hm => ?_
  -- the trace is closed however the modules end
  have hhalts : Halts (Halt.Allowed False) (fun _ => p.forest.roots.forM p.level.execute m) :=
    fun _ => hmodules p.forest.roots (fun _ hroot => hroot) hnone m hm
  have hclosed := hhalts.andThenTidy (fun _ => rfl : ∀ m, (closeTrace m).refused = m.refused)
  exact hclosed m

/-- A program text is refused for documented reasons.  A numeral that cannot be read is
that of a token, and too long. -/
theorem Program.ofText_documented {source : String} {fault : Fault}
    (h : ofText source = .error fault) :
    fault.Documented ∧ ∀ reason, fault = .numeral reason → ∃ tokens t,
      Token.ofText source = .ok tokens ∧ t ∈ tokens ∧ t.kind = .number ∧
        Numeral.Overlong t.text ∧ Numeral.readInteger t.text = .error reason := by
  unfold ofText at h
  cases htokens : Token.ofText source with
  | error refused =>
    rw [htokens] at h
    cases h
    obtain ⟨line, column, rfl⟩ := Token.ofText_error htokens
    exact ⟨trivial, fun _ heq => nomatch heq⟩
  | ok tokens =>
    rw [htokens] at h
    have hforeseen := ofTokens_foreseen h
    have hnumeral : ∀ reason, fault = .numeral reason → ∃ t ∈ tokens, t.kind = .number ∧
        Numeral.Overlong t.text ∧ Numeral.readInteger t.text = .error reason := by
      rintro reason rfl
      obtain ⟨t, ht, hkind, negative, hread⟩ := hforeseen
      obtain ⟨hdigits, hlong, herror⟩ :=
        readNumber_long (Token.ofText_numbers htokens t ht hkind) hread
      exact ⟨t, ht, hkind, ⟨[], _, rfl, List.mem_cons_self .., hdigits, hlong⟩, herror⟩
    refine ⟨?_, fun reason heq => ?_⟩
    · cases fault with
      | numeral reason =>
        obtain ⟨t, -, -, hlong, herror⟩ := hnumeral reason rfl
        exact ⟨_, hlong, herror⟩
      | parse _ | undeclared _ _ | redeclared _ _ | configuration _ | tooDeep => trivial
      | _ => exact hforeseen.elim
    · obtain ⟨t, ht, hkind, hlong, herror⟩ := hnumeral reason heq
      exact ⟨tokens, t, rfl, ht, hkind, hlong, herror⟩

/-- A run of a program that was built ends with nothing but documented faults, and the
machine tells which conversion a numeral is to blame in. -/
theorem Program.runOn_documented {tokens : List Token} {p : Program}
    (h : ofTokens tokens = .ok p) {answers : List String} {interactive : Bool}
    {verbosity ticks : Nat} {halt : Halt} {m : Machine}
    (hrun : p.runOn { answers, interactive, verbosity, ticks } = (.error halt, m)) :
    halt.Allowed False m.refused := by
  obtain ⟨c, hlayout, hanchored⟩ := ofTokens_layout h
  have hends := ends_run hlayout hanchored (regular_of_ofTokens h) (w := {}) rfl _
    (World.describes_fresh answers interactive verbosity ticks)
  unfold runOn at hrun
  cases hend : p.run { answers, interactive, verbosity, ticks } with
  | ok a m' =>
    rw [hend] at hrun
    cases hrun
  | error halt' m' =>
    rw [hend] at hrun
    cases hrun
    exact hends halt m hend

/-- Only documented faults come out of a program.  A text is refused for such a fault,
and where a numeral is to blame it is that of a token and too long.  A run that ends has
a result or such a fault, and never ends by giving something back: what a function gives
back passes no expression and no call, and arrives in the frame in which it was given
back.  Where a numeral is to blame in a run, the run was to convert a text to an integer, as
the machine has kept, and that text is too long. -/
theorem only_documented_faults (source : String) (answers : List String)
    (interactive : Bool) (verbosity ticks : Nat) :
    (∀ fault, Program.ofText source = .error fault → fault.Documented ∧
      ∀ reason, fault = .numeral reason → ∃ tokens t,
        Token.ofText source = .ok tokens ∧ t ∈ tokens ∧ t.kind = .number ∧
          Numeral.Overlong t.text ∧ Numeral.readInteger t.text = .error reason) ∧
    ∀ p, Program.ofText source = .ok p →
      (∀ halt m, p.runOn { answers, interactive, verbosity, ticks } = (.error halt, m) →
        (∀ result, halt ≠ .returned result) ∧
          ∀ fault, halt = .fault fault → fault.Documented ∧
            ∀ reason, fault = .numeral reason →
              ∃ c, m.refused = some c ∧ c.Overlong reason) ∧
      (∀ depth, (Level.running p depth).Contained) ∧
      ∀ m, p.Reaches m → ∀ left depth index result m',
        (Level.running p depth).execute index { m with ticks := left } =
          .error (.returned result) m' → m'.frames = m.frames := by
  refine ⟨fun fault hfault => Program.ofText_documented hfault, fun p hp => ?_⟩
  obtain ⟨tokens, -, htokens⟩ := Forest.except_bind_ok.mp hp
  refine ⟨fun halt m hrun => ?_, Level.contained_running p, ?_⟩
  · have hallowed := Program.runOn_documented htokens hrun
    refine ⟨?_, ?_⟩
    · rintro result rfl
      exact hallowed
    · rintro fault rfl
      refine ⟨hallowed.documented, ?_⟩
      rintro reason rfl
      exact hallowed
  · intro m hm left depth index result m' hrun
    have halike : m.Alike { m with ticks := left } := ⟨rfl, rfl⟩
    have hunwinds := ((steady_running p depth).execute index).unwinds (halike.tidy hm.tidy)
    unfold Exec.Unwinds at hunwinds
    rw [hrun] at hunwinds
    exact hunwinds.1

/-- A function that divides by its argument is called with zero. -/
def dividingText : String :=
  "module m; function f(integer n): integer return 1 / n; end f. begin output f(0); end."

/-- A numeral that cannot be read does not convert. -/
theorem Value.convert_unread {text : String} {reason : Numeral.NumeralFault}
    (hnumeral : Scalar.isIntegerNumeral (Text.strip text) = true)
    (hread : Numeral.readInteger (String.ofList (Text.strip text)) = .error reason) :
    (string text).convert ⟨.integer, none⟩ = .error (.numeral reason) := by
  have hscalar : (Scalar.string text).toInteger = .error (.numeral reason) := by
    unfold Scalar.toInteger
    dsimp only
    rw [if_pos hnumeral, hread]
  show Except.map integer (Scalar.string text).toInteger = _
  rw [hscalar]
  rfl

/-- More ones than are read. -/
theorem Value.convert_ones {n : Nat} (h : 4300 < n) :
    (string (String.ofList (List.replicate n '1'))).convert ⟨.integer, none⟩ =
      .error (.numeral (.tooLong n)) := by
  have hne : n ≠ 0 := Nat.ne_zero_of_lt h
  have hstrip : Text.strip (String.ofList (List.replicate n '1')) = List.replicate n '1' := by
    have hblank : Text.isBlank '1' = false := by decide
    simp [Text.strip, Text.stripBy, hblank]
  have hsplit : Numeral.splitSign (List.replicate n '1') = (false, List.replicate n '1') := by
    obtain ⟨k, rfl⟩ := Nat.exists_eq_succ_of_ne_zero hne
    rfl
  refine convert_unread ?_ ?_
  · have hdigit : '1'.isDigit = true := by decide
    rw [hstrip]
    simp [Scalar.isIntegerNumeral, hsplit, hdigit, hne]
  · have hdigits : Grammar.IsDigits (List.replicate n '1') :=
      ⟨by simp [hne], fun c hc => by rw [List.eq_of_mem_replicate hc]; decide⟩
    rw [hstrip, Grammar.readInteger_row (by rwa [String.toList_ofList]), String.toList_ofList,
      List.length_replicate, if_pos h]

namespace Exec

variable {α β : Type} {x : Exec α} {f : α → Exec β} {fault : Fault} {m n : Machine}
  {left : Nat}

/-- Whether a computation fails and leaves so many ticks. -/
def Fails (x : Exec α) (fault : Fault) (left : Nat) (m : Machine) : Prop :=
  ∃ n, x m = .error (.fault fault) n ∧ n.ticks = left

/-- What begins with a failure fails. -/
theorem Fails.bind (h : x.Fails fault left m) : (x >>= f).Fails fault left m := by
  obtain ⟨n, hrun, hticks⟩ := h
  exact ⟨n, by rw [bind_apply, hrun], hticks⟩

/-- A failure behind something that succeeds. -/
theorem Fails.behind {a : α} (hx : x m = .ok a n) (h : (f a).Fails fault left n) :
    (x >>= f).Fails fault left m := by
  unfold Fails
  rw [bind_apply, hx]
  exact h

/-- A failure in a new scope is one of the whole. -/
theorem Fails.within {parent : Option Nat} {name : String} {vars : Variables}
    {x : Nat → Exec α} (h : (x m.environment.scopes.size).Fails fault (left + 1)
      (entered m parent name vars)) : (within parent name vars x).Fails fault left m := by
  obtain ⟨n, hrun, hticks⟩ := h
  have hclosed : (x m.environment.scopes.size).thenTick (entered m parent name vars) =
      .error (.fault fault) { n with ticks := left } := by
    rw [thenTick_of_error hrun]
    show (tick >>= fun _ => throw (.fault fault)) n = _
    rw [bind_apply, tick_of_succ hticks]
    rfl
  refine ⟨popScope { n with ticks := left }, ?_, ?_⟩
  · rw [within_apply]
    unfold Exec.andThenTidy
    rw [hclosed]
  · unfold popScope
    split <;> rfl

end Exec

/-- If the only module of a program fails on a new machine, so does the run. -/
theorem Program.runOn_of_root {p : Program} {root : Nat} (hroots : p.forest.roots = [root])
    {answers : List String} {ticks : Nat} {fault : Fault} {left : Nat}
    (h : (p.level.execute root).Fails fault left { answers, ticks }) :
    ∃ m, p.runOn { answers, ticks } = (.error (.fault fault), m) := by
  obtain ⟨m, hrun, -⟩ := h
  have hmodules : (p.forest.roots.forM p.level.execute) { answers, ticks } =
      .error (.fault fault) m := by
    rw [hroots]
    show (p.level.execute root >>= fun _ => [].forM p.level.execute) _ = _
    rw [bind_apply, hrun]
  have hruns : p.run { answers, ticks } = .error (.fault fault) m.closeTrace := by
    -- nothing is traced, so no outline is made before the modules run
    show (p.forest.roots.forM p.level.execute).andThenTidy closeTrace { answers, ticks } = _
    unfold Exec.andThenTidy
    rw [hmodules]
  refine ⟨m.closeTrace, ?_⟩
  unfold runOn
  rw [hruns]

/-- An answer is read into an integer. -/
def askingText : String := "module m; variable - integer x; begin input x; end."

/-- An answer of ones, one more than are read. -/
def longAnswer : String := String.ofList (List.replicate 4301 '1')

/-- Whether a program reads an answer into an integer and does nothing else. -/
def Program.asks (p : Program) : Bool :=
  match p.forest.roots, p.forest.nodes.toList.map Node.operator with
  | [0], [.module _ _, .declaration t name none, .beginning, .input target] =>
    t = ⟨.integer, none⟩ && (name = "x" && (target.name = "x" &&
      (p.forest.children 0 = [1, 2] && p.forest.children 2 = [3])))
  | _, _ => false

/-- Such a program fails as the conversion of the answer does. -/
theorem Program.runOn_asks {p : Program} (h : p.asks = true) {answer : String} {fault : Fault}
    (hanswer : (Value.string answer).convert ⟨.integer, none⟩ = .error fault) :
    ∃ m, p.runOn { answers := [answer], ticks := 30 } = (.error (.fault fault), m) := by
  unfold asks at h
  split at h
  · next name number t declared target hroots hnodes =>
    simp only [Bool.and_eq_true, decide_eq_true_eq] at h
    obtain ⟨rfl, rfl, htarget, hmodule, hmain⟩ := h
    obtain ⟨targetName, site⟩ := target
    obtain rfl : targetName = "x" := htarget
    have hoperator : ∀ i : Nat, (p.forest.nodes[i]?).map Node.operator =
        ([.module name number, .declaration ⟨.integer, none⟩ "x" none, .beginning,
          .input ⟨"x", site⟩] : List Operator)[i]? := by
      intro i
      rw [← hnodes, List.getElem?_map, Array.getElem?_toList]
    obtain ⟨node₀, hnode₀, hop₀⟩ := Option.map_eq_some_iff.mp (hoperator 0)
    obtain ⟨node₁, hnode₁, hop₁⟩ := Option.map_eq_some_iff.mp (hoperator 1)
    obtain ⟨node₂, hnode₂, hop₂⟩ := Option.map_eq_some_iff.mp (hoperator 2)
    obtain ⟨node₃, hnode₃, hop₃⟩ := Option.map_eq_some_iff.mp (hoperator 3)
    have hfails : (p.level.execute 0).Fails fault 24 { answers := [answer], ticks := 30 } := by
      show Exec.Fails (Level.executeNode p (Level.running p 999) 0) fault 24 _
      unfold Level.executeNode
      rw [hnode₀]
      refine .behind rfl (.behind rfl ?_)
      rw [hop₀]
      refine .within (.behind rfl ?_)
      rw [hmodule]
      refine .behind (a := ()) (n := ?declared) ?declares (.bind ?inputs)
      case declares =>
        show Level.executeNode p (Level.running p 998) 1 _ = _
        unfold Level.executeNode
        rw [hnode₁]
        dsimp only
        rw [hop₁]
        exact rfl
      case inputs =>
        show Exec.Fails (Level.executeNode p (Level.running p 998) 2) fault 25 _
        unfold Level.executeNode
        rw [hnode₂]
        refine .behind rfl (.behind rfl ?_)
        rw [hop₂]
        dsimp only
        rw [hmain]
        refine .bind ?_
        show Exec.Fails (Level.executeNode p (Level.running p 997) 3) fault 25 _
        unfold Level.executeNode
        rw [hnode₃]
        refine .behind rfl (.behind rfl ?_)
        rw [hop₃]
        dsimp only
        rw [Level.executeInput_eq]
        -- the scope, the variable and the answer are found
        refine .behind rfl (.behind rfl (.behind rfl (.bind ?_)))
        unfold Exec.Fails
        rw [convert_apply]
        dsimp only [Store.reveal]
        rw [hanswer]
        exact ⟨_, rfl, rfl⟩
    exact runOn_of_root hroots hfails
  · cases h

/-- The division fails in the call, a module without an end is refused, and an answer of
one digit more than are read is not made an integer. -/
theorem only_documented_faults_dividing :
    (∃ p m fault, Program.ofText dividingText = .ok p ∧
      p.runOn { ticks := 30 } = (.error (.fault fault), m) ∧ fault.Documented) ∧
    (∃ fault, Program.ofText "module m; begin output 1" = .error fault ∧
      fault.Documented) ∧
    ∃ p m c, Program.ofText askingText = .ok p ∧
      p.runOn { answers := [longAnswer], ticks := 30 } =
        (.error (.fault (.numeral (.tooLong 4301))), m) ∧
      m.refused = some c ∧ c.Overlong (.tooLong 4301) := by
  have hruns : (Program.ofText dividingText).toOption.any (fun p =>
      Program.faulted (fun _ _ => true) (p.runOn { ticks := 30 })) = true := by
    decide +kernel
  have hrefused : (Program.ofText "module m; begin output 1").toOption.isNone = true := by
    decide +kernel
  have hasks : (Program.ofText askingText).toOption.any Program.asks = true := by
    decide +kernel
  refine ⟨?_, ?_, ?_⟩
  · obtain ⟨p, hp, hholds⟩ := exists_ok _ hruns
    obtain ⟨fault, m, hrun, -⟩ := Program.exists_of_faulted hholds
    have hends := ((only_documented_faults dividingText [] false 0 30).2 p hp).1
    exact ⟨p, m, fault, hp, hrun, ((hends _ m hrun).2 fault rfl).1⟩
  · cases hfault : Program.ofText "module m; begin output 1" with
    | ok p =>
      rw [hfault] at hrefused
      cases hrefused
    | error fault =>
      have hdocumented := (only_documented_faults _ [] false 0 0).1 fault hfault
      exact ⟨fault, rfl, hdocumented.1⟩
  · obtain ⟨p, hp, hholds⟩ := exists_ok _ hasks
    have hlong : (Value.string longAnswer).convert ⟨.integer, none⟩ =
        .error (.numeral (.tooLong 4301)) := Value.convert_ones (by decide)
    obtain ⟨m, hrun⟩ := Program.runOn_asks hholds hlong
    have hends := ((only_documented_faults askingText [longAnswer] false 0 30).2 p hp).1
    obtain ⟨c, hc, hoverlong⟩ := ((hends _ m hrun).2 _ rfl).2 _ rfl
    exact ⟨p, m, c, hp, hrun, hc, hoverlong⟩

end Pseudocode
