import Pseudocode.Proofs.World.Steps

/-!
# A running program keeps its world

The interpreter is followed level by level, as in `steady_running`, but now for a
program that has a chart.  The label of an operator tells in which frames it can
be executed (`World.At`); executing it makes the frame right for the next label.
A call opens a frame that is right for the label of the function's body.

Expressions use names and call functions that their label allows (`Expr.Uses`), which is all
that is known of them, and leave the frames as they are.  Operators follow one another: the
label behind a declaration has one name more, and executing the declaration is what makes
the frame have it (`Sound.executeDeclaration`).  Where code is nested in a loop or a
conditional its label has no more names than before, so that the label of its first operator
is right for the code behind the loop as well (`Sound.executeInside`).
-/

namespace Pseudocode

open Exec Machine

/-- What a level does where a label says that it can be done. -/
structure Level.Sound (p : Program) (c : Chart) (level : Level) : Prop where
  evaluate : ∀ {w : World} {label : Label} {scope : Nat} {e : Expr},
    w.At p c label scope → e.Uses (c.Resolves p label) (c.Calls label) →
    Does p c w (level.evaluate (some scope) e) w.Calm fun _ _ => True
  execute : ∀ {w : World} {label : Label} {scope index : Nat} {node : Node Operator},
    w.At p c label scope → c.Marks index label → p.forest.nodes[index]? = some node →
    Does p c w (level.execute index) w.Grown fun _ w' =>
      node.operator ≠ .beginning ∨ label.nested = true →
        w'.At p c (label.after node.operator) scope
  call : ∀ {w : World} {label : Label} {scope : Nat} {callee : Callee}
    (arguments : List Operand), w.At p c label scope → c.Calls label callee →
    Does p c w (level.call callee arguments) w.Calm fun _ _ => True
  start : ∀ {w : World} {root : Nat}, w.frames = [] → root ∈ p.forest.roots →
    Does p c w (level.execute root) w.Calm fun _ _ => True

namespace Level

variable {p : Program} {c : Chart} {w : World} {label : Label} {scope : Nat}

/-- At the bottom everything is too deep, and the world stays as it is. -/
theorem sound_bottom : bottom.Sound p c where
  evaluate _ _ := does_fail _ (.refl _)
  execute _ _ _ := does_fail _ (World.Calm.refl _).grown
  call _ _ _ := does_fail _ (.refl _)
  start _ _ := does_fail _ (.refl _)

variable {below : Level}

/-! ## Expressions

Expressions leave the frames as they are, and their operands conform to what is asked of them.
Only calls do anything to variables, and behind a call the frames are those from before. -/

/-- The operand that a variable holds is of the variable's type. -/
theorem does_readVariable (hanchored : Anchored p c) (hat : w.At p c label scope)
    {target : Occurrence} (htarget : c.Resolves p label target) :
    Does p c w (below.readVariable (some scope) target) (· = w) fun operand _ =>
      ∃ f t, w.owner? target.name = some f ∧ p.Declares f.code target.name t ∧
        operand.Holds w.cells t := by
  refine (does_variableIn hanchored hat htarget).next rfl fun v hv => ?_
  obtain ⟨f, operand, howner, hdeclares, hbinding, hholds⟩ := hv
  rw [hbinding]
  exact does_pure rfl ⟨f, v.type, howner, hdeclares, hholds⟩

/-- To read a slot leaves the world as it is. -/
theorem does_readSlot (name : String) (array : Operand) (index : Int) :
    Does p c w (readSlot name array index) w.Calm fun _ _ => True := by
  refine (still_reveal array).does.next (.refl w) fun v _ => ?_
  split
  · refine (does_lift _).next (.refl w) fun slot _ => ?_
    split
    · exact does_fail _ (.refl w)
    · exact does_pure (.refl w) trivial
  · exact does_fail _ (.refl w)

section

variable (h : below.Sound p c)

include h

/-- An expression that is read as a truth value leaves the frames as they are. -/
theorem Sound.evaluateTruth (hat : w.At p c label scope) {e : Expr}
    (he : e.Uses (c.Resolves p label) (c.Calls label)) :
    Does p c w (below.evaluateTruth (some scope) e) w.Calm fun _ _ => True :=
  (h.evaluate hat he).calmly fun operand _ _ _ =>
    ((still_reveal operand).bind fun _ => still_lift _).does.calm

/-- An expression that is read as an integer leaves the frames as they are. -/
theorem Sound.evaluateInteger (hat : w.At p c label scope) {e : Expr}
    (he : e.Uses (c.Resolves p label) (c.Calls label)) :
    Does p c w (below.evaluateInteger (some scope) e) w.Calm fun _ _ => True :=
  (h.evaluate hat he).calmly fun operand _ _ _ =>
    ((still_reveal operand).bind fun _ => still_settle _ _).does.calm

/-- A condition leaves the frames as they are. -/
theorem Sound.evaluateCondition (hat : w.At p c label scope) (op : Condition)
    {left right : Expr} (hleft : left.Uses (c.Resolves p label) (c.Calls label))
    (hright : right.Uses (c.Resolves p label) (c.Calls label)) :
    Does p c w (below.evaluateCondition (some scope) op left right) w.Calm
      fun _ _ => True := by
  cases op with
  | both =>
    refine (h.evaluateTruth hat hleft).calmly fun holds w' hcalm _ => ?_
    split
    · exact h.evaluateTruth (hat.calm hcalm) hright
    · exact does_pure (.refl w') trivial
  | either =>
    refine (h.evaluateTruth hat hleft).calmly fun holds w' hcalm _ => ?_
    split
    · exact does_pure (.refl w') trivial
    · exact h.evaluateTruth (hat.calm hcalm) hright
  | compare comparison =>
    refine (h.evaluate hat hleft).calmly fun a w' hcalm _ => ?_
    refine (h.evaluate (hat.calm hcalm) hright).calmly fun b _ _ _ => ?_
    exact ((still_reveal a).bind fun _ => (still_reveal b).bind fun _ =>
      still_lift _).does.calm

/-- Expressions of which a list is evaluated, one after the other. -/
theorem Sound.evaluateAll (hat : w.At p c label scope) {es : List Expr}
    (hes : ∀ e ∈ es, e.Uses (c.Resolves p label) (c.Calls label)) :
    Does p c w (es.mapM (below.evaluate (some scope))) w.Calm fun _ w' =>
      w'.At p c label scope :=
  does_mapM (fun w => w.At p c label scope) es (fun e he _ hw =>
    (h.evaluate hw (hes e he)).imp (fun _ hcalm => hcalm)
      fun _ _ hcalm _ => hw.calm hcalm) hat

/-- Every expression that its label allows leaves the frames as they are. -/
theorem Sound.evaluateNode (hanchored : Anchored p c) (hat : w.At p c label scope)
    {e : Expr} (he : e.Uses (c.Resolves p label) (c.Calls label)) :
    Does p c w (below.evaluateNode (some scope) e) w.Calm fun _ _ => True := by
  refine does_tick.next (.refl w) fun _ _ => ?_
  cases he with
  | literal v => exact does_pure (.refl w) trivial
  | read htarget =>
    exact (does_readVariable hanchored hat htarget).calm.imp (fun _ h => h)
      fun _ _ _ _ => trivial
  | slot htarget hindex =>
    refine (does_readVariable hanchored hat htarget).next (.refl w) fun array _ => ?_
    exact (h.evaluateInteger hat hindex).calmly fun _ _ _ _ =>
      does_readSlot _ _ _
  | sign hoperand =>
    refine (h.evaluate hat hoperand).calmly fun a _ _ _ => ?_
    exact ((still_reveal a).bind fun _ => (still_lift _).bind fun _ =>
      still_pure _).does.calm
  | arithmetic _ hleft hright =>
    refine (h.evaluate hat hleft).calmly fun a w' hcalm _ => ?_
    refine (h.evaluate (hat.calm hcalm) hright).calmly fun b _ _ _ => ?_
    exact ((still_reveal a).bind fun _ => (still_reveal b).bind fun _ =>
      (still_lift _).bind fun _ => still_pure _).does.calm
  | condition _ hleft hright =>
    refine (h.evaluateCondition hat _ hleft hright).calmly fun _ w' _ _ => ?_
    exact does_pure (.refl w') trivial
  | call hcallee harguments =>
    refine (h.evaluateAll hat harguments).calmly fun operands w' _ hat' => ?_
    refine (h.call operands hat' hcallee).calmly fun result w'' _ _ => ?_
    cases result with
    | some operand => exact does_pure (.refl w'') trivial
    | none => exact does_fail _ (.refl w'')

/-! ## Operators

Operators are executed in the innermost scope, and behind each the frame has the names that the
label of the next one knows.  A row is followed label by label; what is nested in a loop or a
branch starts from its label again, however often it is executed. -/

/-- Operators that follow each other, from a place with a label on.  Where names are
only declared in doubt, the label of the first is right for the last, too. -/
theorem Sound.executeSiblings (hlayout : Layout p c) (hat : w.At p c label scope)
    {start : Option Nat} (hstart : ∀ i, start = some i → c.Marks i label) :
    Does p c w (below.executeAll (p.forest.siblings start)) w.Grown fun _ w' =>
      label.nested = true → w'.At p c label scope := by
  have hnothing : ∀ {w : World} {label : Label},
      (label.nested = true → w.At p c label scope) →
      Does p c w (below.executeAll []) w.Grown fun _ w' =>
        label.nested = true → w'.At p c label scope :=
    fun {w _} hat => does_tick.imp (fun _ heq => heq ▸ (World.Calm.refl w).grown)
      fun _ _ heq _ => heq ▸ hat
  unfold Forest.siblings
  generalize p.forest.size = limit
  induction limit generalizing w label start with
  -- the chain is bounded by the size of the forest; each operator hands its label on
  | zero => cases start <;> exact hnothing fun _ => hat
  | succ limit ih =>
    cases start with
    | none => exact hnothing fun _ => hat
    | some i =>
      have hmarks := hstart i rfl
      obtain ⟨node, hnode⟩ : ∃ node, p.forest.nodes[i]? = some node :=
        ⟨_, Array.getElem?_eq_getElem (hlayout.marks_lt hmarks)⟩
      have hfits := hlayout.nodes i label node hmarks hnode
      have hlinks : (p.forest.links i).sibling = node.links.sibling := by
        simp [Forest.links, hnode]
      refine (h.execute hat hmarks hnode).growing fun _ w' _ hat' => ?_
      rw [hlinks]
      cases hsibling : node.links.sibling with
      | none =>
        rw [Forest.siblingsWithin]
        refine hnothing fun hnested => ?_
        -- nested code adds to no label, so the first one has stayed right
        have hlast := hat' (.inr hnested)
        rwa [Label.after_of_nested hnested] at hlast
      | some j =>
        obtain ⟨hordinary, hj⟩ := hfits.sibling j hsibling
        have hnext : ∀ k, some j = some k → c.Marks k (label.after node.operator) := by
          rintro _ ⟨⟩
          exact hj
        refine (ih (hat' (.inl hordinary)) hnext).imp (fun _ hgrown => hgrown)
          fun _ w'' _ hlast hnested => ?_
        rw [Label.after_nested, Label.after_of_nested hnested] at hlast
        exact hlast hnested

/-- A guard leaves the innermost scope right for its label. -/
theorem Sound.testGuard (hat : w.At p c label scope) {guard : Expr}
    (hguard : guard.Uses (c.Resolves p label) (c.Calls label)) :
    Does p c w (below.testGuard guard) w.Calm fun _ w' => w'.At p c label scope := by
  refine (does_activeScope hat).next (.refl w) fun a ha => ?_
  subst ha
  refine (h.evaluateInteger hat hguard).calmly fun _ w' hcalm _ => ?_
  refine (still_trace _ _).does.next (.refl w') fun _ _ => ?_
  exact does_pure (.refl w') (hat.calm hcalm)

omit h in
/-- A value that is converted to the declared type is one that the variable may hold. -/
theorem does_declareAs (hat : w.At p c label scope) {t : DeclaredType} {name : String}
    (hdeclares : p.Declares label.code name t)
    (hdoubts : label.nested = true → c.Doubts p label.code name) (initial : Option Expr)
    (operand : Operand) :
    Does p c w (declareAs t name operand) w.Grown fun _ w' =>
      w'.At p c (label.after (.declaration t name initial)) scope := by
  refine (does_convert operand t).before fun held w' hcalm hheld => ?_
  refine (does_declareHere (hat.calm hcalm) hdeclares hheld hdoubts initial).growing
    fun _ w'' _ hat' => ?_
  exact (still_trace _ _).does.imp (fun _ heq => heq ▸ (World.Calm.refl w'').grown)
    fun _ _ heq _ => heq ▸ hat'

/-- A declaration gives its variable a value of the declared type. -/
theorem Sound.executeDeclaration (hat : w.At p c label scope) {t : DeclaredType}
    {name : String} {initial : Option Expr}
    (hinitial : ∀ e ∈ initial, e.Uses (c.Resolves p label) (c.Calls label))
    (hdeclares : p.Declares label.code name t)
    (hdoubts : label.nested = true → c.Doubts p label.code name) :
    Does p c w (below.executeDeclaration t name initial) w.Grown fun _ w' =>
      w'.At p c (label.after (.declaration t name initial)) scope := by
  cases initial with
  | some e =>
    rw [executeDeclaration_some]
    refine (does_activeScope hat).next (World.Calm.refl w).grown fun a ha => ?_
    subst ha
    have he := hinitial e rfl
    exact (h.evaluate hat he).before fun operand _ hcalm _ =>
      does_declareAs (hat.calm hcalm) hdeclares hdoubts (some e) operand
  | none =>
    rw [executeDeclaration_none]
    refine (does_lift _).next (World.Calm.refl w).grown fun v _ => ?_
    exact does_declareAs hat hdeclares hdoubts none _

omit h in
/-- A value is converted to the type of the variable that then holds it. -/
theorem does_rebindConverted (hat : w.At p c label scope) {name : String} {f : Frame}
    {t : DeclaredType} (howner : w.owner? name = some f)
    (hdeclares : p.Declares f.code name t) (value : Operand)
    {behind : Operand → Exec Unit} (hbehind : ∀ held, (behind held).Still) :
    Does p c w (do
      let held ← convert value t
      rebind scope name held
      behind held) w.Calm fun _ _ => True := by
  refine (does_convert value t).calmly fun held w' hcalm hheld => ?_
  have howner' : w'.owner? name = some f := by
    unfold World.owner?
    rw [hcalm.frames]
    exact howner
  refine (does_rebind (hat.calm hcalm) howner' hdeclares hheld).next (.refl w')
    fun _ _ => ?_
  exact (hbehind held).does.calm

omit h in
/-- A variable that is assigned to is one of the world. -/
theorem does_assignVariable (hanchored : Anchored p c) (hat : w.At p c label scope)
    {target : Occurrence} (htarget : c.Resolves p label target) (value : Operand) :
    Does p c w (assignVariable target value) w.Calm fun _ _ => True := by
  refine (does_activeScope hat).next (.refl w) fun a ha => ?_
  subst ha
  refine (does_variableIn hanchored hat htarget).next (.refl w) fun v hv => ?_
  obtain ⟨f, -, howner, hdeclares, -⟩ := hv
  exact does_rebindConverted hat howner hdeclares value fun _ => still_trace _ _

/-- A slot is set in a cell whose type is that of the variable. -/
theorem Sound.assignSlot (hanchored : Anchored p c) (hat : w.At p c label scope)
    {target : Occurrence} (htarget : c.Resolves p label target) {element : Expr}
    (helement : element.Uses (c.Resolves p label) (c.Calls label)) (value : Operand) :
    Does p c w (below.assignSlot target element value) w.Calm fun _ _ => True := by
  refine (does_activeScope hat).next (.refl w) fun a ha => ?_
  subst ha
  refine (does_variableIn hanchored hat htarget).next (.refl w) fun v hv => ?_
  obtain ⟨f, -, howner, hdeclares, -⟩ := hv
  refine (does_readVariable hanchored hat htarget).next (.refl w) fun array harray => ?_
  obtain ⟨f', t, howner', hdeclares', hholds⟩ := harray
  -- both look-ups find the same variable, since nothing was evaluated between
  cases howner.symm.trans howner'
  cases hdeclares.unique hdeclares'
  split
  · next address _ =>
    refine (h.evaluateInteger hat helement).calmly fun index w' hcalm _ => ?_
    refine (still_reveal value).does.next (.refl w') fun u _ => ?_
    refine (does_settle _ _).next (.refl w') fun content hcontent => ?_
    -- the index may have called functions, but cells keep their types
    have haddress : w'.cells[address]? = some v.type := hholds.extend hcalm.cells
    refine (does_setSlot haddress (Value.conforms_convert hcontent) index).next (.refl w')
      fun _ _ => ?_
    exact (still_trace _ _).does.calm
  · exact (still_reveal _).does.next (.refl w) fun _ _ => does_fail _ (.refl w)

/-- An assignment leaves the frames as they are. -/
theorem Sound.assign (hanchored : Anchored p c) (hat : w.At p c label scope)
    {target : Occurrence} (htarget : c.Resolves p label target) {element : Option Expr}
    (helement : ∀ e ∈ element, e.Uses (c.Resolves p label) (c.Calls label))
    (value : Operand) :
    Does p c w (below.assign target element value) w.Calm fun _ _ => True := by
  cases element with
  | none => exact does_assignVariable hanchored hat htarget value
  | some e => exact h.assignSlot hanchored hat htarget (helement e rfl) value

omit h in
/-- An answer is converted to the type of the variable that then holds it. -/
theorem does_readInto (hat : w.At p c label scope) {target : Occurrence} {f : Frame}
    {type : DeclaredType} (howner : w.owner? target.name = some f)
    (hdeclares : p.Declares f.code target.name type) :
    Does p c w (readInto scope target type) w.Calm fun _ _ => True :=
  (still_nextAnswer _ _).does.next (.refl w) fun _ _ =>
    does_rebindConverted hat howner hdeclares _ fun _ => still_trace _ _

omit h in
/-- An `input` leaves the frames as they are. -/
theorem does_executeInput (hanchored : Anchored p c) (hat : w.At p c label scope)
    {target : Occurrence} (htarget : c.Resolves p label target) :
    Does p c w (executeInput target) w.Calm fun _ _ => True := by
  rw [executeInput_eq]
  refine (does_activeScope hat).next (.refl w) fun a ha => ?_
  subst ha
  refine (does_variableIn hanchored hat htarget).next (.refl w) fun v hv => ?_
  obtain ⟨f, -, howner, hdeclares, -⟩ := hv
  split
  · exact does_fail _ (.refl w)
  · exact does_readInto hat howner hdeclares

omit h in
/-- A result leaves with the world as it is. -/
theorem does_leaveWith (result : Option Operand) :
    Does p c w (leaveWith result) w.Calm fun _ _ => True :=
  does_tick.next (.refl w) fun _ _ => (still_returned result).does.calm

/-- What is nested in a loop or a conditional. -/
theorem Sound.executeInside (hlayout : Layout p c) (hat : w.At p c label scope)
    {index : Nat} {node : Node Operator} (hmarks : c.Marks index label)
    (hnode : p.forest.nodes[index]? = some node)
    (hconditional : node.operator.isConditional = true) :
    Does p c w (below.executeAll (p.forest.children index)) w.Grown fun _ w' =>
      w'.At p c label scope := by
  have hfits := hlayout.nodes index label node hmarks hnode
  have hinside : w.At p c label.inside scope := hat.relabel rfl rfl
  have hchild : ∀ j, (p.forest.links index).child = some j → c.Marks j label.inside := by
    intro j hj
    rw [Forest.links, hnode] at hj
    exact hfits.child j hj hconditional
  exact (h.executeSiblings hlayout hinside hchild).imp (fun _ hgrown => hgrown)
    fun _ _ _ hat' => (hat' rfl).relabel rfl rfl

/-- The further branches of a conditional, whichever is executed. -/
theorem Sound.executeBranches (hlayout : Layout p c) {fallback : Option Nat}
    (hfallback : ∀ j, fallback = some j → c.Marks j label.inside ∧
      ∃ q, p.forest.nodes[j]? = some q ∧ q.operator.isConditional = true) :
    ∀ {branches : List Nat} {w : World}, (∀ j ∈ branches, c.Marks j label.inside) →
      w.At p c label.inside scope →
      Does p c w (executeBranches p.forest below fallback branches) w.Grown fun _ w' =>
        w'.At p c label.inside scope
  | [], w, _, hat => by
    unfold Level.executeBranches
    cases fallback with
    | none => exact does_pure (World.Calm.refl w).grown hat
    | some j =>
      obtain ⟨hmarks, q, hq, hconditional⟩ := hfallback j rfl
      exact h.executeInside hlayout hat hmarks hq hconditional
  | j :: rest, w, hbranches, hat => by
    have hmarks := hbranches j (List.mem_cons_self ..)
    unfold Level.executeBranches
    cases hnode : p.forest.nodes[j]? with
    | none => exact does_fail _ (World.Calm.refl w).grown
    | some node =>
      have hfits := hlayout.nodes j label.inside node hmarks hnode
      cases hop : node.operator with
      | elseIf guard =>
        have hguard := hfits.uses
        rw [hop] at hguard
        simp only [Option.map_some, hop]
        refine (h.testGuard hat hguard).before fun holds w' _ hat' => ?_
        split
        · exact h.executeInside hlayout hat' hmarks hnode (by rw [hop]; rfl)
        · exact Sound.executeBranches hlayout hfallback
            (fun k hk => hbranches k (List.mem_cons_of_mem _ hk)) hat'
      | _ =>
        simp only [Option.map_some, hop]
        exact does_fail _ (World.Calm.refl w).grown

/-- An expression in the innermost scope. -/
theorem Sound.evaluateHere (hat : w.At p c label scope) {e : Expr}
    (he : e.Uses (c.Resolves p label) (c.Calls label)) :
    Does p c w (activeScope >>= fun a => below.evaluate (some a) e) w.Calm fun _ w' =>
      w'.At p c label scope := by
  refine (does_activeScope hat).next (.refl w) fun a ha => ?_
  subst ha
  exact (h.evaluate hat he).imp (fun _ hcalm => hcalm) fun _ _ hcalm _ => hat.calm hcalm

/-- An expression in the innermost scope, and then something in the same scope. -/
theorem Sound.evaluateHere_bind {α : Type} {f : Operand → Exec α}
    {gives : α → World → Prop} (hat : w.At p c label scope) {e : Expr}
    (he : e.Uses (c.Resolves p label) (c.Calls label))
    (hf : ∀ operand w', w'.At p c label scope →
      Does p c w' (f operand) w'.Calm gives) :
    Does p c w (activeScope >>= fun a => below.evaluate (some a) e >>= f) w.Calm
      gives := by
  refine (does_activeScope hat).next (.refl w) fun a ha => ?_
  subst ha
  exact (h.evaluate hat he).calmly fun operand w' hcalm _ =>
    hf operand w' (hat.calm hcalm)

/-- An operator is executed where its label says, and the next label is right
behind it. -/
theorem Sound.executeNode (hlayout : Layout p c) (hanchored : Anchored p c)
    (hat : w.At p c label scope) {index : Nat} {node : Node Operator}
    (hmarks : c.Marks index label) (hnode : p.forest.nodes[index]? = some node) :
    Does p c w (executeNode p below index) w.Grown fun _ w' =>
      node.operator ≠ .beginning ∨ label.nested = true →
        w'.At p c (label.after node.operator) scope := by
  have hfits := hlayout.nodes index label node hmarks hnode
  have huses := hfits.uses
  have hsame : w.Grown w := (World.Calm.refl w).grown
  refine does_tick.next hsame fun _ _ => ?_
  rw [hnode]
  refine (still_trace _ _).does.next hsame fun _ _ => ?_
  dsimp only
  -- most operators declare nothing and keep the label
  have hplain : ∀ {x : Exec Unit} {op : Operator}, label.after op = label →
      Does p c w x w.Calm (fun _ _ => True) → Does p c w x w.Grown fun _ w' =>
        op ≠ .beginning ∨ label.nested = true → w'.At p c (label.after op) scope := by
    intro x op hafter hx
    refine hx.imp (fun _ hcalm => hcalm.grown) fun _ _ hcalm _ _ => ?_
    rw [hafter]
    exact hat.calm hcalm
  have hnested : ∀ {w : World}, node.operator.isConditional = true →
      w.At p c label scope → Does p c w (below.executeAll (p.forest.children index))
        w.Grown fun _ w' => w'.At p c label scope :=
    fun hconditional hat => h.executeInside hlayout hat hmarks hnode hconditional
  cases hop : node.operator with
  | module name number => exact absurd hop (hfits.inner name number)
  | beginning =>
    -- the main part is the last operator of its module, so no label follows
    have hchild : ∀ j, (p.forest.links index).child = some j → c.Marks j label := by
      intro j hj
      rw [Forest.links, hnode] at hj
      exact hfits.main j hj hop
    refine (h.executeSiblings hlayout hat hchild).imp (fun _ hgrown => hgrown) ?_
    exact fun _ _ _ hat' hwhere => hat' (hwhere.resolve_left fun hne => hne rfl)
  | branch guard =>
    rw [hop] at huses
    have hconditional : node.operator.isConditional = true := by rw [hop]; rfl
    refine (h.testGuard hat huses).before fun holds w' _ hat' => ?_
    split
    · exact (hnested hconditional hat').imp (fun _ hgrown => hgrown)
        fun _ _ _ hat'' _ => hat''
    · -- the further branches have the label of what is nested
      have hbranches := h.executeBranches hlayout
        (fun j hj => ⟨hfits.branches j (.inr hj), hfits.fallback j hj⟩)
        (fun j hj => hfits.branches j (.inl hj)) (hat'.relabel rfl rfl)
      exact hbranches.imp (fun _ hgrown => hgrown)
        fun _ _ _ hat'' _ => hat''.relabel rfl rfl
  | loop guard =>
    rw [hop] at huses
    have hconditional : node.operator.isConditional = true := by rw [hop]; rfl
    have hloop := does_loop (fun w => w.At p c label scope)
      (fun _ hat => h.testGuard hat huses) (fun _ hat => hnested hconditional hat) hat
    exact hloop.imp (fun _ hgrown => hgrown) fun _ _ _ hat' _ => hat'
  | declaration t name initial =>
    rw [hop] at huses
    refine (h.executeDeclaration hat huses (hfits.declares t name initial hop) ?_).imp
      (fun _ hgrown => hgrown) fun _ _ _ hat' _ => hat'
    exact fun hnested => ⟨index, label, node, t, initial, hmarks, rfl, hnested, hnode, hop⟩
  | assignment target element value =>
    rw [hop] at huses
    obtain ⟨htarget, helement, hvalue⟩ := huses
    refine hplain rfl (h.evaluateHere_bind hat hvalue fun operand _ hat' => ?_)
    exact h.assign hanchored hat' htarget helement operand
  | input target =>
    rw [hop] at huses
    exact hplain rfl (does_executeInput hanchored hat huses)
  | output value =>
    rw [hop] at huses
    refine hplain rfl (h.evaluateHere_bind hat huses fun operand _ _ => ?_)
    exact (still_write operand).does.calm
  | call name callee arguments =>
    rw [hop] at huses
    obtain ⟨hcallee, harguments⟩ := huses
    refine hplain rfl ?_
    have hall := does_mapM (fun w => w.At p c label scope) arguments
      (fun e he _ hat => h.evaluateHere hat (harguments e he)) hat
    refine hall.calmly fun operands _ _ hat' => ?_
    refine (h.call operands hat' hcallee).calmly fun _ w'' _ _ => ?_
    exact does_pure (.refl w'') trivial
  | giveBack result =>
    rw [hop] at huses
    refine hplain rfl ?_
    cases result with
    | none => exact does_leaveWith none
    | some e =>
      exact h.evaluateHere_bind hat (huses e rfl) fun operand _ _ =>
        does_leaveWith (some operand)
  | function _ _ | method _ _ | classDeclaration _ _ =>
    exact hplain rfl (does_pure (.refl w) trivial)
  | elseIf _ | elseBranch => exact does_fail _ hsame

omit h in
/-- A new frame is right for a label that starts with what the frame declares. -/
theorem at_opened {code : Code} {declared : List (String × DeclaredType)}
    {names : List String} (hnames : declared.map Prod.fst = names) :
    (w.opened scope code declared).At p c ⟨code, false, names⟩ scope := by
  subst hnames
  exact ⟨_, _, rfl, rfl, rfl, fun _ hmem => hmem, fun _ hmem => .inl hmem⟩

/-- A module is executed when nothing else is. -/
theorem Sound.executeRoot (hlayout : Layout p c) (hnone : w.frames = []) {root : Nat}
    (hroot : root ∈ p.forest.roots) :
    Does p c w (Level.executeNode p below root) w.Calm fun _ _ => True := by
  obtain ⟨node, hnode, name, number, d, hop, hd, rfl, hchild⟩ := hlayout.roots root hroot
  refine does_tick.next (.refl w) fun _ _ => ?_
  rw [hnode]
  refine (still_trace _ _).does.next (.refl w) fun _ _ => ?_
  dsimp only
  rw [hop]
  refine does_within fun m hm => ?_
  rw [bind_apply]
  have hstart : ∀ j, (p.forest.links root).child = some j →
      c.Marks j ⟨⟨number, none⟩, false, []⟩ := by
    intro j hj
    rw [Forest.links, hnode] at hj
    exact hchild j hj
  exact ⟨_, _, _, h.executeSiblings hlayout (at_opened rfl) hstart _ (hm.start hnone hd)⟩

/-! ## Calls

Arguments are converted to the types of the parameters, so the new frame conforms from the
start.  The result is converted, too, so it conforms to the declared type whatever the body
gives back. -/

omit h in
/-- Each parameter is bound to its argument as a value of the declared type. -/
theorem does_bindParameters : ∀ (parameters : List Parameter) {arguments : List Operand}
    {bound : Variables} {w : World}, arguments.length = parameters.length →
    bound.Held w.cells →
    Does p c w (bindParameters parameters arguments bound) w.Calm fun bound' w' =>
      bound'.Held w'.cells ∧ bound'.signature =
        bound.signature ++ parameters.map fun q => (q.name, q.type)
  | [], _, bound, w, _, hheld => by
    unfold bindParameters
    exact does_pure (.refl w) ⟨hheld, by simp⟩
  | q :: parameters, [], _, _, hlength, _ => nomatch hlength
  | q :: parameters, a :: arguments, bound, w, hlength, hheld => by
    refine (does_convert a q.type).calmly fun held w' hcalm hholds => ?_
    refine (does_lift _).next (.refl w') fun bound' hdeclare => ?_
    have hheld' : Variables.Held bound' w'.cells := by
      obtain ⟨-, rfl⟩ := Table.declare_ok hdeclare
      intro name v hv
      obtain hold | hnew := List.mem_append.mp hv
      · exact hheld.extend hcalm.cells name v hold
      · cases List.mem_singleton.mp hnew
        exact ⟨held, rfl, hholds⟩
    refine (does_bindParameters parameters (Nat.succ.inj hlength) hheld').imp
      (fun _ h => h) fun _ _ _ ⟨hheld'', hsignature⟩ => ⟨hheld'', ?_⟩
    rw [hsignature, Variables.signature_declare hdeclare]
    simp

omit h in
/-- The result of a call is converted in the frame around it. -/
theorem does_callResult (f : FunctionDeclaration) (result : Option Operand) :
    Does p c w (callResult f result) w.Calm fun _ _ => True := by
  unfold callResult
  cases f.result with
  | none => exact does_pure (.refl w) trivial
  | some t =>
    cases result with
    | none => exact does_fail _ (.refl w)
    | some operand =>
      refine (still_reveal operand).does.next (.refl w) fun v _ => ?_
      refine (does_settle _ _).next (.refl w) fun v' hv' => ?_
      refine (does_keep (Value.conforms_convert (mapError_eq_ok hv'))).calmly fun _ w' _ _ => ?_
      exact does_pure (.refl w') trivial

omit h in
/-- A function that can be called is one of the module around the label. -/
theorem module_of_calls (hlayout : Layout p c) {n : Nat} {f : FunctionDeclaration}
    (hf : p.functions[n]? = some f) (hcallee : c.Calls label (.declared n)) :
    ∃ d, p.modules[label.code.module]? = some d ∧ d.name = f.module := by
  obtain ⟨_, note, hn, hnote, hmodule, -⟩ := hcallee
  cases hn
  obtain ⟨note', hnote', hfits⟩ := hlayout.functions n f hf
  cases hnote.symm.trans hnote'
  exact hmodule ▸ hfits.module

omit h in
/-- The frame of a call is right for the label of the function's body. -/
theorem describes_call (hlayout : Layout p c) (hat : w.At p c label scope) {n : Nat}
    {f : FunctionDeclaration} (hf : p.functions[n]? = some f)
    (hcallee : c.Calls label (.declared n)) {root : Frame}
    (hlast : w.frames.getLast? = some root) (hroot : root.code.module = label.code.module)
    {bound : Variables} (hheld : bound.Held w.cells)
    (hsignature : bound.signature = f.parameters.map fun q => (q.name, q.type))
    {m : Machine} (hm : w.Describes p c m) :
    ∃ code : Code, code.function ≠ none ∧ (∀ start, f.body = some start →
        c.Marks start ⟨code, false, f.parameters.map Parameter.name⟩) ∧
      (w.opened m.environment.scopes.size code bound.signature).Describes p c
        (entered m (some root.scope) f.fullName bound) ∧
      (w.opened m.environment.scopes.size code bound.signature).At p c
        ⟨code, false, f.parameters.map Parameter.name⟩ m.environment.scopes.size := by
  obtain ⟨_, note, hn, hnote, hmodule, houter⟩ := hcallee
  cases hn
  obtain ⟨note', hnote', -, hparameters, hbody⟩ := hlayout.functions n f hf
  cases hnote.symm.trans hnote'
  -- what the module had declared before the function is declared by now
  have houter' : ∀ name ∈ note.outer, name ∈ root.names := by
    intro name hmem
    obtain ⟨top, rest, hframes, -, htop⟩ := hat
    obtain ⟨root', hroot', hname'⟩ := hm.surrounds hframes htop (houter name hmem)
    cases hlast.symm.trans hroot'
    exact hname'
  have hdeclared : ∀ name t, (name, t) ∈ bound.signature →
      p.Declares ⟨root.code.module, some n⟩ name t := by
    intro name t ht
    rw [hsignature] at ht
    obtain ⟨q, hq, heq⟩ := List.mem_map.mp ht
    cases heq
    rw [hroot, ← hmodule]
    exact hparameters q hq
  have hopened := hm.call f.fullName hlast hnote houter' hheld hdeclared
  rw [hroot, ← hmodule] at hopened
  have hnames : bound.signature.map Prod.fst = f.parameters.map Parameter.name := by
    rw [hsignature, List.map_map]
    rfl
  exact ⟨_, by simp, hbody, hopened, at_opened hnames⟩

/-- A call that a label allows leaves the frames as they are. -/
theorem Sound.enterCall (hlayout : Layout p c) (hat : w.At p c label scope) {n : Nat}
    {f : FunctionDeclaration} (hf : p.functions[n]? = some f)
    (hcallee : c.Calls label (.declared n)) {arguments : List Operand}
    (hlength : arguments.length = f.parameters.length) :
    Does p c w (Level.enterCall p below f arguments) w.Calm fun _ _ => True := by
  obtain ⟨d, hd, hname⟩ := module_of_calls hlayout hf hcallee
  unfold Level.enterCall
  rw [← hname]
  refine (does_moduleScope hat hd).next (.refl w) fun a ha => ?_
  obtain ⟨root, hlast, hroot, rfl⟩ := ha
  have hempty : Variables.empty.Held w.cells := by
    intro _ _ hv
    cases hv
  refine (does_bindParameters f.parameters hlength hempty).calmly
    fun bound w' hcalm ⟨hheld, hsignature⟩ => does_within fun m hm => ?_
  obtain ⟨code, -, hbody, hopened, hat'⟩ := describes_call hlayout (hat.calm hcalm) hf hcallee
    (hcalm.frames ▸ hlast) hroot hheld hsignature hm
  refine ⟨_, _, fun _ _ => True, Does.next (still_trace _ _).does
    (World.Calm.refl _).grown (fun _ _ => ?_) _ hopened⟩
  refine (does_runBody (h.executeSiblings hlayout hat' hbody) _).growing
    fun result _ _ _ => ?_
  exact (does_callResult f result).grown

omit h in
/-- What can be called is a function of the program. -/
theorem function_of_calls (hlayout : Layout p c) {callee : Callee}
    (hcallee : c.Calls label callee) :
    ∃ n f, callee = .declared n ∧ p.functions[n]? = some f ∧ p.function callee = f := by
  obtain ⟨n, note, rfl, hnote, -, -⟩ := hcallee
  have hlt : n < p.functions.size := by
    rw [← hlayout.notes]
    exact (List.getElem?_eq_some_iff.mp hnote).1
  have hf : p.functions[n]? = some p.functions[n] := Array.getElem?_eq_getElem hlt
  refine ⟨n, _, rfl, hf, ?_⟩
  simp [Program.function, Array.getD_eq_getD_getElem?, hf]

/-- A call of a function that can be called where a label stands. -/
theorem Sound.callNode (hlayout : Layout p c) (hat : w.At p c label scope)
    {callee : Callee} (hcallee : c.Calls label callee) (arguments : List Operand) :
    Does p c w (Level.callNode p below callee arguments) w.Calm fun _ _ => True := by
  obtain ⟨n, f, rfl, hf, hfunction⟩ := function_of_calls hlayout hcallee
  unfold Level.callNode
  rw [hfunction]
  dsimp only
  split
  · have hfails : Does p c w (fail (.execution (.wrongArity f.fullName
        f.parameters.length arguments.length)) : Exec PUnit) w.Calm
          fun _ _ => False := does_fail _ (.refl w)
    exact hfails.calmly fun _ _ _ hfalse => hfalse.elim
  · next hlength =>
    exact h.enterCall hlayout hat hf hcallee (by simpa using hlength)

end

end Level

open Level in
/-- Every level of a running program keeps the world. -/
theorem sound_running {p : Program} {c : Chart} (hlayout : Layout p c)
    (hanchored : Anchored p c) : ∀ depth, (Level.running p depth).Sound p c
  | 0 => sound_bottom
  | depth + 1 =>
    have below := sound_running hlayout hanchored depth
    { evaluate := fun hat he => below.evaluateNode hanchored hat he
      execute := fun hat hmarks hnode =>
        below.executeNode hlayout hanchored hat hmarks hnode
      call := fun arguments hat hcallee => below.callNode hlayout hat hcallee arguments
      start := fun hnone hroot => below.executeRoot hlayout hnone hroot }

/-- The outline of a program is nothing that worlds tell of. -/
theorem still_traceOutline (p : Program) : p.traceOutline.Still := by
  refine still_get fun m => ?_
  split
  · refine (still_lift _).bind fun lines => ?_
    induction lines with
    | nil => exact still_pure ()
    | cons line lines ih => exact (still_trace _ _).bind fun _ => ih
  · exact still_pure ()

/-- A whole run, from a state without frames on. -/
theorem does_run {p : Program} {c : Chart} {w : World} (hlayout : Layout p c)
    (hanchored : Anchored p c) (hnone : w.frames = []) :
    Does p c w p.run w.Calm fun _ _ => True := by
  have hmodules : ∀ (roots : List Nat) {w : World},
      (∀ root ∈ roots, root ∈ p.forest.roots) →
      w.frames = [] → Does p c w (roots.forM p.level.execute) w.Calm fun _ _ => True := by
    intro roots
    induction roots with
    | nil => exact fun _ _ => does_pure (.refl _) trivial
    | cons root roots ih =>
      intro w hroots hnone
      have hroot := hroots root (List.mem_cons_self ..)
      refine ((sound_running hlayout hanchored levelLimit).start hnone hroot).calmly
        fun _ w' hcalm _ => ?_
      exact ih (fun r hr => hroots r (List.mem_cons_of_mem _ hr)) (hcalm.frames.trans hnone)
  refine (still_traceOutline p).does.next (.refl w) fun _ _ => ?_
  exact does_closeTrace (hmodules p.forest.roots (fun _ hroot => hroot) hnone)

end Pseudocode
