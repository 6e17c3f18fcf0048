import Pseudocode.Proofs.Source.Statements

/-!
# Items that the rules allow are laid out

The same for functions, classes and headers, and then for all the items of a
program.  At the top level an operator is hung into a *hole*: it becomes the first
nested operator of the block that is open, if that has none, or else the sibling of
the operator hung last.  The items still to come are what the forest will show in
the hole, up to the next header, and new trees behind the last root (`Hung`).

A hole is known from the draft alone (`Draft.Hole`): the operator that was hung last, the
block that is open, and that what will be linked is not linked yet.  Each item fills the
hole and leaves the next one in itself (`hole_hung`), whether it is an ordinary operator,
whose sibling comes next, or a `begin`, whose first nested operator does.  So the builder
never finds a child or a sibling where it hangs an operator.

The induction over the items goes from the last to the first: what stands behind an item
is hung into the hole that the item leaves, and with it becomes what is hung into the
hole before it (`Hung.next`, `Hung.header`).  That is also the order in which `arrange`
puts a row of items together.
-/

namespace Pseudocode

open Source Grammar

namespace Source

variable {N : Numbering} {Γ Γ' : Context} {ts : List Token}

/-- To open a function opens no module. -/
theorem Context.enter_modules (Γ : Context) (place : Place) (s : Signature) :
    (Γ.enter place s).modules = Γ.modules := by
  unfold enter
  cases place <;> rfl

/-- To open a function adds no class. -/
theorem Context.enter_methods (Γ : Context) (place : Place) (s : Signature) :
    (Γ.enter place s).methods.length = Γ.methods.length := by
  unfold enter
  cases place with
  | module => rfl
  | classOf name number => exact List.length_set

/-- A function opens no module, and adds no class. -/
theorem FunctionWritten.kept {place : Place} {tree : Tree Operator}
    (h : FunctionWritten N place Γ ts tree Γ') :
    Γ'.modules = Γ.modules ∧ Γ'.methods.length = Γ.methods.length := by
  obtain ⟨-, -, -, -, -, inside, -⟩ := h
  obtain ⟨hmodules, hmethods⟩ := inside.kept
  refine ⟨?_, ?_⟩
  · exact hmodules.trans (Context.enter_modules _ _ _)
  · exact (congrArg List.length hmethods).trans (Context.enter_methods _ _ _)

/-- What stands where statements are due starts one of them or ends them. -/
theorem Written.first_body {part : Part} {trees : List (Tree Operator)}
    (h : Written N part Γ ts trees Γ') (hpart : part = .body) {rest : List Token}
    (hrest : (Token.first rest).kind = .endWord) :
    (Token.first (ts ++ rest)).kind ∈ Token.Kind.endWord :: statementWords := by
  cases h with
  | done =>
    rw [List.nil_append, hrest]
    exact List.mem_cons_self ..
  | next first =>
    obtain ⟨t, us, rfl, ht⟩ := first.starts rfl
    exact List.mem_cons_of_mem _ ht
  | _ => cases hpart

end Source

namespace Builder

variable {β : Type} {d : Draft} {Γ Γ' : Context} {ts rest : List Token}

/-! ## Functions

A function's name is entered before its body is read, so it can call itself.  Behind its end
the tables are those from before, with the function added. -/

/-- The end of a function or a class is read, with the name of what it ends. -/
theorem closingName_read {f : Unit → Builder β} {name : String} {closing : List Token}
    (h : Closes name closing) :
    (closingName name >>= f) (d.before (closing ++ rest)) = f () (d.before rest) := by
  obtain ⟨first, word, same, last⟩ := h
  unfold closingName
  simp only [bind_assoc, List.cons_append, List.nil_append]
  rw [take_bind first (by decide), take_bind word (by decide), if_neg (by simp [same]),
    bind_assoc, take_bind last (by decide), pure_bind]

/-- It starts with the word for it. -/
theorem closes_first {name : String} {closing : List Token} (h : Closes name closing) :
    (Token.first (closing ++ rest)).kind = .endWord := by
  obtain ⟨first, -, -, -⟩ := h
  exact first

/-- The end of a function leaves the forest, and what is still ahead, as they are. -/
theorem closeFunction_kept (d : Draft) (number : Nat) (body : Option Nat) :
    (d.closeFunction number body).program.forest = d.program.forest ∧
      (d.closeFunction number body).ahead = d.ahead ∧
      (d.closeFunction number body).block = d.block ∧
      (d.closeFunction number body).last = d.last := by
  unfold Draft.closeFunction
  split <;> exact ⟨rfl, rfl, rfl, rfl⟩

/-- The operator of a function tells where it is declared. -/
theorem operator_of_owner {place : Place} {f : FunctionDeclaration}
    (howner : f.owner = place.owner) (number : Nat) :
    f.operator number = place.operator f.name number := by
  unfold FunctionDeclaration.operator Place.operator
  rw [howner]
  cases place <;> rfl

/-- A function whose name is new is entered, and its parameters with it unless two of them
have one name. -/
theorem opens_function {place : Place} {f : FunctionDeclaration} (hagrees : d.Agrees Γ)
    (hopen : Γ.modules ≠ []) (hplace : place.Exists Γ) (hvars : f.vars.names = [])
    (fresh : f.name ∉ (Γ.functionsOf place).map Prod.fst) :
    ∃ d₁, declareFunction (place.entry Γ) f d = .ok (Γ.signatures.length, d₁) ∧
      (((f.parameters.map Parameter.name).Nodup ∧
        ∃ d₂, declareParameters f.parameters
            { d₁ with function := some Γ.signatures.length } = .ok ((), d₂) ∧
          d₂.Agrees (Γ.enter place f.signature) ∧
          d₂.program.forest = d.program.forest ∧ d₂.ahead = d.ahead ∧
          d₂.block = d.block ∧ d₂.last = d.last) ∨
      (¬ (f.parameters.map Parameter.name).Nodup ∧
        ∃ kind name, declareParameters f.parameters
            { d₁ with function := some Γ.signatures.length } =
          .error (.redeclared kind name))) := by
  obtain ⟨d₁, hdeclare, hagrees₁, hforest₁, hahead₁, hblock₁, hlast₁⟩ :=
    hagrees.declareFunction hopen hplace hvars fresh
  refine ⟨d₁, hdeclare, ?_⟩
  have hopen₁ : (Γ.enter place f.signature).modules ≠ [] := by rwa [Context.enter_modules]
  have hparameters := Draft.Agrees.declareParameters hopen₁ f.parameters hagrees₁
    List.nodup_nil
  rw [List.nil_append] at hparameters
  refine hparameters.imp_left ?_
  rintro ⟨distinct, d₂, hrun, hagrees₂, hforest₂, hahead₂, hblock₂, hlast₂⟩
  have henter : { Γ.enter place f.signature with
      opened := some (Γ.signatures.length, f.parameters.map Parameter.name) } =
      Γ.enter place f.signature := by
    cases place <;> rfl
  rw [henter] at hagrees₂
  exact ⟨distinct, d₂, hrun, hagrees₂, hforest₂.trans hforest₁, hahead₂.trans hahead₁,
    hblock₂.trans hblock₁, hlast₂.trans hlast₁⟩

/-- The tables behind the end of a function are those that its operator makes, if those
behind its body are. -/
theorem enters_function {place : Place} {f : FunctionDeclaration} {d₁ d₂ d₃ : Draft}
    {nested : List (Tree Operator)} (hagrees : d.Agrees Γ) (hopen : Γ.modules ≠ [])
    (hvars : f.vars = Variables.empty) (hmodule : f.module = Γ.modules.getLast?.getD "")
    (distinct : (f.parameters.map Parameter.name).Nodup)
    (hdeclare : declareFunction (place.entry Γ) f d = .ok (Γ.signatures.length, d₁))
    (hparameters : declareParameters f.parameters
      { d₁ with function := some Γ.signatures.length } = .ok ((), d₂))
    (inside : d₂.tables.Enters none nested d₃.tables) (child : Option Nat) :
    d.tables.Enters (some place)
      [.node (place.operator f.name Γ.signatures.length) nested [] none]
      (d₃.closeFunction Γ.signatures.length child).tables := by
  obtain ⟨m, hopened, -, hm, hname, -⟩ := hagrees.openModule hopen
  have hsize : d.tables.functions.length = Γ.signatures.length := by
    rw [← hagrees.signatures]
    simp [Draft.tables]
  rw [← hsize] at hdeclare hparameters
  rw [Draft.enter_tables hopened hvars hdeclare hparameters] at inside
  have hnamed : d.tables.openModule?.map ModuleDeclaration.name = some f.signature.module := by
    rw [Draft.openModule?_tables, hm]
    exact congrArg some (hname.trans hmodule.symm)
  rw [Draft.closeFunction_tables, ← hsize]
  exact .function hnamed distinct inside .nothing

/-- A function behind its header. -/
theorem functionRest_gets {place : Place} {f : FunctionDeclaration}
    {body closing : List Token} {nested : List (Tree Operator)}
    (hagrees : d.Agrees Γ) (hopen : Γ.modules ≠ []) (hplace : place.Exists Γ)
    (hvars : f.vars = Variables.empty) (howner : f.owner = place.owner)
    (hmodule : f.module = Γ.modules.getLast?.getD "")
    (fresh : f.name ∉ (Γ.functionsOf place).map Prod.fst)
    (distinct : (f.parameters.map Parameter.name).Nodup)
    (inside : Written .read .body (Γ.enter place f.signature) body nested Γ')
    (last : Closes f.name closing) :
    Gets (functionRest (place.entry Γ) f (d.before (body ++ (closing ++ rest))))
      (nestingLimit ≤ body.length)
      (LaysTree (some place) d rest Γ'.leave
        (.node (place.operator f.name Γ.signatures.length) nested [] none)) := by
  obtain ⟨d₁, hdeclare, ⟨-, d₂, hparameters, hagrees₂, hforest₂, hahead₂, hblock₂, hlast₂⟩ |
    ⟨hrepeated, -⟩⟩ := opens_function (hagrees.before (body ++ (closing ++ rest))) hopen hplace
      (by rw [hvars]; rfl) fresh
  · have hbody : Gets (Builder.body nestLoose (statement nestingLimit)
        (f.operator Γ.signatures.length) [.endWord]
        { operator := f.operator Γ.signatures.length }
        (d₂.before (body ++ (closing ++ rest)))) (nestingLimit ≤ body.length)
        fun node d₃ => ∃ child,
          node = { operator := f.operator Γ.signatures.length, links := { child } } ∧
            LaysRow none d₂ none (closing ++ rest) Γ' nested child d₃ :=
      (inside.laid (by rwa [Context.enter_modules])).body hagrees₂ (by decide)
        (List.mem_singleton.mpr (closes_first last)) _
    have hahead : d₂.ahead = body ++ (closing ++ rest) := hahead₂
    rw [Draft.before_of_ahead hahead] at hbody
    unfold functionRest
    rw [bind_of_run hdeclare, modify_bind, bind_of_run hparameters]
    refine hbody.bind id ?_
    rintro _ d₃ ⟨child, rfl, h₃⟩
    obtain ⟨hforest₃, hahead₃, hblock₃, hlast₃⟩ :=
      closeFunction_kept d₃ Γ.signatures.length child
    rw [modify_bind, ← Draft.before_of_ahead (hahead₃.trans h₃.ahead),
      closingName_read last, operator_of_owner howner]
    have htables := enters_function (hagrees.before (body ++ (closing ++ rest))) hopen hvars
      hmodule distinct hdeclare hparameters h₃.tables child
    have hlays : d.Lays (d₃.closeFunction Γ.signatures.length child) none
        (closing ++ rest) Γ'.leave (some place)
        [.node (place.operator f.name Γ.signatures.length) nested [] none]
        (d₃.program.forest.Shows (.row child) nested) :=
      h₃.congr hforest₂ hblock₂ hlast₂ hforest₃ hblock₃ hlast₃ (hahead₃.trans h₃.ahead)
        (h₃.agrees.closeFunction Γ.signatures.length child) htables
    rw [← hforest₃] at hlays
    refine .ok ((hlays.reading rest).imp id fun used hshows => ?_)
    exact ⟨rfl, rfl, nested, [], none, used, [], [], rfl, hshows, .none, .none, by simp⟩
  · exact absurd distinct hrepeated

/-- A function or a method that the rules allow is laid out. -/
theorem function_gets {place : Place} {tree : Tree Operator} {moduleName : String}
    (h : FunctionWritten .read place Γ ts tree Γ') (hagrees : d.Agrees Γ)
    (hopen : Γ.modules ≠ []) (hplace : place.Exists Γ)
    (hmodule : moduleName = Γ.modules.getLast?.getD "") :
    Gets (function (place.entry Γ) place.owner moduleName (d.before (ts ++ rest)))
      (nestingLimit ≤ ts.length) (LaysTree (some place) d rest Γ' tree) := by
  obtain @⟨name, list, parameters, type, result, body, nested, Γ', closing, word, header,
    gives, fresh, distinct, inside, last⟩ := h
  subst hmodule
  have hfirst := inside.first_body rfl
    (show (Token.first (closing ++ rest)).kind = .endWord from closes_first last)
  have hnotWord : ∀ kind ∉ Token.Kind.endWord :: statementWords,
      (Token.first (body ++ (closing ++ rest))).kind ≠ kind := by
    intro kind hkind heq
    exact hkind (heq ▸ hfirst)
  have hend : Gets (functionRest (place.entry Γ)
        { name := name.text, owner := place.owner, parameters, result,
          module := Γ.modules.getLast?.getD "" }
        (d.before (body ++ (closing ++ rest)))) (nestingLimit ≤ body.length)
      (LaysTree (some place) d rest Γ'.leave
        (.node (place.operator name.text Γ.signatures.length) nested [] none)) :=
    functionRest_gets hagrees hopen hplace rfl rfl rfl fresh distinct inside last
  have hparameters := parenthesised_complete (fun rest h => parameter_complete h rest)
    (fun rest h => by rw [parameterWritten_first h rest]; decide) header
    (type ++ (body ++ (closing ++ rest)))
  simp only [List.cons_append, List.append_assoc]
  unfold function
  rw [take_bind word (by decide), tokens_read hparameters, sees_bind]
  cases gives with
  | absent =>
    rw [List.nil_append]
    have hnot : Token.firstIs [.colon] (d.before (body ++ (closing ++ rest))).ahead =
        false := firstIs_eq_false (hnotWord _ (by decide))
    rw [hnot]
    refine hend.imp ?_ fun _ _ h => h
    simp only [List.length_cons, List.length_append]
    omega
  | @present _ result there =>
    obtain @⟨colon, us, _, mark, written⟩ := there
    rw [List.cons_append]
    have hsees : Token.firstIs [.colon]
        (d.before (colon :: (us ++ (body ++ (closing ++ rest))))).ahead = true :=
      firstIs_cons (by simp [mark]) _
    have hends : EndsType (body ++ (closing ++ rest)) := hnotWord _ (by decide)
    rw [hsees, if_pos rfl, take_bind mark (by decide),
      tokens_read (declaredType_complete written hends), pure_bind]
    refine hend.imp ?_ fun _ _ h => h
    simp only [List.length_cons, List.length_append]
    omega

/-! ## Classes

Methods follow one another up to the `end` of the class, and each is a tree of its own among
the class's children. -/

/-- A class in which another method is due. -/
theorem methods_next {π : Type} {nest : π → Nat → Builder π} {owner : π} {number : Nat}
    {name moduleName : String} {b : Token} {bound : List Token} {previous : Option Nat}
    (hsees : Token.firstIs [.methodWord] d.ahead = true) :
    methods nest number name moduleName (b :: bound) owner previous d =
      (take .methodWord >>= fun _ =>
        function (.classOf number) (some name) moduleName >>= fun node =>
          attach nest owner previous node >>= fun attached =>
            methods nest number name moduleName bound attached.1 (some attached.2)) d := by
  rw [methods, sees_bind, if_pos hsees]

/-- The methods of a class are laid out as a row. -/
theorem methods_gets {name moduleName : String} {number : Nat}
    {trees : List (Tree Operator)}
    (h : MethodsWritten .read (.classOf name number) Γ ts trees Γ')
    (hopen : Γ.modules ≠ []) (hplace : number < Γ.methods.length)
    (hmodule : moduleName = Γ.modules.getLast?.getD "")
    (hrest : (Token.first rest).kind = .endWord) :
    ∀ (d : Draft) (bound : List Token), d.Agrees Γ → (ts ++ rest).length ≤ bound.length →
      BodyGets (some (.classOf name number)) (nestingLimit ≤ ts.length)
        (fun _ nest => methods nest number name moduleName bound) d ts rest Γ' trees := by
  induction h with
  | @done Γ =>
    intro d bound hagrees hbound
    have hnot : Token.firstIs [.methodWord] (d.before rest).ahead = false := by
      apply firstIs_eq_false
      show (Token.first rest).kind ≠ _
      rw [hrest]
      decide
    refine .done hagrees fun π nest owner previous => ?_
    cases bound with
    | nil => rfl
    | cons b bound =>
      rw [methods, sees_bind, List.nil_append, hnot]
      rfl
  | @next Γ opening ts tree Γ₁ us trees Γ' head first more ih =>
    intro d bound hagrees hbound
    obtain ⟨hmodules, hmethods⟩ := first.kept
    cases bound with
    | nil => simp at hbound
    | cons b bound =>
      have hsees : Token.firstIs [.methodWord]
          (d.before (opening :: (ts ++ (us ++ rest)))).ahead = true :=
        firstIs_cons (by simp [head]) _
      simp only [List.cons_append, List.append_assoc, List.length_cons, List.length_append]
        at hbound
      refine BodyGets.cons (fun π nest owner previous => ?_)
        (function_gets first hagrees hopen hplace hmodule)
        (fun d hagrees => (ih (hmodules ▸ hopen) (hmethods ▸ hplace) (hmodules ▸ hmodule) d
          bound hagrees (by rw [List.length_append]; omega)).imp ?_) ?_
      · simp only [List.cons_append, List.append_assoc]
        rw [methods_next hsees, take_bind head (by decide)]
        rfl
      · simp only [List.length_cons, List.length_append]
        omega
      · simp only [List.length_cons, List.length_append]
        omega

/-- A class that the rules allow is laid out. -/
theorem classDeclaration_gets {opening name : Token} {closing : List Token}
    {trees : List (Tree Operator)} {m : ModuleDeclaration} (hagrees : d.Agrees Γ)
    (hopen : Γ.modules ≠ []) (head : opening.kind = .classWord) (word : name.kind = .word)
    (fresh : name.text ∉ Γ.classes.map Prod.fst)
    (members : MethodsWritten .read (.classOf name.text Γ.methods.length)
      (Γ.openClass name.text) ts trees Γ')
    (last : Closes name.text closing)
    (hm : d.program.modules[Γ.modules.length - 1]? = some m)
    (hopened : d.openModule? = some m) (hname : m.name = Γ.modules.getLast?.getD "") :
    Gets (classDeclaration (Γ.modules.length - 1) m
        (d.before (opening :: name :: (ts ++ (closing ++ rest)))))
      (nestingLimit ≤ ts.length)
      (LaysTree (some .module) d rest Γ'
        (.node (.classDeclaration name.text Γ.methods.length) trees [] none)) := by
  obtain ⟨classes, hdeclare, hagrees₁⟩ := hagrees.openClass hopen hm hopened fresh
  have hplace : Γ.methods.length < (Γ.openClass name.text).methods.length := by
    show _ < (Γ.methods ++ [[]]).length
    rw [List.length_append]
    exact Nat.lt_succ_self _
  have hmethods := methods_gets members hopen hplace hname (closes_first last)
    (d.openClass (Γ.modules.length - 1) { m with classes } name.text) (ts ++ (closing ++ rest))
    hagrees₁ (Nat.le_refl _)
  unfold classDeclaration
  rw [take_bind head (by decide), take_bind word (by decide), get_bind]
  have hlift : (liftM (m.classes.declare name.text
      (d.before (ts ++ (closing ++ rest))).program.classes.size) : Builder (Table Nat))
      (d.before (ts ++ (closing ++ rest))) =
      .ok (classes, d.before (ts ++ (closing ++ rest))) := lift_ok.mpr ⟨hdeclare, rfl⟩
  have hsize : (d.before (ts ++ (closing ++ rest))).program.classes.size =
      Γ.methods.length := hagrees.size_classes
  dsimp only
  rw [bind_of_run hlift, set_bind, get_bind, hsize]
  refine (hmethods.loose { operator := .classDeclaration name.text Γ.methods.length }
    rfl).bind id ?_
  rintro _ d₁ ⟨child, rfl, h₁⟩
  rw [← Draft.before_of_ahead h₁.ahead, closingName_read last]
  have htables : d.tables.Enters (some .module)
      [.node (.classDeclaration name.text Γ.methods.length) trees [] none] d₁.tables := by
    obtain ⟨-, hmodule, -⟩ := hagrees.openModule hopen
    have hclasses : d.tables.classes.length = Γ.methods.length := by
      rw [← hagrees.size_classes]
      simp [Draft.tables]
    have hinside := h₁.tables
    rw [Draft.openClass_tables hmodule hm hdeclare, ← hclasses] at hinside
    rw [← hclasses]
    exact .classDeclaration hinside .nothing
  have hlays : d.Lays d₁ none (closing ++ rest) Γ' (some .module)
      [.node (.classDeclaration name.text Γ.methods.length) trees [] none]
      (d₁.program.forest.Shows (.row child) trees) :=
    h₁.congr rfl rfl rfl rfl rfl rfl h₁.ahead h₁.agrees htables
  refine .ok ((hlays.reading rest).imp id fun used hshows => ?_)
  exact ⟨rfl, rfl, trees, [], none, used, [], [], rfl, hshows, .none, .none, by simp⟩

/-! ## Items -/

/-- The item of a module that starts with a token of a kind. -/
def itemFor (module : Nat) (m : ModuleDeclaration) :
    Token.Kind → Builder (Node Operator)
  | .beginWord => do
    let _ ← take .beginWord
    return { operator := .beginning }
  | .functionWord => do
    let _ ← take .functionWord
    function (.module module) none m.name
  | .classWord => classDeclaration module m
  | _ => statement nestingLimit

/-- An item other than a header is told by the token ahead. -/
theorem item_eq {module : Nat} {m : ModuleDeclaration} (hmodule : d.module = some module)
    (hopened : d.openModule? = some m)
    (hkind : (Token.first d.ahead).kind ≠ .moduleWord) :
    item d = itemFor module m (Token.first d.ahead).kind d := by
  unfold item
  rw [get_bind, if_neg hkind, hmodule, hopened]
  rfl

/-- What is none of the other items is a statement. -/
theorem itemFor_statement {module : Nat} {m : ModuleDeclaration} {kind : Token.Kind}
    (hbegin : kind ≠ .beginWord) (hfunction : kind ≠ .functionWord)
    (hclass : kind ≠ .classWord) : itemFor module m kind = statement nestingLimit := by
  unfold itemFor
  split
  · contradiction
  · contradiction
  · contradiction
  · rfl

/-- An item, a module's header apart, that the rules allow is laid out. -/
theorem item_gets {tree : Tree Operator} (h : ItemWritten .read Γ ts tree Γ')
    (hmodule : ∀ name number, tree.operator ≠ .module name number)
    (hagrees : d.Agrees Γ) :
    Gets (item (d.before (ts ++ rest))) (nestingLimit ≤ ts.length)
      (LaysTree (some .module) d rest Γ' tree) := by
  -- the open module is the same whatever is ahead
  have hitem : ∀ {m : ModuleDeclaration} {t : Token} {us : List Token} {kind : Token.Kind},
      d.module = some (Γ.modules.length - 1) → d.openModule? = some m → t.kind = kind →
      kind ≠ .moduleWord → item (d.before (t :: us)) =
        itemFor (Γ.modules.length - 1) m kind (d.before (t :: us)) := by
    rintro m t us _ hmodule hopened rfl hkind
    exact item_eq hmodule hopened hkind
  cases h with
  | header => exact absurd rfl (hmodule _ _)
  | @beginning opening inside head =>
    obtain ⟨m, hmodule, hfound, hopened, hname, -⟩ := hagrees.openModule inside
    rw [List.cons_append, hitem hmodule hopened head (by decide), itemFor,
      take_bind head (by decide)]
    exact .ok (laysTree_leaf hagrees rest trivial trivial trivial)
  | @function opening ts tree Γ' inside head written =>
    obtain ⟨m, hmodule, hfound, hopened, hname, -⟩ := hagrees.openModule inside
    rw [List.cons_append, hitem hmodule hopened head (by decide), itemFor,
      take_bind head (by decide)]
    refine (function_gets written hagrees inside trivial hname).imp ?_ fun _ _ h => h
    rw [List.length_cons]
    omega
  | @classDeclaration opening name ts methods Γ' closing inside head word fresh members last =>
    obtain ⟨m, hmodule, hfound, hopened, hname, -⟩ := hagrees.openModule inside
    simp only [List.cons_append, List.append_assoc]
    rw [hitem hmodule hopened head (by decide), itemFor]
    refine (classDeclaration_gets hagrees inside head word fresh members last hfound hopened
      hname).imp ?_ fun _ _ h => h
    simp only [List.length_cons, List.length_append]
    omega
  | @statement ts tree Γ' inside written =>
    obtain ⟨m, hmodule, hfound, hopened, hname, -⟩ := hagrees.openModule inside
    have hstatement := written.laid inside nestingLimit d rest hagrees tree rfl
    obtain ⟨t, us, rfl, ht⟩ := written.starts rfl
    have hother : ∀ kind ∈ statementWords, kind ≠ .moduleWord ∧ kind ≠ .beginWord ∧
        kind ≠ .functionWord ∧ kind ≠ .classWord := by decide
    obtain ⟨hmod, hbegin, hfunction, hclass⟩ := hother _ ht
    rw [List.cons_append, hitem hmodule hopened rfl hmod,
      itemFor_statement hbegin hfunction hclass]
    exact hstatement.imp id fun _ _ h => h.imp (·.items rfl) fun _ hshown => hshown

/-! ## The top level

The items of a module are hung up one by one.  Where the next one goes is a hole in the forest,
below or behind a node, which a `begin` opens further down and a header opens anew
(`Draft.Hole`).  The induction is on the items, and the hole moves with it. -/

end Builder

/-- Whether an operator is the mark before the main statements. -/
def Operator.isBeginning : Operator → Bool
  | .beginning => true
  | _ => false

/-- Every operator but a `begin` is none. -/
theorem Operator.isBeginning_of_ne {operator : Operator} (h : operator ≠ .beginning) :
    operator.isBeginning = false := by
  unfold isBeginning
  split
  · contradiction
  · rfl

/-- A `begin` that is hung is the block that is open from then on. -/
theorem Draft.hung_block (d : Draft) (f : Forest Operator) (node : Node Operator)
    (block index : Nat) : (d.hung f node block index).block =
      some (if node.operator.isBeginning then index else block) := by
  unfold hung
  cases node.operator <;> rfl

/-- A node with another first nested operator or another sibling. -/
def Node.fill (node : Node Operator) (asChild : Bool) (start : Option Nat) :
    Node Operator :=
  if asChild then { node with links := { node.links with child := start } }
  else { node with links := { node.links with sibling := start } }

/-- A node goes in where another one has nothing yet. -/
theorem Forest.insert_fill {forest : Forest Operator} {place : Nat} {asChild : Bool}
    {before node : Node Operator} (hfound : forest.nodes[place]? = some before)
    (hempty : before.fill asChild none = before) (hloose : node.index = none) :
    ∃ forest', forest.insert (some place) node asChild = .ok (forest.nodes.size, forest') ∧
      forest'.nodes[place]? = some (before.fill asChild (some forest.nodes.size)) ∧
      forest'.nodes[forest.nodes.size]? = some (node.at forest.nodes.size) ∧
      (∀ i < forest.nodes.size, i ≠ place → forest'.nodes[i]? = forest.nodes[i]?) ∧
      forest'.nodes.size = forest.nodes.size + 1 ∧ forest'.roots = forest.roots := by
  have hlt : place < forest.nodes.size := (Array.getElem?_eq_some_iff.mp hfound).1
  have hplaced : (forest.placed node).nodes[place]? = some before := found_placed hfound
  cases asChild with
  | true =>
    have hnone : before.links.child = none :=
      (congrArg (fun q : Node Operator => q.links.child) hempty).symm
    refine ⟨_, insert_below hfound hloose hnone, nodes_adopted hplaced, ?_, fun i hi hne => ?_,
      ?_, rfl⟩
    · rw [nodes_adopted_ne (Nat.ne_of_lt hlt)]
      exact nodes_placed_last
    · rw [nodes_adopted_ne hne.symm, nodes_placed (Nat.ne_of_lt hi)]
    · rw [adopted, size_relink]
      exact size_placed
  | false =>
    have hnone : before.links.sibling = none :=
      (congrArg (fun q : Node Operator => q.links.sibling) hempty).symm
    refine ⟨_, insert_behind hfound hloose hnone, nodes_followed hplaced, ?_, fun i hi hne => ?_,
      ?_, rfl⟩
    · rw [nodes_followed_ne (Nat.ne_of_lt hlt)]
      exact nodes_placed_last
    · rw [nodes_followed_ne hne.symm, nodes_placed (Nat.ne_of_lt hi)]
    · rw [followed, size_relink]
      exact size_placed

/-- The header of the next module, as it is placed. -/
def Draft.opening (d : Draft) (name : String) : Node Operator :=
  Node.at { operator := .module name d.program.modules.size } d.size

/-- Where the next operator of the top level goes: below or behind a node. -/
structure Draft.Hole (d : Draft) (place : Nat) (asChild : Bool) (node : Node Operator) :
    Prop where
  last : d.last = some place
  found : d.program.forest.nodes[place]? = some node
  empty : node.fill asChild none = node
  block : ∃ block opening, d.block = some block ∧
    d.program.forest.nodes[block]? = some opening ∧
    opening.links.child.isNone = asChild ∧ (asChild = true → block = place)

namespace Builder

variable {β : Type} {d : Draft} {node : Node Operator}

/-- An operator is hung into the hole. -/
theorem hang_bind {place : Nat} {asChild : Bool} {before : Node Operator}
    (hole : d.Hole place asChild before) (hloose : node.index = none)
    (hmodule : ∀ name number, node.operator ≠ .module name number)
    (f : Unit → Builder β) :
    ∃ block forest, (hang node >>= f) d = f () (d.hung forest node block d.size) ∧
      forest.nodes[place]? = some (before.fill asChild (some d.size)) ∧
      forest.nodes[d.size]? = some (node.at d.size) ∧
      (∀ i < d.size, i ≠ place → forest.nodes[i]? = d.program.forest.nodes[i]?) ∧
      forest.nodes.size = d.size + 1 ∧ forest.roots = d.program.forest.roots ∧
      ∃ opening, forest.nodes[block]? = some opening ∧
        opening.links.child.isNone = false := by
  obtain ⟨hlast, hfound, hempty, block, opening, hblock, hopening, hchild, hsame⟩ := hole
  obtain ⟨forest, hinsert, hfilled, hnew, hold, hsize, hroots⟩ :=
    Forest.insert_fill hfound hempty hloose
  have hlinks : d.program.forest.links block = opening.links := by
    simp [Forest.links, hopening]
  have hinserted : insert (some place) node asChild d =
      .ok (d.size, d.withForest forest) := by
    unfold insert
    simp only [bind_ok, get_ok, lift_ok, set_ok, pure_ok]
    exact ⟨d, d, rfl, _, d, ⟨hinsert, rfl⟩, _, _, rfl, rfl⟩
  have hhang : hang node d = .ok ((), d.hung forest node block d.size) := by
    unfold hang Draft.hung
    rw [get_bind]
    cases hop : node.operator with
    | module name number => exact absurd hop (hmodule name number)
    | _ =>
      rw [hblock]
      simp only [hlinks, hlast, hchild]
      rw [bind_of_run hinserted]
      rfl
  refine ⟨block, forest, bind_of_run hhang, hfilled, hnew, hold, hsize, hroots, ?_⟩
  cases asChild with
  | true =>
    rw [hsame rfl]
    exact ⟨_, hfilled, rfl⟩
  | false =>
    -- the block keeps what is nested in it
    have hblt : block < d.size := (Array.getElem?_eq_some_iff.mp hopening).1
    by_cases hne : block = place
    · subst hne
      cases hfound.symm.trans hopening
      exact ⟨_, hfilled, hchild⟩
    · exact ⟨opening, (hold block hblt hne).trans hopening, hchild⟩

/-- What reading items leaves: up to the next header they are shown in the hole, and
the modules behind that are new trees. -/
structure Hung (d d' : Draft) (place : Nat) (asChild : Bool) (node : Node Operator)
    (Γ : Context) (trees : List (Tree Operator)) : Prop where
  agrees : d'.Agrees Γ
  old : ∀ i < d.size, i ≠ place →
    d'.program.forest.nodes[i]? = d.program.forest.nodes[i]?
  tables : ∃ t, d.tables.Enters (some .module) (arrange trees).1 t ∧
    t.EntersModules (arrange trees).2 d'.tables
  shown : ∃ start places used used',
    d'.program.forest.nodes[place]? = some (node.fill asChild start) ∧
    d'.program.forest.roots = d.program.forest.roots ++ places ∧
    d'.program.forest.Shows (.row start) (arrange trees).1 used ∧
    d'.program.forest.Shows (.each places) (arrange trees).2 used' ∧
    Covers (used ++ used') d.size d'.size

section

variable {d' : Draft} {Γ Γ' : Context} {place : Nat} {asChild : Bool}
  {trees : List (Tree Operator)}

/-- Nothing is hung into the hole. -/
theorem hung_nothing (hole : d.Hole place asChild node) (hagrees : d.Agrees Γ)
    (ahead : List Token) : Hung d (d.before ahead) place asChild node Γ [] := by
  refine ⟨hagrees.before ahead, fun _ _ _ => rfl, ⟨_, .nothing, .nothing⟩, none, [], [], [],
    ?_, ?_, .nothing, .none, .nil _⟩
  · rw [hole.empty]
    exact hole.found
  · exact (List.append_nil _).symm

/-- A header, which is a new root, and what stands behind it. -/
theorem Hung.module {name : String}
    (h : Hung (d.startModule name) d' d.size true (d.opening name) Γ' trees) :
    (∀ i < d.size, d'.program.forest.nodes[i]? = d.program.forest.nodes[i]?) ∧
      d.tables.EntersModules
        (arrange (.leaf (.module name d.program.modules.size) :: trees)).2 d'.tables ∧
      ∃ places used, d'.program.forest.roots = d.program.forest.roots ++ d.size :: places ∧
        d'.program.forest.Shows (.each (d.size :: places))
          (arrange (.leaf (.module name d.program.modules.size) :: trees)).2 used ∧
        Covers used d.size d'.size := by
  obtain ⟨agrees, old, ⟨t, henters, hmodules⟩, start, places, used, used', hfound, hroots,
    hinside, hmore, hcovers⟩ := h
  have hsize : (d.startModule name).size = d.size + 1 := Forest.size_placed
  have hmodule : d'.program.forest.Shows (.each [d.size])
      [.node (.module name d.program.modules.size) (arrange trees).1 [] none] _ :=
    .alone (.operator hfound rfl hinside .none .none .nothing) .none
  refine ⟨fun i hi => ?_, ?_, places, _, ?_, hmodule.each_append hmore, ?_⟩
  · exact (old i (by omega) (by omega)).trans (Forest.nodes_placed (Nat.ne_of_lt hi))
  · have hlength : d.tables.modules.length = d.program.modules.size := by simp [Draft.tables]
    rw [Draft.startModule_tables] at henters
    rw [← hlength]
    exact .module henters hmodules
  · rw [hroots]
    exact List.append_assoc ..
  · rw [hsize] at hcovers
    simpa using (Covers.single d.size).append hcovers

/-- A header is a row of its own, before the rows of the modules behind it. -/
theorem Hung.header {name : String} (hole : d.Hole place asChild node)
    (h : Hung (d.startModule name) d' d.size true (d.opening name) Γ' trees) :
    Hung d d' place asChild node Γ'
      (.leaf (.module name d.program.modules.size) :: trees) := by
  have hlt : place < d.size := (Array.getElem?_eq_some_iff.mp hole.found).1
  obtain ⟨hkept, hmodules, places, used, hroots, hshows, hcovers⟩ := h.module
  refine ⟨h.agrees, fun i hi _ => hkept i hi, ⟨_, .nothing, hmodules⟩, none,
    d.size :: places, [], used, ?_, hroots, .nothing, hshows, hcovers⟩
  rw [hole.empty, hkept place hlt, hole.found]

/-- Leaves hold nothing. -/
theorem holds_leaf_iff {f : Forest Operator} {operator : Operator} {used : List Nat}
    (h : f.Holds node (.leaf operator) used) : node = { operator } ∧ used = [] := by
  obtain ⟨hloose, hsibling, nested, alternatives, fallback, inside, further, last, htree,
    hchild, hbranches, hlast, rfl⟩ := h
  obtain ⟨rfl, rfl, rfl, rfl⟩ := Tree.node.inj htree
  obtain ⟨op, ⟨child, sibling, alternatives, fallback⟩, index⟩ := node
  simp only at hloose hsibling hchild hbranches hlast
  cases hloose
  cases hsibling
  cases hchild
  cases hbranches
  cases fallback with
  | none =>
    cases hlast
    exact ⟨rfl, rfl⟩
  | some i => cases hlast

/-- An ordinary operator stands in the row of those behind it. -/
theorem arrange_ordinary {tree : Tree Operator}
    (hmodule : ∀ name number, tree.operator ≠ .module name number)
    (hbeginning : tree.operator ≠ .beginning) (rest : List (Tree Operator)) :
    arrange (tree :: rest) = (tree :: (arrange rest).1, (arrange rest).2) := by
  rw [arrange]
  split
  · next h => exact absurd h (hmodule _ _)
  · contradiction
  · rfl

/-- An item in the hole, and what stands behind it. -/
theorem Hung.next {d₁ : Draft} {tree : Tree Operator} {block : Nat}
    {before : Node Operator} {forest : Forest Operator} {rest₁ : List Token} {Γ₁ : Context}
    (hole : d.Hole place asChild before)
    (h₁ : LaysTree (some .module) d rest₁ Γ₁ tree node d₁)
    (hmodule : ∀ name number, tree.operator ≠ .module name number)
    (hleaf : tree.operator = .beginning → tree = .leaf .beginning)
    (hfilled : forest.nodes[place]? = some (before.fill asChild (some d₁.size)))
    (hold : ∀ i < d₁.size, i ≠ place →
      forest.nodes[i]? = d₁.program.forest.nodes[i]?)
    (hsize : forest.nodes.size = d₁.size + 1)
    (hroots : forest.roots = d₁.program.forest.roots)
    (h : Hung (d₁.hung forest node block d₁.size) d' d₁.size
      tree.operator.isBeginning (node.at d₁.size) Γ' trees) :
    Hung d d' place asChild before Γ' (tree :: trees) := by
  obtain ⟨agrees, old, ⟨t, henters, hmodules⟩, start, places, used, used', hfound, hroots',
    hinside, hmore, hcovers⟩ := h
  obtain ⟨used₁, hholds, hcovers₁⟩ := h₁.new
  have hsize' : (d₁.hung forest node block d₁.size).size = d₁.size + 1 := hsize
  rw [hsize'] at hcovers
  have hle := h₁.size_le
  have hlt : place < d.size := (Array.getElem?_eq_some_iff.mp hole.found).1
  have hkept : ∀ i < d₁.size, i ≠ place →
      d'.program.forest.nodes[i]? = d₁.program.forest.nodes[i]? := by
    intro i hi hne
    exact (old i (by omega) (by omega)).trans (hold i hi hne)
  have hplace : d'.program.forest.nodes[place]? =
      some (before.fill asChild (some d₁.size)) :=
    (old place (by omega) (by omega)).trans hfilled
  have hheld : d'.program.forest.Holds node tree used₁ := by
    refine hholds.frame fun i hi => ?_
    obtain ⟨hlo, hhi⟩ := hcovers₁.mem_iff.mp hi
    exact hkept i hhi (by omega)
  have htables : ∃ t, d.tables.Enters (some .module) (arrange (tree :: trees)).1 t ∧
      t.EntersModules (arrange (tree :: trees)).2 d'.tables := by
    by_cases hbeginning : tree.operator = .beginning
    · rw [hleaf hbeginning]
      exact ⟨t, .behind_beginning (hleaf hbeginning ▸ h₁.tables) henters, hmodules⟩
    · rw [arrange_ordinary hmodule hbeginning]
      exact ⟨t, h₁.tables.append henters, hmodules⟩
  refine ⟨agrees, fun i hi hne => ?_, htables, ?_⟩
  · rw [hkept i (by omega) hne]
    exact h₁.old i hi (by simp)
  have hallroots : d'.program.forest.roots = d.program.forest.roots ++ places :=
    hroots'.trans (congrArg (· ++ places) (hroots.trans h₁.roots))
  by_cases hbeginning : tree.operator = .beginning
  · obtain ⟨rfl, rfl⟩ := holds_leaf_iff (hleaf hbeginning ▸ hheld)
    rw [hleaf hbeginning] at hfound ⊢
    refine ⟨some d₁.size, places, d₁.size :: used, used', hplace, hallroots, ?_, hmore, ?_⟩
    · have hshows : d'.program.forest.Shows (.row (some d₁.size))
          [.node .beginning (arrange trees).1 [] none] _ :=
        .operator hfound rfl hinside .none .none .nothing
      simp only [List.append_nil] at hshows
      exact hshows
    · have hbehind := hcovers₁.behind hcovers
      simpa using hbehind
  · rw [Operator.isBeginning_of_ne hbeginning] at hfound
    rw [arrange_ordinary hmodule hbeginning]
    refine ⟨some d₁.size, places, _, used', hplace, hallroots,
      hheld.shows hfound hinside, hmore, ?_⟩
    have hbehind := hcovers₁.behind hcovers
    simpa [List.append_assoc] using hbehind

/-- The next hole is in the item that was hung last. -/
theorem hole_hung {d₁ : Draft} {tree : Tree Operator} {block : Nat}
    {forest : Forest Operator} {rest₁ : List Token} {Γ₁ : Context}
    (h₁ : LaysTree (some .module) d rest₁ Γ₁ tree node d₁)
    (hleaf : tree.operator = .beginning → tree = .leaf .beginning)
    (hnew : forest.nodes[d₁.size]? = some (node.at d₁.size))
    (hopening : ∃ opening, forest.nodes[block]? = some opening ∧
      opening.links.child.isNone = false) :
    (d₁.hung forest node block d₁.size).Hole d₁.size tree.operator.isBeginning
      (node.at d₁.size) := by
  obtain ⟨used₁, hholds, -⟩ := h₁.new
  have hblock := d₁.hung_block forest node block d₁.size
  rw [← hholds.operator] at hblock
  by_cases hbeginning : tree.operator = .beginning
  · obtain ⟨rfl, -⟩ := holds_leaf_iff (hleaf hbeginning ▸ hholds)
    rw [hbeginning] at hblock ⊢
    exact ⟨rfl, hnew, rfl, d₁.size, _, hblock, hnew, rfl, fun _ => rfl⟩
  · rw [Operator.isBeginning_of_ne hbeginning] at hblock ⊢
    obtain ⟨opening, hfound, hchild⟩ := hopening
    refine ⟨rfl, hnew, ?_, block, opening, hblock, hfound, hchild, by simp⟩
    have hsibling := hholds.sibling
    obtain ⟨operator, links, index⟩ := node
    unfold Node.fill Node.at
    simp only at hsibling
    rw [← hsibling]
    rfl

/-- A header is read, and opens a module. -/
theorem header_bind {opening name semicolon : Token} {rest : List Token}
    (head : opening.kind = .moduleWord) (word : name.kind = .word)
    (last : semicolon.kind = .semicolon) (f : Unit → Builder β) :
    (item >>= fun node => hang node >>= f)
        (d.before (opening :: name :: semicolon :: rest)) =
      f () ((d.before rest).startModule name.text) := by
  have hitem : item (d.before (opening :: name :: semicolon :: rest)) =
      moduleHeader (d.before (opening :: name :: semicolon :: rest)) := by
    unfold item
    rw [get_bind]
    exact congrFun (if_pos head) _
  show (item (d.before _) >>= _) = _
  rw [hitem]
  show (moduleHeader >>= fun node => hang node >>= f) (d.before _) = _
  unfold moduleHeader
  rw [bind_assoc, take_bind head (by decide), bind_assoc, take_bind word (by decide),
    bind_assoc, take_bind last (by decide)]
  rfl

end

end Builder

namespace Source

open Builder

variable {N : Numbering} {Γ Γ' : Context} {ts rest : List Token}

/-- The kinds of tokens that an item can start with. -/
def itemWords : List Token.Kind :=
  [.moduleWord, .beginWord, .functionWord, .classWord] ++ statementWords

/-- An item starts with a word for items or for statements. -/
theorem ItemWritten.starts {tree : Tree Operator} (h : ItemWritten N Γ ts tree Γ') :
    ∃ t us, ts = t :: us ∧ t.kind ∈ itemWords := by
  cases h with
  | header head => exact ⟨_, _, rfl, by rw [head]; decide⟩
  | beginning _ head => exact ⟨_, _, rfl, by rw [head]; decide⟩
  | function _ head => exact ⟨_, _, rfl, by rw [head]; decide⟩
  | classDeclaration _ head => exact ⟨_, _, rfl, by rw [head]; decide⟩
  | statement _ written =>
    obtain ⟨t, us, hts, ht⟩ := written.starts rfl
    exact ⟨t, us, hts, List.mem_append_right _ ht⟩

/-- Statements are ordinary operators: neither modules nor marks before statements. -/
theorem Written.ordinary {part : Part} {trees : List (Tree Operator)}
    (h : Written N part Γ ts trees Γ') (hpart : part = .statement) {tree : Tree Operator}
    (htree : tree ∈ trees) :
    (∀ name number, tree.operator ≠ .module name number) ∧
      tree.operator ≠ .beginning := by
  cases h with
  | done => cases htree
  | next => cases hpart
  | noAlternative => cases htree
  | alternative => cases hpart
  | noFallback => cases htree
  | fallback => cases hpart
  | _ =>
    cases List.mem_singleton.mp htree
    exact ⟨by simp [Tree.operator, Tree.leaf], by simp [Tree.operator, Tree.leaf]⟩

/-- An item is a header, the mark before statements, or an ordinary operator. -/
theorem ItemWritten.kinds {tree : Tree Operator} (h : ItemWritten N Γ ts tree Γ') :
    (∃ opening name semicolon, ts = [opening, name, semicolon] ∧
      opening.kind = .moduleWord ∧ name.kind = .word ∧ semicolon.kind = .semicolon ∧
      tree = .leaf (.module name.text Γ.modules.length) ∧ Γ' = Γ.openModule name.text) ∨
    Γ.modules ≠ [] ∧ (∀ name number, tree.operator ≠ .module name number) ∧
      (tree.operator = .beginning → tree = .leaf .beginning) := by
  cases h with
  | header head word last => exact .inl ⟨_, _, _, rfl, head, word, last, rfl, rfl⟩
  | beginning inside head => exact .inr ⟨inside, by simp [Tree.operator, Tree.leaf],
      fun _ => rfl⟩
  | function inside head written =>
    obtain ⟨-, -, -, -, -, -, -⟩ := written
    exact .inr ⟨inside, by simp [Tree.operator, Place.operator],
      by simp [Tree.operator, Place.operator]⟩
  | classDeclaration inside => exact .inr ⟨inside, by simp [Tree.operator],
      by simp [Tree.operator]⟩
  | statement inside written =>
    obtain ⟨hmodule, hbeginning⟩ := written.ordinary rfl (List.mem_singleton_self _)
    exact .inr ⟨inside, hmodule, fun h => absurd h hbeginning⟩

/-- Functions are closed at the top level. -/
theorem Context.declare_closed {Γ : Context} (h : Γ.opened = none) (name : String) :
    (Γ.declare name).opened = none := by
  unfold declare
  rw [h]

/-- Statements leave functions closed at the top level. -/
theorem Written.closed {part : Part} {trees : List (Tree Operator)}
    (h : Written N part Γ ts trees Γ') (hclosed : Γ.opened = none) : Γ'.opened = none := by
  induction h with
  | declaration => exact Context.declare_closed hclosed _
  | loop _ _ _ _ _ ih => exact ih hclosed
  | branch _ _ _ _ _ _ _ ih₁ ih₂ ih₃ => exact ih₃ (ih₂ (ih₁ hclosed))
  | next _ _ ih₁ ih₂ => exact ih₂ (ih₁ hclosed)
  | alternative _ _ _ _ _ ih₁ ih₂ => exact ih₂ (ih₁ hclosed)
  | fallback _ _ ih => exact ih hclosed
  | _ => exact hclosed

/-- Methods are closed by their ends. -/
theorem MethodsWritten.closed {place : Place} {trees : List (Tree Operator)}
    (h : MethodsWritten N place Γ ts trees Γ') (hclosed : Γ.opened = none) :
    Γ'.opened = none := by
  induction h with
  | done => exact hclosed
  | next _ first _ ih =>
    obtain ⟨-, -, -, -, -, -, -⟩ := first
    exact ih rfl

/-- So is every item. -/
theorem ItemWritten.closed {tree : Tree Operator} (h : ItemWritten N Γ ts tree Γ')
    (hclosed : Γ.opened = none) : Γ'.opened = none := by
  cases h with
  | header => exact hclosed
  | beginning => exact hclosed
  | function _ _ written =>
    obtain ⟨-, -, -, -, -, -, -⟩ := written
    rfl
  | classDeclaration _ _ _ _ members => exact members.closed hclosed
  | statement _ written => exact written.closed hclosed

/-- Whether tokens end a program: there are none, or an `end` that belongs to no
item. -/
def Ends (rest : List Token) : Prop :=
  Token.atEnd rest = true ∨ (Token.first rest).kind = .endWord

/-- An `end` where an item is due is the last token that is taken. -/
theorem items_at_end {d : Draft} {b closing : Token} {bound behind : List Token}
    (hkind : closing.kind = .endWord) :
    items (b :: bound) (d.before (closing :: behind)) = .ok ((), d.before behind) := by
  have hend : ¬ Token.atEnd (d.before (closing :: behind)).ahead = true := by
    show ¬ decide (closing.kind = .endOfInput) = true
    rw [hkind]
    decide
  have hsees : Token.firstIs [.endWord] (d.before (closing :: behind)).ahead = true :=
    firstIs_cons (by simp [hkind]) _
  rw [items, get_bind, if_neg hend, sees_bind, hsees, if_pos rfl]
  exact take_bind hkind (by decide)

/-- Where the items end, the builder takes no more than one `end`. -/
theorem items_ends {d : Draft} (hends : Ends rest) (bound : List Token) :
    ∃ ahead, items bound (d.before rest) = .ok ((), d.before ahead) := by
  cases bound with
  | nil => exact ⟨rest, rfl⟩
  | cons b bound =>
    obtain hend | hword := hends
    · rw [items, get_bind, if_pos (show Token.atEnd (d.before rest).ahead = true from hend)]
      exact ⟨rest, rfl⟩
    · cases rest with
      | nil => cases hword
      | cons t us => exact ⟨us, items_at_end hword⟩

/-- Where an item is due, it is read and hung, and the other items follow. -/
theorem items_step {d : Draft} {b : Token} {bound : List Token}
    (hend : ¬ Token.atEnd d.ahead = true)
    (hword : ¬ Token.firstIs [.endWord] d.ahead = true) :
    items (b :: bound) d = (item >>= fun node => hang node >>= fun _ => items bound) d := by
  rw [items, get_bind, if_neg hend, sees_bind, if_neg hword]

/-- Where an item starts, the builder reads it. -/
theorem items_next {d : Draft} {b : Token} {bound us : List Token} {tree : Tree Operator}
    (h : ItemWritten N Γ ts tree Γ') :
    items (b :: bound) (d.before (ts ++ us)) =
      (item >>= fun node => hang node >>= fun _ => items bound) (d.before (ts ++ us)) := by
  obtain ⟨t, vs, rfl, ht⟩ := h.starts
  have hother : ∀ kind ∈ itemWords, kind ≠ .endOfInput ∧ kind ≠ .endWord := by decide
  have hahead : Token.atEnd (d.before (t :: vs ++ us)).ahead = false :=
    decide_eq_false (hother _ ht).1
  have hnot : Token.firstIs [.endWord] (d.before (t :: vs ++ us)).ahead = false :=
    firstIs_eq_false (hother _ ht).2
  exact items_step (by rw [hahead]; decide) (by rw [hnot]; decide)

/-- An item that was read is hung into the hole, and the next hole is in it. -/
theorem hang_item {d d₁ : Draft} {place : Nat} {asChild : Bool} {before node : Node Operator}
    {tree : Tree Operator} {β : Type} (hole : d.Hole place asChild before)
    (h₁ : LaysTree (some .module) d rest Γ tree node d₁)
    (hmodule : ∀ name number, tree.operator ≠ .module name number)
    (hleaf : tree.operator = .beginning → tree = .leaf .beginning) (f : Unit → Builder β) :
    ∃ block forest, (hang node >>= f) d₁ =
        f () ((d₁.hung forest node block d₁.size).before rest) ∧
      (d₁.hung forest node block d₁.size).Agrees Γ ∧
      (d₁.hung forest node block d₁.size).Hole d₁.size tree.operator.isBeginning
        (node.at d₁.size) ∧
      forest.nodes[place]? = some (before.fill asChild (some d₁.size)) ∧
      (∀ i < d₁.size, i ≠ place → forest.nodes[i]? = d₁.program.forest.nodes[i]?) ∧
      forest.nodes.size = d₁.size + 1 ∧ forest.roots = d₁.program.forest.roots := by
  obtain ⟨used, hholds, -⟩ := h₁.new
  have hmodule₁ : ∀ name number, node.operator ≠ .module name number := by
    rwa [← hholds.operator]
  have hole₁ : d₁.Hole place asChild before := by
    obtain ⟨hlast, hfound, hempty, block, opening, hblock, hopening, hrest⟩ := hole
    have hlt : place < d.size := (Array.getElem?_eq_some_iff.mp hfound).1
    have hblt : block < d.size := (Array.getElem?_eq_some_iff.mp hopening).1
    exact ⟨h₁.last.trans hlast, (h₁.old place hlt (by simp)).trans hfound, hempty,
      block, opening, h₁.block.trans hblock,
      (h₁.old block hblt (by simp)).trans hopening, hrest⟩
  obtain ⟨block, forest, hrun, hfilled, hnew, hold, hsize, hroots, hopening⟩ :=
    hang_bind hole₁ hholds.loose hmodule₁ f
  have hagrees : (d₁.hung forest node block d₁.size).Agrees Γ := by
    obtain ⟨h₁, h₂, h₃, h₄, h₅, h₆, h₇, h₈⟩ := h₁.agrees
    exact ⟨h₁, h₂, h₃, h₄, h₅, h₆, h₇, h₈⟩
  refine ⟨block, forest, ?_, hagrees, hole_hung h₁ hleaf hnew hopening, hfilled, hold,
    hsize, hroots⟩
  rw [Draft.before_of_ahead (show (d₁.hung forest node block d₁.size).ahead = rest from
    h₁.ahead)]
  exact hrun

/-- A module that was opened just now is a hole. -/
theorem hole_startModule (d : Draft) (name : String) :
    (d.startModule name).Hole d.size true (d.opening name) :=
  ⟨rfl, Forest.nodes_placed_last, rfl, d.size, _, rfl, Forest.nodes_placed_last, rfl,
    fun _ => rfl⟩

/-- Items that the rules allow are hung into the hole. -/
theorem ItemsWritten.hung {trees : List (Tree Operator)}
    (h : ItemsWritten .read Γ ts trees Γ') (hends : Ends rest) :
    ∀ {d : Draft} {place : Nat} {asChild : Bool} {node : Node Operator} (bound : List Token),
      Γ.opened = none → d.Agrees Γ → d.Hole place asChild node →
      (ts ++ rest).length ≤ bound.length →
      Gets (items bound (d.before (ts ++ rest))) (nestingLimit ≤ ts.length)
        fun _ d' => Hung d d' place asChild node Γ' trees := by
  induction h with
  | done =>
    intro d place asChild node bound _ hagrees hole hbound
    obtain ⟨ahead, hrun⟩ := items_ends hends bound
    rw [List.nil_append, hrun]
    exact .ok (hung_nothing hole hagrees ahead)
  | @next Γ ts tree Γ₁ us trees Γ' first more ih =>
    intro d place asChild node bound hclosed hagrees hole hbound
    obtain ⟨t, vs, hts, -⟩ := first.starts
    cases bound with
    | nil => simp [hts] at hbound
    | cons b bound =>
      have hlength : (us ++ rest).length ≤ bound.length := by
        simp only [List.length_append, List.length_cons, hts] at hbound ⊢
        omega
      have hdeep : nestingLimit ≤ us.length → nestingLimit ≤ (ts ++ us).length := by
        rw [List.length_append]
        omega
      rw [List.append_assoc, items_next first]
      obtain ⟨opening, name, semicolon, hheader, head, word, last, rfl, rfl⟩ |
          ⟨hopen, hmodule, hleaf⟩ := first.kinds
      · subst hheader
        have hsize : d.program.modules.size = Γ.modules.length := hagrees.size_modules
        rw [List.cons_append, List.cons_append, List.cons_append, List.nil_append,
          header_bind head word last]
        have hstart : (d.startModule name.text).Agrees (Γ.openModule name.text) :=
          hagrees.startModule hclosed _
        refine (ih bound hclosed hstart (hole_startModule d _) hlength).imp hdeep
          fun _ d' hung => ?_
        rw [← hsize]
        exact hung.header hole
      · refine (item_gets first hmodule hagrees).bind ?_ fun node₁ d₁ h₁ => ?_
        · rw [List.length_append]
          omega
        · obtain ⟨block, forest, hrun, hagrees₂, hole₂, hfilled, hold, hsize, hroots⟩ :=
            hang_item hole h₁ hmodule hleaf fun _ => items bound
          rw [hrun]
          refine (ih bound (first.closed hclosed) hagrees₂ hole₂ hlength).imp hdeep
            fun _ d' hung => ?_
          exact hung.next hole h₁ hmodule hleaf hfilled hold hsize hroots

/-- What a program's draft shows: the items, as trees from the roots on. -/
structure Built (d : Draft) (items : List (Tree Operator)) (Γ : Context) : Prop where
  agrees : d.Agrees Γ
  inside : (arrange items).1 = []
  tables : Tables.EntersModules {} (arrange items).2 d.tables
  shown : ∃ used,
    d.program.forest.Shows (.each d.program.forest.roots) (arrange items).2 used ∧
      Covers used 0 d.size

/-- Tokens that are a program are built into it. -/
theorem ProgramWritten.built {tokens : List Token} {trees : List (Tree Operator)}
    (h : ProgramWritten .read tokens trees Γ) :
    Gets (items tokens { ahead := tokens }) (nestingLimit ≤ tokens.length)
      fun _ d => Built d trees Γ := by
  obtain ⟨used, rest, rfl, hitems, hends⟩ := h
  have hfresh := Draft.Agrees.fresh (used ++ rest)
  cases hitems with
  | done =>
    obtain ⟨ahead, hrun⟩ := items_ends (d := { ahead := rest }) hends rest
    show Gets (items rest (Draft.before { ahead := rest } rest)) _ _
    rw [hrun]
    exact .ok ⟨hfresh.before ahead, rfl, .nothing, [], .none, .nil _⟩
  | @next _ ts tree Γ₁ us trees _ first more =>
    obtain ⟨opening, name, semicolon, rfl, head, word, last, rfl, rfl⟩ | ⟨hopen, -⟩ :=
      first.kinds
    · have hstart := hfresh.startModule rfl name.text
      have hhung := more.hung hends (name :: semicolon :: (us ++ rest)) rfl hstart
        (hole_startModule _ _) (by simp only [List.length_cons]; omega)
      show Gets (items _ (Draft.before { ahead := [opening, name, semicolon] ++ us ++ rest }
        ([opening, name, semicolon] ++ us ++ rest))) _ _
      rw [List.append_assoc]
      show Gets (items (opening :: name :: semicolon :: (us ++ rest)) (Draft.before _ _)) _ _
      rw [items_next first, List.cons_append, List.cons_append, List.cons_append,
        List.nil_append, header_bind head word last]
      refine hhung.imp ?_ fun _ d hung => ?_
      · simp only [List.length_cons, List.length_append]
        omega
      · obtain ⟨-, hmodules, places, used, hroots, hshows, hcovers⟩ := hung.module
        exact ⟨hung.agrees, rfl, hmodules, used, hroots ▸ hshows, hcovers⟩
    · exact absurd rfl hopen

end Source

end Pseudocode
