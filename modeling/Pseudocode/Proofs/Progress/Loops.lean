import Pseudocode.Proofs.Progress.Steps

/-!
# The loops of the parser end

A loop of the parser goes on until the next token tells it to stop.  Written as a recursion
it has a bound, the tokens that were ahead when it began, and it would also stop when the
bound is used up.  It never does.  Here every loop is written down a second time as what it
is without a bound (`Loop`): when it is left, and what one round does.  Nothing says that
such a loop ends; `Loop.Runs` is how it ends if it does, and after how many rounds.

Every round takes a token, and with no token ahead the loop is left, so that a loop ends
after no more rounds than there are tokens; and the recursion, whose bound is long enough,
gives what the loop without bound gives (`Unrolled.ends`).  What remains is to compare each
recursion with its loop.  Most of the loops go on while they see certain tokens
(`whileSeeing`), and those that only put together what they read are one loop with one lemma
(`ends_collecting`); a body, the methods of a class and the top level hand an owner or a
mark on from round to round and are compared on their own.

> `Expr.loopsEnd`: rows of operators at every level, and arguments.
>
> `Builder.loopsEnd`: bodies, further branches, methods and parameters.
>
> `Builder.ends_items`: the top level.
-/

namespace Pseudocode

/-- When a loop is left, with a result or a fault, and otherwise what one round does. -/
structure Loop (σ ι α : Type) where
  leave : ι → σ → Option (Except Fault α)
  round : ι → StateT σ (Except Fault) ι

namespace Loop

section

variable {σ ι α β : Type} {l : Loop σ ι α}

/-- How a loop ends, and after how many rounds.  A round that fails is one. -/
inductive Runs (l : Loop σ ι α) : Nat → ι → σ → Except Fault (α × σ) → Prop
  | left {i s result} : l.leave i s = some result → Runs l 0 i s (result.map (·, s))
  | failed {i s fault} : l.leave i s = none → l.round i s = .error fault →
      Runs l 1 i s (.error fault)
  | again {n i s i' s' r} : l.leave i s = none → l.round i s = .ok (i', s') →
      Runs l n i' s' r → Runs l (n + 1) i s r

/-- A loop ends in one way. -/
theorem Runs.unique {n n' : Nat} {i : ι} {s : σ} {r r' : Except Fault (α × σ)}
    (h : l.Runs n i s r) (h' : l.Runs n' i s r') : n = n' ∧ r = r' := by
  induction h generalizing n' with
  | left hleave =>
    cases h' with
    | left hleave' =>
      cases hleave.symm.trans hleave'
      exact ⟨rfl, rfl⟩
    | failed hleave' _ => cases hleave.symm.trans hleave'
    | again hleave' _ _ => cases hleave.symm.trans hleave'
  | failed hleave hround =>
    cases h' with
    | left hleave' => cases hleave.symm.trans hleave'
    | failed _ hround' =>
      cases hround.symm.trans hround'
      exact ⟨rfl, rfl⟩
    | again _ hround' _ => cases hround.symm.trans hround'
  | again hleave hround _ ih =>
    cases h' with
    | left hleave' => cases hleave.symm.trans hleave'
    | failed _ hround' => cases hround.symm.trans hround'
    | again _ hround' hrest' =>
      cases hround.symm.trans hround'
      obtain ⟨rfl, rfl⟩ := ih hrest'
      exact ⟨rfl, rfl⟩

variable [Ahead σ]

open Ahead

/-- A loop ends with a result after no more rounds than there are tokens ahead. -/
def Ends (l : Loop σ ι α) (i : ι) (s : σ) (r : Except Fault (α × σ)) : Prop :=
  ∃ n, n ≤ (ahead s).length ∧ l.Runs n i s r

/-- A recursion along a bound that makes the rounds of a loop, each of which takes a
token. -/
structure Unrolled (l : Loop σ ι α) (x : List Token → ι → StateT σ (Except Fault) α) :
    Prop where
  stops : ∀ i s, ahead s = [] → l.leave i s ≠ none
  advances : ∀ i, Advances (l.round i)
  leaves : ∀ bound i s result, l.leave i s = some result →
    x bound i s = result.map (·, s)
  goesOn : ∀ b bound i s, l.leave i s = none →
    x (b :: bound) i s = (l.round i >>= x bound) s

/-- With a bound as long as the tokens ahead, the recursion is the loop. -/
theorem Unrolled.ends_bound {x : List Token → ι → StateT σ (Except Fault) α}
    (h : l.Unrolled x) :
    ∀ (bound : List Token) i s, (ahead s).length ≤ bound.length →
      l.Ends i s (x bound i s) := by
  intro bound
  induction bound with
  | nil =>
    intro i s hbound
    have hnil : ahead s = [] := List.length_eq_zero_iff.mp (Nat.le_zero.mp hbound)
    obtain ⟨result, hleave⟩ := Option.ne_none_iff_exists'.mp (h.stops i s hnil)
    rw [h.leaves [] i s result hleave]
    exact ⟨0, Nat.zero_le _, .left hleave⟩
  | cons b bound ih =>
    intro i s hbound
    rw [List.length_cons] at hbound
    cases hleave : l.leave i s with
    | some result =>
      rw [h.leaves _ i s result hleave]
      exact ⟨0, Nat.zero_le _, .left hleave⟩
    | none =>
      have hsome : 1 ≤ (ahead s).length :=
        List.length_pos_iff.mpr fun hnil => h.stops i s hnil hleave
      rw [h.goesOn b bound i s hleave]
      show l.Ends i s (l.round i s >>= _)
      cases hround : l.round i s with
      | error fault => exact ⟨1, hsome, .failed hleave hround⟩
      | ok r =>
        have hless := (h.advances i).shorter hround
        obtain ⟨n, hn, hruns⟩ := ih r.1 r.2 (by omega)
        exact ⟨n + 1, by omega, .again hleave hround hruns⟩

/-- Bounded by the tokens ahead, the recursion is the loop, which ends. -/
theorem Unrolled.ends {x : List Token → ι → StateT σ (Except Fault) α}
    (h : l.Unrolled x) (i : ι) (s : σ) : l.Ends i s (x (ahead s) i s) :=
  h.ends_bound (ahead s) i s (Nat.le_refl _)

/-- A loop that goes on while the next token is of one of some kinds. -/
def whileSeeing (kinds : List Token.Kind) (round : ι → StateT σ (Except Fault) ι)
    (result : ι → α) : Loop σ ι α where
  leave i s := if Token.firstIs kinds (ahead s) then none else some (.ok (result i))
  round := round

/-- A recursion that goes on while it sees certain tokens is such a loop, unrolled. -/
theorem unrolled_whileSeeing {kinds : List Token.Kind}
    {round : ι → StateT σ (Except Fault) ι} {result : ι → α}
    {x : List Token → ι → StateT σ (Except Fault) α}
    (hend : Token.Kind.endOfInput ∉ kinds) (hround : ∀ i, Advances (round i))
    (hstop : ∀ i, x [] i = pure (result i))
    (hmake : ∀ b bound i s, x (b :: bound) i s =
      if Token.firstIs kinds (ahead s) then (round i >>= x bound) s
      else .ok (result i, s)) :
    (whileSeeing kinds round result).Unrolled x where
  stops i s hnil := by
    have hfirst : ¬Token.firstIs kinds (ahead s) = true := by
      rw [hnil]
      exact fun h => hend (List.contains_iff_mem.mp h)
    simp [whileSeeing, hfirst]
  advances := hround
  leaves bound i s r hleave := by
    by_cases hsees : Token.firstIs kinds (ahead s) = true
    · simp [whileSeeing, hsees] at hleave
    · obtain rfl : Except.ok (result i) = r := by simpa [whileSeeing, hsees] using hleave
      cases bound with
      | nil =>
        rw [hstop]
        rfl
      | cons b bound =>
        rw [hmake, if_neg hsees]
        rfl
  goesOn b bound i s hleave := by
    by_cases hsees : Token.firstIs kinds (ahead s) = true
    · rw [hmake, if_pos hsees]
      rfl
    · simp [whileSeeing, hsees] at hleave

/-- A loop that collects what is read in each round. -/
def collecting (kinds : List Token.Kind) (one : StateT σ (Except Fault) β) :
    Loop σ (List β) (List β) :=
  whileSeeing kinds (fun collected => return collected ++ [← one]) id

/-- A recursion that puts what it reads before what it reads later is the loop that
collects, started with nothing. -/
theorem ends_collecting {kinds : List Token.Kind} {one : StateT σ (Except Fault) β}
    (x : List Token → StateT σ (Except Fault) (List β))
    (hend : Token.Kind.endOfInput ∉ kinds) (hone : Advances one) (hstop : x [] = pure [])
    (hmake : ∀ b bound s, x (b :: bound) s =
      if Token.firstIs kinds (ahead s)
      then (do let b ← one; return b :: (← x bound) : StateT σ (Except Fault) _) s
      else .ok ([], s)) (s : σ) :
    (collecting kinds one).Ends [] s (x (ahead s) s) := by
  have hunrolled : (collecting kinds one).Unrolled fun bound collected => do
      return collected ++ (← x bound) := by
    refine unrolled_whileSeeing hend (fun collected => hone.andThen fun b => .pure _)
      (fun collected => ?_) fun b bound collected s => ?_
    · rw [hstop, pure_bind, List.append_nil]
      rfl
    · show (x (b :: bound) s >>= _) = _
      rw [hmake]
      split
      · simp only [bind_assoc, pure_bind, List.append_assoc, List.singleton_append]
        show ((one s >>= _) >>= _) = (one s >>= _)
        cases one s with
        | error fault => rfl
        | ok r =>
          show ((x bound r.2 >>= _) >>= _) = (x bound r.2 >>= _)
          cases x bound r.2 <;> rfl
      · show Except.ok _ = _
        rw [List.append_nil]
        rfl
  have hx : (x (ahead s) >>= fun rest => pure ([] ++ rest)) = x (ahead s) := bind_pure _
  exact hx ▸ hunrolled.ends [] s

end

end Loop

/-! ## Rows, arguments and parameters -/

namespace Expr

open Reader

/-- The rest of a row: in a round an operator and its right operand. -/
def rowLoop (kinds : List Token.Kind) (join : String → Expr → Expr → Expr)
    (operand : Reader Expr) : Loop (List Token) Expr Expr :=
  .whileSeeing kinds (fun left => do
    let t ← take kinds
    let right ← operand
    return join t.kind.spelling left right) id

/-- The rest of a row ends, whatever is its left operand and whatever is ahead. -/
def RowEnds (kinds : List Token.Kind) (join : String → Expr → Expr → Expr)
    (operand : Reader Expr) : Prop :=
  ∀ left ts, (rowLoop kinds join operand).Ends left ts
    (rowRest kinds join operand ts left ts)

/-- A row of operators ends: each round takes its operator. -/
theorem rowEnds {kinds : List Token.Kind} {join : String → Expr → Expr → Expr}
    {operand : Reader Expr} (hend : Token.Kind.endOfInput ∉ kinds)
    (hoperand : Reads 0 operand) : RowEnds kinds join operand := by
  have hunrolled : (rowLoop kinds join operand).Unrolled (rowRest kinds join operand) := by
    refine Loop.unrolled_whileSeeing hend (fun left => ?_) (fun left => rfl)
      fun b bound left s => ?_
    · exact (reads_take hend).andThen fun t => hoperand.behind fun right => .pure _
    · show (if Token.firstIs kinds s then _ else _ : Reader Expr) s = _
      rw [ite_apply]
      simp only [bind_assoc, pure_bind]
      rfl
  exact fun left ts => hunrolled.ends left ts

/-- The rest of a list with commas: in a round a comma and an item. -/
def commaLoop {α : Type} (item : Reader α) : Loop (List Token) (List α) (List α) :=
  .collecting [.comma] do
    let _ ← take [.comma]
    item

/-- Items behind commas end: each round takes its comma. -/
theorem ends_behindCommas {α : Type} {item : Reader α} (hitem : Reads 0 item)
    (ts : List Token) : (commaLoop item).Ends [] ts (behindCommas item ts ts) := by
  refine Loop.ends_collecting (behindCommas item) (by decide)
    ((reads_take (by decide)).andThen fun t => hitem) rfl (fun b bound s => ?_) ts
  show (if Token.firstIs [.comma] s then _ else _ : Reader (List α)) s = _
  rw [ite_apply]
  simp only [bind_assoc]
  rfl

/-- The loops in expressions end. -/
structure LoopsEnd (names : Names) (inner : Reader Expr) : Prop where
  disjunction : RowEnds [.orOr] joinCondition (conjunction names inner)
  conjunction : RowEnds [.andAnd] joinCondition (equality names inner)
  relation : RowEnds [.less, .lessOrEqual, .greater, .greaterOrEqual] joinCondition
    (additive names inner)
  additive : RowEnds [.plus, .minus] joinArithmetic (term names inner)
  term : RowEnds [.multiply, .divide] joinArithmetic (unary names inner)
  arguments : ∀ ts, (commaLoop inner).Ends [] ts (behindCommas inner ts ts)

/-- All loops of the readers of expressions end. -/
theorem loopsEnd (names : Names) {inner : Reader Expr} (hinner : Reads 0 inner) :
    LoopsEnd names inner :=
  have h := levels names hinner
  { disjunction := rowEnds (by decide) h.conjunction.any
    conjunction := rowEnds (by decide) h.equality.any
    relation := rowEnds (by decide) h.additive.any
    additive := rowEnds (by decide) h.term.any
    term := rowEnds (by decide) h.unary.any
    arguments := ends_behindCommas hinner }

end Expr

/-! ## Bodies, conditionals, classes and the top level -/

namespace Builder

section

variable {statement : Builder (Node Operator)} (hstatement : Advances statement)

/-- The further branches of a conditional: in a round a guard and a body. -/
def alternativeLoop (statement : Builder (Node Operator)) (depth : Nat)
    (closing : List Token.Kind) : Loop Draft (List Nat) (List Nat) :=
  .collecting [.elseIfWord] do
    let _ ← take .elseIfWord
    let operator := Operator.elseIf (← expression depth)
    let _ ← take .thenWord
    furtherBranch statement operator closing

include hstatement in
/-- The further branches of a conditional end: each round takes the word for one. -/
theorem ends_alternatives (depth : Nat) (closing : List Token.Kind) (d : Draft) :
    (alternativeLoop statement depth closing).Ends [] d
      (alternatives statement depth closing d.ahead d) := by
  refine Loop.ends_collecting (alternatives statement depth closing) (by decide) ?_ rfl
    (fun b bound d => ?_) d
  · refine (advances_take (by decide)).andThen fun _ => ?_
    refine (reads_expression depth).behind fun _ => ?_
    refine (reads_take (by decide)).behind fun _ => ?_
    exact reads_furtherBranch hstatement.any _ closing
  · show (if Token.firstIs [.elseIfWord] d.ahead then _ else _ : Builder (List Nat)) d = _
    rw [ite_apply]
    simp only [bind_assoc]
    rfl

section

variable {π : Type} {nest : π → Nat → Builder π}

/-- The methods of a class: in a round one method, which is nested in the class or follows
the one before it. -/
def methodLoop (nest : π → Nat → Builder π) (number : Nat) (className moduleName : String) :
    Loop Draft (π × Option Nat) π :=
  .whileSeeing [.methodWord] (fun row => do
    let _ ← take .methodWord
    let node ← function (.classOf number) (some className) moduleName
    let (owner, index) ← attach nest row.1 row.2 node
    return (owner, some index)) Prod.fst

/-- The methods of a class end: each round takes the word for one. -/
theorem ends_methods (hnest : Blind nest) (number : Nat) (className moduleName : String)
    (owner : π) (d : Draft) :
    (methodLoop nest number className moduleName).Ends (owner, none) d
      (methods nest number className moduleName d.ahead owner none d) := by
  have hunrolled : (methodLoop nest number className moduleName).Unrolled fun bound row =>
      methods nest number className moduleName bound row.1 row.2 := by
    refine Loop.unrolled_whileSeeing (by decide) (fun row => ?_) (fun row => rfl)
      fun b bound row d => ?_
    · refine (advances_take (by decide)).andThen fun _ => ?_
      refine (advances_function _ _ _).any.behind fun node => ?_
      exact (reads_attach hnest row.1 row.2 node).behind fun attached => .pure _
    · show (if Token.firstIs [.methodWord] d.ahead then _ else _ : Builder π) d = _
      rw [ite_apply]
      simp only [bind_assoc, pure_bind]
      rfl
  exact hunrolled.ends (owner, none) d

/-- The statements of a body: it is over at a closing word and fails at the end of input. -/
def bodyLoop (nest : π → Nat → Builder π) (statement : Builder (Node Operator))
    (line : String) (closing : List Token.Kind) : Loop Draft (π × Option Nat) π where
  leave row d :=
    if Token.firstIs closing d.ahead then some (.ok row.1)
    else if Token.atEnd d.ahead then some (.error (.parse (.unterminated line closing)))
    else none
  round row := do
    let node ← statement
    let (owner, index) ← attach nest row.1 row.2 node
    return (owner, some index)

/-- One round of a body, as the recursion makes it. -/
theorem bodyRest_eq (line : String) (closing : List Token.Kind) (b : Token)
    (bound : List Token) (row : π × Option Nat) (d : Draft) :
    bodyRest nest statement line closing (b :: bound) row.1 row.2 d =
      if Token.firstIs closing d.ahead then .ok (row.1, d)
      else if Token.atEnd d.ahead then .error (.parse (.unterminated line closing))
      else (statement >>= fun node => attach nest row.1 row.2 node >>= fun attached =>
        bodyRest nest statement line closing bound attached.1 (some attached.2)) d := by
  show (if Token.firstIs closing d.ahead then _ else _ : Builder π) d = _
  rw [ite_apply]
  show (if Token.firstIs closing d.ahead then _
    else (if Token.atEnd d.ahead then _ else _ : Builder π) d) = _
  rw [ite_apply]
  rfl

variable (hnest : Blind nest)

include hnest

include hstatement in
/-- A body has one more token as its bound, for the round in which it may find no end. -/
theorem unrolled_body (line : String) (closing : List Token.Kind) :
    (bodyLoop nest statement line closing).Unrolled fun bound row =>
      bodyRest nest statement line closing (.ending :: bound) row.1 row.2 where
  stops row d hnil := by
    have hnil : d.ahead = [] := hnil
    show (if _ then _ else _) ≠ none
    rw [hnil]
    split <;> simp [Token.atEnd, Token.first, Token.ending]
  advances row := hstatement.andThen fun node =>
    (reads_attach hnest row.1 row.2 node).behind fun attached => .pure _
  leaves bound row d result hleave := by
    rw [bodyRest_eq]
    by_cases hclosing : Token.firstIs closing d.ahead = true
    · obtain rfl : Except.ok row.1 = result := by simpa [bodyLoop, hclosing] using hleave
      rw [if_pos hclosing]
      rfl
    · by_cases hend : Token.atEnd d.ahead = true
      · obtain rfl : Except.error _ = result := by
          simpa [bodyLoop, hclosing, hend] using hleave
        rw [if_neg hclosing, if_pos hend]
        rfl
      · simp [bodyLoop, hclosing, hend] at hleave
  goesOn b bound row d hleave := by
    have hclosing : ¬Token.firstIs closing d.ahead = true := by
      intro hclosing
      simp [bodyLoop, hclosing] at hleave
    have hend : ¬Token.atEnd d.ahead = true := by
      intro hend
      simp [bodyLoop, hclosing, hend] at hleave
    rw [bodyRest_eq, if_neg hclosing, if_neg hend]
    show _ = ((statement >>= fun node => attach nest row.1 row.2 node >>= fun attached =>
      pure (attached.1, some attached.2)) >>= fun row' =>
        bodyRest nest statement line closing (b :: bound) row'.1 row'.2) d
    simp only [bind_assoc, pure_bind]

include hstatement in
/-- A body ends: each round takes a statement. -/
theorem ends_body (operator : Operator) (closing : List Token.Kind) (owner : π) (d : Draft) :
    (bodyLoop nest statement (Captioned.line operator) closing).Ends (owner, none) d
      (body nest statement operator closing owner d) :=
  (unrolled_body hstatement hnest _ closing).ends (owner, none) d

end

end

/-- The loops in statements and declarations end: the bodies of operators, those of the
further branches of conditionals, the branches themselves, methods and parameters. -/
structure LoopsEnd (depth : Nat) : Prop where
  bodies : ∀ operator closing owner d,
    (bodyLoop nestLoose (statement depth) (Captioned.line operator) closing).Ends
      (owner, none) d (body nestLoose (statement depth) operator closing owner d)
  branchBodies : ∀ operator closing owner d,
    (bodyLoop nestPlaced (statement depth) (Captioned.line operator) closing).Ends
      (owner, none) d (body nestPlaced (statement depth) operator closing owner d)
  alternatives : ∀ closing d, (alternativeLoop (statement depth) depth closing).Ends [] d
    (alternatives (statement depth) depth closing d.ahead d)
  methods : ∀ number className moduleName owner d,
    (methodLoop nestLoose number className moduleName).Ends (owner, none) d
      (methods nestLoose number className moduleName d.ahead owner none d)
  parameters : ∀ ts, (Expr.commaLoop parameter).Ends [] ts
    (Expr.behindCommas parameter ts ts)

/-- All loops of statements, functions and classes end. -/
theorem loopsEnd (depth : Nat) : LoopsEnd depth where
  bodies := ends_body (advances_statement depth) blind_nestLoose
  branchBodies := ends_body (advances_statement depth) blind_nestPlaced
  alternatives := ends_alternatives (advances_statement depth) depth
  methods := ends_methods blind_nestLoose
  parameters := Expr.ends_behindCommas Reader.advances_parameter.any

/-- The top level: in a round an operator, or the `end` that closes the program. -/
def itemLoop : Loop Draft Bool Unit where
  leave closed d := if closed || Token.atEnd d.ahead then some (.ok ()) else none
  round _ := do
    if ← sees [.endWord] then
      let _ ← take .endWord
      return true
    else
      hang (← item)
      return false

/-- One round of the top level, as the recursion makes it. -/
theorem items_cons (b : Token) (bound : List Token) (d : Draft) :
    items (b :: bound) d =
      if Token.atEnd d.ahead then .ok ((), d)
      else (itemLoop.round false >>= fun closed =>
        if closed then pure () else items bound) d := by
  show (if Token.atEnd d.ahead then _ else _ : Builder Unit) d = _
  rw [ite_apply]
  congr 1
  show (if Token.firstIs [.endWord] d.ahead then _ else _ : Builder Unit) d =
    ((if Token.firstIs [.endWord] d.ahead then _ else _ : Builder Bool) d >>= _)
  rw [ite_apply, ite_apply]
  split
  · show _ = ((take .endWord >>= fun _ => pure true) >>= fun closed =>
      if closed then pure () else items bound) d
    rw [bind_assoc]
    rfl
  · show _ = ((item >>= fun node => hang node >>= fun _ => pure false) >>= fun closed =>
      if closed then pure () else items bound) d
    simp only [bind_assoc, pure_bind]
    rfl

/-- One round of the top level takes an item, or the `end` that closes the program. -/
theorem advances_itemRound (closed : Bool) : Advances (itemLoop.round closed) := by
  refine (reads_sees _).behind fun seen => .ite ?_ ?_
  · exact (advances_take (by decide)).andThen fun _ => .pure _
  · refine advances_item.andThen fun node => ?_
    exact (Reads.nothing (local_hang node)).behind fun _ => .pure _

/-- The top level is its loop, unrolled. -/
theorem unrolled_items :
    itemLoop.Unrolled fun bound closed => if closed then pure () else items bound where
  stops closed d hnil := by
    have hnil : d.ahead = [] := hnil
    simp [itemLoop, hnil, Token.atEnd, Token.first, Token.ending]
  advances := advances_itemRound
  leaves bound closed d result hleave := by
    cases closed with
    | true =>
      cases hleave
      rfl
    | false =>
      by_cases hend : Token.atEnd d.ahead = true
      · obtain rfl : Except.ok () = result := by simpa [itemLoop, hend] using hleave
        cases bound with
        | nil => rfl
        | cons b bound =>
          show items (b :: bound) d = _
          rw [items_cons, if_pos hend]
          rfl
      · simp [itemLoop, hend] at hleave
  goesOn b bound closed d hleave := by
    cases closed with
    | true => cases hleave
    | false =>
      have hend : ¬Token.atEnd d.ahead = true := by
        intro hend
        simp [itemLoop, hend] at hleave
      show items (b :: bound) d = _
      rw [items_cons, if_neg hend]

/-- The top level ends. -/
theorem ends_items (d : Draft) : itemLoop.Ends false d (items d.ahead d) :=
  unrolled_items.ends false d

end Builder

end Pseudocode
