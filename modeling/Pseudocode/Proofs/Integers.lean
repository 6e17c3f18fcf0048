import Mathlib.Data.Int.ModEq
import Pseudocode.Proofs.Exec

/-!
# Integers modulo 2^32

Expressions made of integers with signs and the four operators are written down once
more, as trees (`IntegerTree`), with three readings: the exact integer, the integer of
32 bits that comes of wrapping at every node, and how deep and long the evaluation is.
`evaluate_outcome` walks over a tree and over the levels at the same time and finds that
the evaluator gives the wrapped integer, unless a divisor is zero or the levels give
out.

> `words_eq_none_iff`: there is no integer just if a divisor is zero.
>
> `words_modEq`: without quotients, wrapping at every node is wrapping once at the end.
>
> `words_quotient`: a quotient is cut towards zero, with the remainder that belongs to it.

The last two are no longer about
the evaluator: the balanced residue respects the three operators of a ring, and a quotient
leaves the range in one case only, the least integer by minus one (`tdiv_range`).

Variables are read by whatever they are bound to, so that all that is asked of them is
that they have an integer (`IntegerValued`); a variable that holds one has it, and so has
one that is bound to a tree.

Nothing bounds how deep a tree is, and the evaluator does bound it: a sum of 2000 ones is
too deep (`sum_too_deep`).
-/

namespace Pseudocode

open Exec

/-! ## Operators -/

/-- The exact result of an operator on integers, if it has one; a quotient is cut
towards zero. -/
def Arithmetic.exactly (op : Arithmetic) (x y : Int) : Option Int :=
  match op with
  | add => some (x + y)
  | subtract => some (x - y)
  | multiply => some (x * y)
  | divide => if y = 0 then none else some (x.tdiv y)
  | other _ => none

/-- An operator on integers of 32 bits gives the exact result, wrapped. -/
theorem Arithmetic.onIntegers_some {op : Arithmetic} {x y : Int32} {n : Int}
    (h : op.exactly x.toInt y.toInt = some n) :
    ∃ w : Int32, op.onIntegers x y = .ok (.scalar (.integer w)) ∧
      w.toInt = n.bmod (2 ^ 32) := by
  cases op with
  | add =>
    cases h
    exact ⟨x + y, rfl, Int32.toInt_add x y⟩
  | subtract =>
    cases h
    exact ⟨x - y, rfl, Int32.toInt_sub x y⟩
  | multiply =>
    cases h
    exact ⟨x * y, rfl, Int32.toInt_mul x y⟩
  | divide =>
    unfold exactly at h
    dsimp only at h
    split at h
    · cases h
    · next hy =>
      cases h
      have hne : y ≠ 0 := fun he => hy (by rw [he]; rfl)
      exact ⟨x / y, if_neg hne, Int32.toInt_div x y⟩
  | other symbol => cases h

/-- Only a zero divisor keeps one of the four operators from a result. -/
theorem Arithmetic.exactly_eq_none_iff {op : Arithmetic}
    (known : ∀ symbol, op ≠ .other symbol) {x y : Int} :
    op.exactly x y = none ↔ op = .divide ∧ y = 0 := by
  cases op with
  | other symbol => exact absurd rfl (known symbol)
  | add | subtract | multiply => simp [exactly]
  | divide => simp [exactly]

/-- To divide by zero fails, and for no other reason. -/
theorem Arithmetic.onIntegers_zero {x y : Int32} (hy : y.toInt = 0) :
    Arithmetic.divide.onIntegers x y = .error .divisionByZero :=
  if_pos (Int32.toInt_inj.mp hy)

/-- Two integers are combined by the operator on integers. -/
theorem Value.combine_integers (op : Arithmetic) (x y : Int32) :
    Value.combine op (.scalar (.integer x)) (.scalar (.integer y)) = op.onIntegers x y := by
  unfold Value.combine
  simp [Value.isText, Value.isNumber]

/-! ## Trees -/

/-- An expression of integers: literals and variables, which have the integers given,
signs, and operators.  The reading of a variable needs so many levels and ticks of its
own. -/
inductive IntegerTree where
  | literal (n : Int32)
  | read (n : Int32) (height cost : Nat)
  | negate (operand : IntegerTree)
  | operate (op : Arithmetic) (left right : IntegerTree)

namespace IntegerTree

/-- How deep the evaluation is nested below the root. -/
def height : IntegerTree → Nat
  | literal _ => 0
  | read _ height _ => height
  | negate t => t.height + 1
  | operate _ left right => max left.height right.height + 1

/-- How many ticks the evaluation takes. -/
def cost : IntegerTree → Nat
  | literal _ => 1
  | read _ _ cost => cost + 1
  | negate t => t.cost + 1
  | operate _ left right => left.cost + right.cost + 1

/-- The integer of 32 bits: the result at each node is wrapped.  There is none if a
divisor is zero. -/
def words : IntegerTree → Option Int
  | literal n => some n.toInt
  | read n _ _ => some n.toInt
  | negate t => t.words.map fun x => (-x).bmod (2 ^ 32)
  | operate op left right => do
    let x ← left.words
    let y ← right.words
    (op.exactly x y).map fun n => n.bmod (2 ^ 32)

/-- The exact integer. -/
def exact : IntegerTree → Int
  | literal n => n.toInt
  | read n _ _ => n.toInt
  | negate t => -t.exact
  | operate op left right => (op.exactly left.exact right.exact).getD 0

/-- Whether a tree has no quotients. -/
def DivisionFree : IntegerTree → Prop
  | literal _ | read .. => True
  | negate t => t.DivisionFree
  | operate op left right => op ≠ .divide ∧ left.DivisionFree ∧ right.DivisionFree

/-- Whether the evaluation from left to right meets a divisor that is zero when
wrapped. -/
inductive MeetsZero : IntegerTree → Prop where
  | negate {t : IntegerTree} (operand : t.MeetsZero) : MeetsZero (.negate t)
  | left {op : Arithmetic} {left right : IntegerTree} (before : left.MeetsZero) :
      MeetsZero (.operate op left right)
  | right {op : Arithmetic} {left right : IntegerTree} {x : Int}
      (before : left.words = some x) (behind : right.MeetsZero) :
      MeetsZero (.operate op left right)
  | divisor {left right : IntegerTree} {x : Int} (before : left.words = some x)
      (zero : right.words = some 0) : MeetsZero (.operate .divide left right)

end IntegerTree

/-! ## Expressions that spell trees -/

/-- Whether a variable has an integer: it is read in so many ticks, unless fewer levels
are left than are needed. -/
structure IntegerValued (levels : Nat → Level) (scope : Option Nat) (m : Machine)
    (target : Occurrence) (n : Int32) (height cost : Nat) : Prop where
  reads : ∀ depth ticks, height ≤ depth → cost ≤ ticks →
    (levels depth).readVariable scope target { m with ticks } =
      .ok (.value (.scalar (.integer n))) { m with ticks := ticks - cost }
  deep : ∀ depth ticks, depth < height → cost ≤ ticks → ∃ m',
    (levels depth).readVariable scope target { m with ticks } =
      .error (.fault .tooDeep) m'

/-- Whether an expression spells a tree, given what its variables are on a machine. -/
inductive IntegerTree.Spelled (levels : Nat → Level) (scope : Option Nat) (m : Machine) :
    IntegerTree → Expr → Prop where
  | literal {n : Int32} : Spelled levels scope m (.literal n) (.literal (.scalar (.integer n)))
  | read {target : Occurrence} {n : Int32} {height cost : Nat}
      (has : IntegerValued levels scope m target n height cost) :
      Spelled levels scope m (.read n height cost) (.read target)
  | negate {symbol : String} {t : IntegerTree} {e : Expr}
      (operand : Spelled levels scope m t e) :
      Spelled levels scope m (.negate t) (.sign symbol e)
  | operate {op : Arithmetic} {left right : IntegerTree} {a b : Expr}
      (known : ∀ symbol, op ≠ .other symbol) (before : Spelled levels scope m left a)
      (behind : Spelled levels scope m right b) :
      Spelled levels scope m (.operate op left right) (.arithmetic op a b)

/-- Levels of which each evaluates with the help of the one below it. -/
structure Level.Stacked (levels : Nat → Level) : Prop where
  bottom : (levels 0).evaluate = fun _ _ => Exec.fail .tooDeep
  node : ∀ depth, (levels (depth + 1)).evaluate = (levels depth).evaluateNode

/-- The levels that evaluate expressions alone are a stack. -/
theorem Level.stacked_plain : Stacked plain := ⟨rfl, fun _ => rfl⟩

/-- So are those of a running program. -/
theorem Level.stacked_running (p : Program) : Stacked (running p) := ⟨rfl, fun _ => rfl⟩

/-! ## Evaluation -/

namespace IntegerTree

/-- How the evaluation of a tree may end: with the wrapped integer, if there is one and
the levels suffice; at a divisor that is zero; or too deep. -/
inductive Outcome (t : IntegerTree) (m : Machine) (depth ticks : Nat) :
    EStateM.Result Halt Machine Operand → Prop where
  | value {w : Int32} (words : t.words = some w.toInt) (shallow : t.height < depth) :
      Outcome t m depth ticks
        (.ok (.value (.scalar (.integer w))) { m with ticks := ticks - t.cost })
  | zero {m' : Machine} (words : t.words = none) :
      Outcome t m depth ticks (.error (.fault .divisionByZero) m')
  | deep {m' : Machine} (deep : depth ≤ t.height) :
      Outcome t m depth ticks (.error (.fault .tooDeep) m')

/-- What the operands of a node are combined to. -/
theorem outcome_operate {op : Arithmetic} {left right : IntegerTree} {m : Machine}
    {depth ticks : Nat} (known : ∀ symbol, op ≠ .other symbol) {x y : Int32}
    (hx : left.words = some x.toInt) (hy : right.words = some y.toInt)
    (hleft : left.height < depth) (hright : right.height < depth) :
    Outcome (.operate op left right) m (depth + 1) ticks
      ((do return Operand.value (← lift (Value.combine op (.scalar (.integer x))
        (.scalar (.integer y)))) : Exec Operand)
          { m with ticks := ticks - (operate op left right).cost }) := by
  rw [Value.combine_integers]
  cases hexact : op.exactly x.toInt y.toInt with
  | none =>
    obtain ⟨rfl, hzero⟩ := (Arithmetic.exactly_eq_none_iff known).mp hexact
    rw [Arithmetic.onIntegers_zero hzero]
    exact .zero (by simp [words, hx, hy, hexact])
  | some n =>
    obtain ⟨w, hw, hwrapped⟩ := Arithmetic.onIntegers_some hexact
    rw [hw]
    exact .value (by simp [words, hx, hy, hexact, hwrapped])
      (Nat.succ_lt_succ (Nat.max_lt.mpr ⟨hleft, hright⟩))

/-- Nothing is evaluated at the bottom, and a node above it takes the first tick. -/
theorem outcome_of_node {levels : Nat → Level} (hlevels : Level.Stacked levels)
    {scope : Option Nat} {m : Machine} {t : IntegerTree} {e : Expr} {depth ticks : Nat}
    (hticks : t.cost ≤ ticks)
    (hnode : ∀ depth ticks, t.cost ≤ ticks + 1 → Outcome t m (depth + 1) (ticks + 1)
      ((levels depth).evaluateNode scope e { m with ticks := ticks + 1 })) :
    Outcome t m depth ticks ((levels depth).evaluate scope e { m with ticks }) := by
  cases depth with
  | zero =>
    rw [hlevels.bottom]
    exact .deep (Nat.zero_le _)
  | succ depth =>
    have hpos : 0 < t.cost := by
      cases t with
      | literal _ => exact Nat.one_pos
      | read _ _ _ | negate _ | operate _ _ _ => exact Nat.succ_pos _
    obtain ⟨ticks, rfl⟩ := Nat.exists_eq_add_of_le' (Nat.lt_of_lt_of_le hpos hticks)
    rw [hlevels.node]
    exact hnode depth ticks hticks

/-- An expression that spells a tree is evaluated to the wrapped integer of the tree,
or fails at a zero divisor or too deep. -/
theorem evaluate_outcome {levels : Nat → Level} (hlevels : Level.Stacked levels)
    {scope : Option Nat} {m : Machine} {t : IntegerTree} {e : Expr}
    (h : t.Spelled levels scope m e) (depth : Nat) {ticks : Nat} (hticks : t.cost ≤ ticks) :
    Outcome t m depth ticks ((levels depth).evaluate scope e { m with ticks }) := by
  induction h generalizing depth ticks with
  | literal =>
    refine outcome_of_node hlevels hticks fun depth ticks _ => ?_
    exact .value rfl (Nat.succ_pos depth)
  | @read target n height cost has =>
    refine outcome_of_node hlevels hticks fun depth ticks hticks => ?_
    have hcost : cost ≤ ticks := Nat.le_of_succ_le_succ hticks
    change Outcome _ _ _ _ ((levels depth).readVariable scope target { m with ticks })
    by_cases hheight : height ≤ depth
    · rw [has.reads depth ticks hheight hcost, ← Nat.add_sub_add_right ticks 1 cost]
      exact .value rfl (Nat.lt_succ_of_le hheight)
    · obtain ⟨m', hdeep⟩ := has.deep depth ticks (Nat.lt_of_not_le hheight) hcost
      rw [hdeep]
      exact .deep (Nat.lt_of_not_le hheight)
  | @negate symbol t e operand ih =>
    refine outcome_of_node hlevels hticks fun depth ticks hticks => ?_
    have hoperand := ih depth (Nat.le_of_succ_le_succ hticks)
    change Outcome _ _ _ _ ((do
      let a ← (levels depth).evaluate scope e
      return Operand.value (← lift ((← reveal a).negate symbol)) : Exec Operand)
        { m with ticks })
    rw [bind_apply]
    generalize (levels depth).evaluate scope e { m with ticks } = r at hoperand ⊢
    cases hoperand with
    | zero hwords => exact .zero (by rw [words, hwords]; rfl)
    | deep hdeep => exact .deep (Nat.succ_le_succ hdeep)
    | @value w hwords hshallow =>
      dsimp only
      rw [← Nat.add_sub_add_right ticks 1 t.cost]
      exact .value (w := -w) (by rw [words, hwords, Int32.toInt_neg]; rfl)
        (Nat.succ_lt_succ hshallow)
  | @operate op left right a b known before behind ihleft ihright =>
    refine outcome_of_node hlevels hticks fun depth ticks hticks => ?_
    have hcosts : left.cost + right.cost ≤ ticks := Nat.le_of_succ_le_succ hticks
    have hleft := ihleft depth (Nat.le_trans (Nat.le_add_right ..) hcosts)
    have hright := ihright depth (Nat.le_sub_of_add_le' hcosts)
    change Outcome _ _ _ _ ((do
      let x ← (levels depth).evaluate scope a
      let y ← (levels depth).evaluate scope b
      return Operand.value (← lift (Value.combine op (← reveal x) (← reveal y)))
        : Exec Operand) { m with ticks })
    rw [bind_apply]
    generalize (levels depth).evaluate scope a { m with ticks } = r at hleft ⊢
    cases hleft with
    | zero hwords => exact .zero (by rw [words, hwords]; rfl)
    | deep hdeep =>
      exact .deep (Nat.succ_le_succ (Nat.le_trans hdeep (Nat.le_max_left ..)))
    | @value x hx hshallow =>
      -- the right operand is evaluated on what the left one left
      dsimp only
      rw [bind_apply]
      generalize (levels depth).evaluate scope b { m with ticks := ticks - left.cost } = r
        at hright ⊢
      cases hright with
      | zero hwords => exact .zero (by rw [words, hx, hwords]; rfl)
      | deep hdeep =>
        exact .deep (Nat.succ_le_succ (Nat.le_trans hdeep (Nat.le_max_right ..)))
      | @value y hy hshallow' =>
        dsimp only
        rw [Nat.sub_sub, ← Nat.add_sub_add_right ticks 1 (left.cost + right.cost)]
        exact outcome_operate known hx hy hshallow hshallow'

end IntegerTree

/-! ## Variables -/

namespace IntegerValued

variable {levels : Nat → Level} {id : Nat} {m : Machine} {target : Occurrence}
  {v : Variable} {n : Int32}

/-- To look up a variable that is there takes a tick and finds it. -/
theorem variableIn_apply (hv : m.environment.lookup id target.name = .ok v) (ticks : Nat) :
    variableIn id target { m with ticks := ticks + 1 } = .ok v { m with ticks } := by
  unfold variableIn
  rw [bind_apply, tick_of_succ rfl]
  dsimp only
  rw [get_bind_apply, hv]
  rfl

/-- A variable that holds an integer has it. -/
theorem of_held (hv : m.environment.lookup id target.name = .ok v)
    (hbinding : v.binding = some (.held (.value (.scalar (.integer n))))) :
    IntegerValued levels (some id) m target n 0 1 where
  reads depth ticks _ hticks := by
    obtain ⟨ticks, rfl⟩ := Nat.exists_eq_add_of_le' hticks
    unfold Level.readVariable
    dsimp only
    rw [bind_apply, variableIn_apply hv]
    dsimp only
    rw [hbinding]
    rfl
  deep depth _ hdepth _ := absurd hdepth (Nat.not_lt_zero depth)

/-- A variable that is bound to an expression has the integer of its tree. -/
theorem of_deferred (hlevels : Level.Stacked levels) {t : IntegerTree} {e : Expr}
    (hv : m.environment.lookup id target.name = .ok v)
    (hbinding : v.binding = some (.deferred e)) (h : t.Spelled levels (some id) m e)
    (hwords : t.words = some n.toInt) :
    IntegerValued levels (some id) m target n (t.height + 1) (t.cost + 1) := by
  have houtcome : ∀ depth ticks, t.cost ≤ ticks → t.Outcome m depth ticks
      ((levels depth).readVariable (some id) target { m with ticks := ticks + 1 }) := by
    intro depth ticks hticks
    unfold Level.readVariable
    dsimp only
    rw [bind_apply, variableIn_apply hv]
    dsimp only
    rw [hbinding]
    exact t.evaluate_outcome hlevels h depth hticks
  have hpositive : ∀ ticks, t.cost + 1 ≤ ticks → ∃ before, ticks = before + 1 := fun _ hticks =>
    Nat.exists_eq_add_of_le' (Nat.le_trans (Nat.le_add_left 1 _) hticks)
  constructor
  · intro depth ticks hheight hticks
    obtain ⟨ticks, rfl⟩ := hpositive ticks hticks
    have hread := houtcome depth ticks (Nat.le_of_succ_le_succ hticks)
    rw [Nat.add_sub_add_right]
    generalize (levels depth).readVariable (some id) target { m with ticks := ticks + 1 } = r
      at hread
    cases hread with
    | zero hnone => cases hwords.symm.trans hnone
    | deep hdeep => exact absurd hheight (Nat.not_le.mpr (Nat.lt_succ_of_le hdeep))
    | @value w hw _ =>
      rw [hwords, Option.some.injEq, Int32.toInt_inj] at hw
      rw [hw]
  · intro depth ticks hheight hticks
    obtain ⟨ticks, rfl⟩ := hpositive ticks hticks
    have hread := houtcome depth ticks (Nat.le_of_succ_le_succ hticks)
    generalize (levels depth).readVariable (some id) target { m with ticks := ticks + 1 } = r
      at hread
    cases hread with
    | zero hnone => cases hwords.symm.trans hnone
    | deep _ => exact ⟨_, rfl⟩
    | value _ hshallow => exact absurd hheight (Nat.not_lt.mpr hshallow)

end IntegerValued

/-! ## What the wrapped integer is -/

namespace IntegerTree

variable {levels : Nat → Level} {scope : Option Nat} {m : Machine} {t : IntegerTree}
  {e : Expr}

/-- The wrapped integer of a node is the wrapped result for those of its operands. -/
theorem words_operate {op : Arithmetic} {left right : IntegerTree} {x y : Int}
    (hx : left.words = some x) (hy : right.words = some y) :
    (operate op left right).words = (op.exactly x y).map fun n => n.bmod (2 ^ 32) := by
  rw [words, hx, hy]
  rfl

/-- There is no integer only if a divisor is met that is zero. -/
theorem words_eq_none_iff (h : t.Spelled levels scope m e) :
    t.words = none ↔ t.MeetsZero := by
  induction h with
  | literal => exact ⟨nofun, nofun⟩
  | read _ => exact ⟨nofun, nofun⟩
  | negate _ ih =>
    rw [words, Option.map_eq_none_iff, ih]
    exact ⟨.negate, fun (.negate hoperand) => hoperand⟩
  | @operate op left right a b known _ _ ihleft ihright =>
    constructor
    · intro hnone
      cases hx : left.words with
      | none => exact .left (ihleft.mp hx)
      | some x =>
        cases hy : right.words with
        | none => exact .right hx (ihright.mp hy)
        | some y =>
          rw [words_operate hx hy, Option.map_eq_none_iff,
            Arithmetic.exactly_eq_none_iff known] at hnone
          obtain ⟨rfl, rfl⟩ := hnone
          exact .divisor hx hy
    · intro hzero
      cases hzero with
      | left hleft => rw [words, ihleft.mpr hleft]; rfl
      | right hx hright => rw [words, hx, ihright.mpr hright]; rfl
      | divisor hx hy => rw [words_operate hx hy]; rfl

/-- The wrapped integer has 32 bits. -/
theorem words_range {x : Int} (h : t.words = some x) :
    -2147483648 ≤ x ∧ x ≤ 2147483647 := by
  have hword : ∀ n : Int32, -2147483648 ≤ n.toInt ∧ n.toInt ≤ 2147483647 := fun n =>
    ⟨Int32.le_toInt n, Int.le_of_lt_add_one (Int32.toInt_lt n)⟩
  have hwrapped : ∀ n : Int,
      -2147483648 ≤ n.bmod (2 ^ 32) ∧ n.bmod (2 ^ 32) ≤ 2147483647 := fun n =>
    ⟨Int.le_bmod (by decide), Int.le_of_lt_add_one (Int.bmod_lt (by decide))⟩
  cases t with
  | literal n | read n _ _ =>
    cases h
    exact hword n
  | negate t =>
    rw [words, Option.map_eq_some_iff] at h
    obtain ⟨n, -, rfl⟩ := h
    exact hwrapped (-n)
  | operate op left right =>
    simp only [words, Option.bind_eq_bind, Option.bind_eq_some_iff,
      Option.map_eq_some_iff] at h
    obtain ⟨_, _, _, _, n, _, rfl⟩ := h
    exact hwrapped n

/-- Without quotients the wrapped integer is the exact one modulo 2^32. -/
theorem words_modEq (h : t.Spelled levels scope m e) (hfree : t.DivisionFree) :
    ∃ x, t.words = some x ∧ x ≡ t.exact [ZMOD 2 ^ 32] := by
  have hwrap : ∀ n : Int, n.bmod (2 ^ 32) ≡ n [ZMOD 2 ^ 32] := fun n => Int.bmod_emod
  induction h with
  | literal => exact ⟨_, rfl, rfl⟩
  | read _ => exact ⟨_, rfl, rfl⟩
  | negate _ ih =>
    obtain ⟨x, hx, hcongr⟩ := ih hfree
    exact ⟨_, by rw [words, hx]; rfl, (hwrap (-x)).trans hcongr.neg⟩
  | @operate op left right a b known _ _ ihleft ihright =>
    obtain ⟨hop, hfreeleft, hfreeright⟩ := hfree
    obtain ⟨x, hx, hleft⟩ := ihleft hfreeleft
    obtain ⟨y, hy, hright⟩ := ihright hfreeright
    rw [words_operate hx hy]
    cases op with
    | add => exact ⟨_, rfl, (hwrap _).trans (hleft.add hright)⟩
    | subtract => exact ⟨_, rfl, (hwrap _).trans (hleft.sub hright)⟩
    | multiply => exact ⟨_, rfl, (hwrap _).trans (hleft.mul hright)⟩
    | divide => exact absurd rfl hop
    | other symbol => exact absurd rfl (known symbol)

/-- Two integers of 32 bits that agree modulo 2^32 are the same. -/
theorem eq_of_modEq {x y : Int} (hx : -2147483648 ≤ x ∧ x ≤ 2147483647)
    (hy : -2147483648 ≤ y ∧ y ≤ 2147483647) (h : x ≡ y [ZMOD 2 ^ 32]) : x = y := by
  have hsame : x % 4294967296 = y % 4294967296 := h
  omega

/-- A quotient leaves 32 bits only if the least integer is divided by -1. -/
theorem tdiv_range {x y : Int} (hx : -2147483648 ≤ x ∧ x ≤ 2147483647) (hy : y ≠ 0)
    (hwraps : ¬(x = -2147483648 ∧ y = -1)) :
    -2147483648 ≤ x.tdiv y ∧ x.tdiv y ≤ 2147483647 := by
  have hsize : (x.tdiv y).natAbs = x.natAbs / y.natAbs := Int.natAbs_tdiv x y
  by_cases hone : y.natAbs = 1
  · obtain rfl | rfl := Int.natAbs_eq_iff.mp hone
    · rw [Int.natCast_one, Int.tdiv_one]
      exact hx
    · rw [Int.natCast_one, Int.tdiv_neg, Int.tdiv_one]
      omega
  · -- divided by two or more, what is left has at most half the size
    have hhalf : x.natAbs / y.natAbs ≤ x.natAbs / 2 :=
      Nat.div_le_div_left (by omega) (by decide)
    omega

/-- A quotient is cut towards zero, and only the least integer divided by -1 wraps. -/
theorem words_quotient {left right : IntegerTree} {x y : Int} (hx : left.words = some x)
    (hy : right.words = some y) (hne : y ≠ 0) :
    ∃ q, (operate .divide left right).words = some q ∧
      (x = -2147483648 ∧ y = -1 → q = -2147483648) ∧
      (¬(x = -2147483648 ∧ y = -1) → ∃ r, q * y + r = x ∧ r.natAbs < y.natAbs ∧
        (r = 0 ∨ r.sign = x.sign)) := by
  refine ⟨(x.tdiv y).bmod (2 ^ 32), ?_, ?_, fun hwraps => ⟨x.tmod y, ?_, ?_, ?_⟩⟩
  · rw [words_operate hx hy, Arithmetic.exactly, if_neg hne]
    rfl
  · rintro ⟨rfl, rfl⟩
    decide
  · obtain ⟨hleast, hgreatest⟩ := tdiv_range (words_range hx) hne hwraps
    rw [Int.bmod_eq_of_le hleast (Int.lt_add_one_of_le hgreatest)]
    exact Int.tdiv_mul_add_tmod x y
  · rw [Int.natAbs_tmod]
    exact Nat.mod_lt _ (Int.natAbs_pos.mpr hne)
  · rw [← Int.sign_eq_zero_iff_zero, Int.sign_tmod]
    split
    · exact .inl rfl
    · exact .inr rfl

/-- Where nothing is divided no divisor is zero. -/
theorem DivisionFree.not_meetsZero (hfree : t.DivisionFree) : ¬ t.MeetsZero := by
  intro hzero
  induction hzero with
  | negate _ ih => exact ih hfree
  | left _ ih => exact ih hfree.2.1
  | right _ _ ih => exact ih hfree.2.2
  | divisor _ _ => exact hfree.1 rfl

end IntegerTree

/-! ## The evaluator -/

/-- Integer expressions compute modulo 2^32, in expressions alone and in a running
program.  If the levels suffice, the result is the integer that is wrapped at every
node; without quotients it is the only one of 32 bits that agrees with the exact integer
modulo 2^32; and the evaluation fails just if it meets a divisor that is zero.  If they
do not suffice, it fails there or too deep.  A quotient is cut towards zero, and only
the least integer divided by -1 wraps. -/
theorem integers_wrap {levels : Nat → Level}
    (hlevels : levels = Level.plain ∨ ∃ p, levels = Level.running p)
    {scope : Option Nat} {m : Machine} {t : IntegerTree} {e : Expr}
    (h : t.Spelled levels scope m e) (depth : Nat) (hticks : t.cost ≤ m.ticks) :
    (t.height < depth → ¬ t.MeetsZero → ∃ w : Int32,
      (levels depth).evaluate scope e m =
          .ok (.value (.scalar (.integer w))) { m with ticks := m.ticks - t.cost } ∧
        t.words = some w.toInt ∧
        (t.DivisionFree → w.toInt ≡ t.exact [ZMOD 2 ^ 32] ∧
          ∀ k, -2147483648 ≤ k ∧ k ≤ 2147483647 → k ≡ t.exact [ZMOD 2 ^ 32] →
            k = w.toInt)) ∧
      (t.height < depth → (t.MeetsZero ↔
        ∃ m', (levels depth).evaluate scope e m = .error (.fault .divisionByZero) m')) ∧
      (depth ≤ t.height → ∃ m',
        (levels depth).evaluate scope e m = .error (.fault .tooDeep) m' ∨
          t.MeetsZero ∧
            (levels depth).evaluate scope e m = .error (.fault .divisionByZero) m') ∧
      (t.DivisionFree → ¬ t.MeetsZero) ∧
      ∀ (left right : IntegerTree) (x y : Int), left.words = some x →
        right.words = some y → y ≠ 0 →
          ∃ q, (IntegerTree.operate .divide left right).words = some q ∧
            (x = -2147483648 ∧ y = -1 → q = -2147483648) ∧
            (¬(x = -2147483648 ∧ y = -1) → ∃ r, q * y + r = x ∧ r.natAbs < y.natAbs ∧
              (r = 0 ∨ r.sign = x.sign)) := by
  have hstacked : Level.Stacked levels := by
    obtain rfl | ⟨p, rfl⟩ := hlevels
    · exact Level.stacked_plain
    · exact Level.stacked_running p
  have hnone := IntegerTree.words_eq_none_iff h
  have houtcome := t.evaluate_outcome hstacked h depth hticks
  generalize (levels depth).evaluate scope e { m with ticks := m.ticks } = r at houtcome ⊢
  refine ⟨fun hshallow hzero => ?_, fun hshallow => ?_, fun hdeep => ?_,
    IntegerTree.DivisionFree.not_meetsZero, fun _ _ _ _ => IntegerTree.words_quotient⟩
  · cases houtcome with
    | zero hwords => exact absurd (hnone.mp hwords) hzero
    | deep hdeep => exact absurd hshallow (Nat.not_lt.mpr hdeep)
    | @value w hwords _ =>
      refine ⟨w, rfl, hwords, fun hfree => ?_⟩
      obtain ⟨x, hx, hcongr⟩ := IntegerTree.words_modEq h hfree
      obtain rfl : w.toInt = x := Option.some.inj (hwords.symm.trans hx)
      exact ⟨hcongr, fun k hk hsame => IntegerTree.eq_of_modEq hk
        (IntegerTree.words_range hwords) (hsame.trans hcongr.symm)⟩
  · cases houtcome with
    | zero hwords => exact iff_of_true (hnone.mp hwords) ⟨_, rfl⟩
    | deep hdeep => exact absurd hshallow (Nat.not_lt.mpr hdeep)
    | value hwords _ =>
      refine iff_of_false (fun hzero => ?_) (fun ⟨_, hfails⟩ => nomatch hfails)
      cases hwords.symm.trans (hnone.mpr hzero)
  · cases houtcome with
    | zero hwords => exact ⟨_, .inr ⟨hnone.mp hwords, rfl⟩⟩
    | deep _ => exact ⟨_, .inl rfl⟩
    | value _ hshallow => exact absurd hshallow (Nat.not_lt.mpr hdeep)

/-- A machine with a variable `x` that holds the greatest integer, and with a variable
`y` that is bound to `x + 1`. -/
def Machine.overflowing : Machine where
  environment.scopes := #[⟨"", [], { Variables.empty with entries :=
    [("x", ⟨⟨.integer, none⟩, some (.held (.value (.scalar (.integer 2147483647))))⟩),
      ("y", ⟨⟨.integer, none⟩, some (.deferred
        (.arithmetic .add (.read "x") (.literal (.scalar (.integer 1)))))⟩)] }⟩]
  ticks := 100

/-- `y / -1` wraps twice: to the least integer, and to it again. -/
theorem integers_wrap_twice : ∃ m',
    (Level.plain 10).evaluate (some 0) (.arithmetic .divide (.read "y")
        (.sign "-" (.literal (.scalar (.integer 1))))) .overflowing =
      .ok (.value (.scalar (.integer Int32.minValue))) m' := by
  have hx : IntegerValued Level.plain (some 0) .overflowing "x" 2147483647 0 1 :=
    .of_held rfl rfl
  have hsum : IntegerTree.Spelled Level.plain (some 0) .overflowing
      (.operate .add (.read 2147483647 0 1) (.literal 1))
      (.arithmetic .add (.read "x") (.literal (.scalar (.integer 1)))) :=
    .operate nofun (.read hx) .literal
  have hy : IntegerValued Level.plain (some 0) .overflowing "y" Int32.minValue 2 5 :=
    .of_deferred Level.stacked_plain rfl rfl hsum (by decide)
  have hquotient : IntegerTree.Spelled Level.plain (some 0) .overflowing
      (.operate .divide (.read Int32.minValue 2 5) (.negate (.literal 1)))
      (.arithmetic .divide (.read "y") (.sign "-" (.literal (.scalar (.integer 1))))) :=
    .operate nofun (.read hy) (.negate .literal)
  have hwords : (IntegerTree.operate .divide (.read Int32.minValue 2 5)
      (.negate (.literal 1))).words = some Int32.minValue.toInt := by
    decide
  have hzero := mt (IntegerTree.words_eq_none_iff hquotient).mpr (by rw [hwords]; nofun)
  obtain ⟨w, heval, hw, -⟩ :=
    (integers_wrap (.inl rfl) hquotient 10 (by decide)).1 (by decide) hzero
  obtain rfl : w = Int32.minValue :=
    Int32.toInt_inj.mp (Option.some.inj (hw.symm.trans hwords))
  exact ⟨_, heval⟩

/-! ## Trees that are too deep -/

namespace IntegerTree

/-- A sum of ones, added one after the other. -/
def ones : Nat → IntegerTree
  | 0 => literal 1
  | n + 1 => operate .add (ones n) (literal 1)

end IntegerTree

/-- The expression `1 + 1 + … + 1` with so many operators. -/
def Expr.ones : Nat → Expr
  | 0 => .literal (.scalar (.integer 1))
  | n + 1 => .arithmetic .add (ones n) (.literal (.scalar (.integer 1)))

namespace IntegerTree

/-- The expression `1 + 1 + … + 1` spells a tree. -/
theorem spelled_ones (levels : Nat → Level) (scope : Option Nat) (m : Machine) :
    ∀ n, (ones n).Spelled levels scope m (Expr.ones n)
  | 0 => .literal
  | n + 1 => .operate nofun (spelled_ones levels scope m n) .literal

/-- What a sum of ones is, and how deep and long its evaluation. -/
theorem ones_measures : ∀ n, (ones n).exact = n + 1 ∧ (ones n).DivisionFree ∧
    (ones n).height = n ∧ (ones n).cost = 2 * n + 1
  | 0 => ⟨rfl, trivial, rfl, rfl⟩
  | n + 1 => by
    obtain ⟨hexact, hfree, hheight, hcost⟩ := ones_measures n
    refine ⟨?_, ⟨nofun, hfree, trivial⟩, ?_, ?_⟩
    · show (ones n).exact + 1 = _
      rw [hexact]
      rfl
    · show max (ones n).height 0 + 1 = _
      rw [hheight, Nat.max_zero]
    · show (ones n).cost + 1 + 1 = _
      omega

end IntegerTree

/-- A sum of 2000 ones is an integer expression of 2000, but too deep to be
evaluated. -/
theorem sum_too_deep :
    (IntegerTree.ones 1999).Spelled Level.plain none {} (Expr.ones 1999) ∧
      (IntegerTree.ones 1999).DivisionFree ∧ (IntegerTree.ones 1999).exact = 2000 ∧
      ({} : Machine).evaluate none (Expr.ones 1999) = .error (.fault .tooDeep) := by
  have hspelled := IntegerTree.spelled_ones Level.plain none {} 1999
  obtain ⟨hexact, hfree, hheight, hcost⟩ := IntegerTree.ones_measures 1999
  refine ⟨hspelled, hfree, hexact, ?_⟩
  have hticks : (IntegerTree.ones 1999).cost ≤ Machine.allotment := by
    rw [hcost]
    decide
  have houtcome :=
    IntegerTree.evaluate_outcome Level.stacked_plain hspelled levelLimit hticks
  unfold Machine.evaluate
  dsimp only
  rw [bind_apply]
  generalize (Level.plain levelLimit).evaluate none (Expr.ones 1999)
    { ({} : Machine) with ticks := Machine.allotment } = r at houtcome ⊢
  cases houtcome with
  | zero hwords =>
    exact absurd ((IntegerTree.words_eq_none_iff hspelled).mp hwords) hfree.not_meetsZero
  | deep _ => rfl
  | value _ hshallow =>
    rw [hheight] at hshallow
    exact absurd hshallow (by decide)

end Pseudocode
