import Pseudocode.Program
import Pseudocode.Proofs.Tree

/-!
# What there is in trees

`Tree.found` looks through trees, in the order in which the operators are written, and
collects something that some operators have: a variable, or the number of a function.
It can stop at certain operators; the variables of a module are found without a look
into functions.

It is defined over the list of all parts, a list for each tree in turn, and has an equation
for the first tree of a row (`found_cons`): the operator's own, then what is nested in it,
then what the rest of the row has.  Whatever is shown of what is found goes by that
equation, and nothing else unfolds the traversal.

Functions and classes get their numbers in that same order.  `Numbered` says so of a
list that grows while trees are looked through, and growing twice is growing once
(`Numbered.trans`), so that the numbers found in a whole program are those from zero on
(`Numbered.range`).
-/

namespace Pseudocode

namespace Tree

variable {α β : Type}

mutual

/-- The trees in a tree: the tree itself, what is nested in its operator, and the further
branches.  Of a closed operator there is the operator alone. -/
def parts (closed : α → Bool) : Tree α → List (Tree α)
  | .node operator nested alternatives fallback =>
    .node operator nested alternatives fallback ::
      if closed operator then []
      else partsOf closed nested ++ partsOf closed alternatives ++ partsOfLast closed fallback

/-- The trees in a row of trees. -/
def partsOf (closed : α → Bool) : List (Tree α) → List (Tree α)
  | [] => []
  | tree :: trees => tree.parts closed ++ partsOf closed trees

/-- The trees in a last branch. -/
def partsOfLast (closed : α → Bool) : Option (Tree α) → List (Tree α)
  | none => []
  | some tree => tree.parts closed

end

/-- All the trees in a row of trees. -/
abbrev all (trees : List (Tree α)) : List (Tree α) := partsOf (fun _ => false) trees

/-- What the operators in a row of trees have, in order. -/
def found (closed : α → Bool) (get : α → Option β) (trees : List (Tree α)) : List β :=
  (partsOf closed trees).filterMap fun part => get part.operator

section

variable {closed : α → Bool} {get : α → Option β}

/-- The parts of a row are those of its trees, one after the other. -/
theorem partsOf_append (trees more : List (Tree α)) :
    partsOf closed (trees ++ more) = partsOf closed trees ++ partsOf closed more := by
  induction trees with
  | nil => rfl
  | cons tree trees ih => rw [List.cons_append, partsOf, ih, partsOf, List.append_assoc]

/-- The parts of a row are its first tree, what is nested in that, and those of the rest. -/
theorem partsOf_node (operator : α) (nested alternatives : List (Tree α))
    (fallback : Option (Tree α)) (trees : List (Tree α)) :
    partsOf closed (.node operator nested alternatives fallback :: trees) =
      .node operator nested alternatives fallback ::
        ((if closed operator then []
          else partsOf closed (nested ++ alternatives ++ fallback.toList)) ++
        partsOf closed trees) := by
  have hlast : partsOfLast closed fallback = partsOf closed fallback.toList := by
    cases fallback with
    | none => rfl
    | some tree => exact (List.append_nil _).symm
  rw [partsOf, parts, hlast, partsOf_append, partsOf_append]
  rfl

/-- In no trees nothing is found. -/
@[simp] theorem found_nil : found closed get [] = [] := rfl

/-- In a row is found what its first operator has, what is nested in it, and what follows. -/
theorem found_cons (operator : α) (nested alternatives : List (Tree α))
    (fallback : Option (Tree α)) (trees : List (Tree α)) :
    found closed get (.node operator nested alternatives fallback :: trees) =
      (get operator).toList ++
        ((if closed operator then []
          else found closed get (nested ++ alternatives ++ fallback.toList)) ++
        found closed get trees) := by
  unfold found
  rw [partsOf_node, List.filterMap_cons, Tree.operator, List.filterMap_append,
    apply_ite (List.filterMap _), List.filterMap_nil]
  cases get operator <;> rfl

/-- Nothing is found if no part has anything. -/
theorem found_eq_nil {trees : List (Tree α)}
    (h : ∀ part ∈ partsOf closed trees, get part.operator = none) :
    found closed get trees = [] :=
  List.filterMap_eq_nil_iff.mpr h

end

/-- A part of a row is its first tree, nested in that, or a part of the rest. -/
theorem mem_all_cons {operator : α} {nested alternatives trees : List (Tree α)}
    {fallback : Option (Tree α)} {part : Tree α} :
    part ∈ all (.node operator nested alternatives fallback :: trees) ↔
      part = .node operator nested alternatives fallback ∨
        part ∈ all (nested ++ alternatives ++ fallback.toList) ∨ part ∈ all trees := by
  unfold all
  rw [partsOf_node, List.mem_cons, List.mem_append]
  rfl

/-- What there is to look through where there are no further branches. -/
theorem nested_alone (nested : List (Tree α)) :
    nested ++ [] ++ Option.toList none = nested := by
  rw [List.append_nil, Option.toList_none, List.append_nil]

end Tree

namespace Operator

/-- The variable that an operator declares. -/
def declared? : Operator → Option (String × Variable)
  | .declaration type name initial => some (name, ⟨type, initial.map .deferred⟩)
  | _ => none

/-- The function that an operator is, with its number. -/
def function? : Operator → Option (String × Nat)
  | .function name number => some (name, number)
  | _ => none

/-- The method that an operator is, with its number. -/
def method? : Operator → Option (String × Nat)
  | .method name number => some (name, number)
  | _ => none

/-- The function or method that an operator is, with its number. -/
def code? (operator : Operator) : Option (String × Nat) :=
  operator.function?.or operator.method?

/-- The class that an operator is, with its number. -/
def class? : Operator → Option (String × Nat)
  | .classDeclaration name number => some (name, number)
  | _ => none

/-- Whether an operator is a function or a method. -/
def hasCode (operator : Operator) : Bool := operator.code?.isSome

end Operator

namespace Tree

/-- The numbers that the operators in a row of trees have. -/
def numbers (get : Operator → Option (String × Nat)) (trees : List (Tree Operator)) :
    List Nat :=
  (found (fun _ => false) get trees).map Prod.snd

variable {get : Operator → Option (String × Nat)} {trees : List (Tree Operator)}

/-- The numbers found in a row are the first operator's, and then those of the rest. -/
theorem numbers_cons (operator : Operator) (nested alternatives : List (Tree Operator))
    (fallback : Option (Tree Operator)) :
    numbers get (.node operator nested alternatives fallback :: trees) =
      ((get operator).map Prod.snd).toList ++
        (numbers get (nested ++ alternatives ++ fallback.toList) ++
          numbers get trees) := by
  unfold numbers
  rw [found_cons, List.map_append, List.map_append]
  cases get operator <;> rfl

/-- No numbers are found if no part has one. -/
theorem numbers_eq_nil (h : ∀ part ∈ all trees, get part.operator = none) :
    numbers get trees = [] :=
  List.map_eq_nil_iff.mpr (found_eq_nil h)

/-- A number that is found is that of a part. -/
theorem mem_numbers {n : Nat} : n ∈ numbers get trees ↔
    ∃ part ∈ all trees, ∃ name, get part.operator = some (name, n) := by
  unfold numbers found
  rw [List.mem_map]
  constructor
  · rintro ⟨⟨name, number⟩, hentry, rfl⟩
    obtain ⟨part, hpart, hget⟩ := List.mem_filterMap.mp hentry
    exact ⟨part, hpart, name, hget⟩
  · rintro ⟨part, hpart, name, hget⟩
    exact ⟨(name, n), List.mem_filterMap.mpr ⟨part, hpart, hget⟩, rfl⟩

end Tree

/-- Items to which more are added, under the numbers that come next. -/
def Numbered {α : Type} (items : List α) (numbers : List Nat) (items' : List α) : Prop :=
  ∃ added, items' = items ++ added ∧ numbers = List.range' items.length added.length

namespace Numbered

variable {α : Type} {items items₁ items' : List α} {numbers numbers' : List Nat}

/-- Nothing is added, and nothing is numbered. -/
theorem same (items : List α) : Numbered items [] items :=
  ⟨[], (List.append_nil items).symm, rfl⟩

/-- One item is added, and has the next number. -/
theorem one (items : List α) (item : α) :
    Numbered items [items.length] (items ++ [item]) :=
  ⟨[item], rfl, rfl⟩

/-- What is added behind what was added is numbered on. -/
theorem trans (h : Numbered items numbers items₁) (h' : Numbered items₁ numbers' items') :
    Numbered items (numbers ++ numbers') items' := by
  obtain ⟨added, rfl, rfl⟩ := h
  obtain ⟨added', rfl, rfl⟩ := h'
  refine ⟨added ++ added', List.append_assoc .., ?_⟩
  rw [List.length_append, List.length_append, List.range'_append_1]

/-- What is numbered from nothing on has the numbers from zero on. -/
theorem range (h : Numbered [] numbers items) : numbers = List.range items.length := by
  obtain ⟨added, rfl, rfl⟩ := h
  exact List.range_eq_range'.symm

/-- An item stays under its number. -/
theorem getElem? (h : Numbered items numbers items') {n : Nat} {item : α}
    (hitem : items[n]? = some item) : items'[n]? = some item := by
  obtain ⟨added, rfl, -⟩ := h
  rw [List.getElem?_append_left (List.getElem?_eq_some_iff.mp hitem).1, hitem]

end Numbered

end Pseudocode
