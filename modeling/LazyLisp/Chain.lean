/-!
# Chains of cells

A finite list, as programs take it apart, is either the empty list or a
chain of cells. A cell holds an element and, unless it is the last one, the
cells after it. Nothing in the type keeps a chain from going on into the
empty list; that no such chain is ever built is the property `Ended`.

## Main results

* `toList_ofList` — a list is kept by the chain built from it.
* `ended_ofList` — a chain built from a list ends in a last cell.
* `Ended.tail?_eq_none_iff` — nothing follows the first cell of a chain that
  ends in a last cell exactly if it has at most one element.
-/

namespace LazyLisp

/-- A finite list of elements in cells. -/
inductive Chain (α : Type) where
  /-- The list without elements. -/
  | empty
  /-- A cell with nothing after it. -/
  | last (head : α)
  /-- A cell with a chain after it. -/
  | cell (head : α) (tail : Chain α)
deriving Inhabited

namespace Chain

variable {α : Type}

/-- Whether the chain is the empty list. -/
def isEmpty : Chain α → Bool
  | empty => true
  | last _ | cell _ _ => false

/-- The first element. -/
def head? : Chain α → Option α
  | empty => none
  | last head | cell head _ => some head

/-- What follows the first cell; nothing if that is the last one. -/
def tail? : Chain α → Option (Chain α)
  | empty | last _ => none
  | cell _ tail => some tail

/-- The elements in order. -/
def toList : Chain α → List α
  | empty => []
  | last head => [head]
  | cell head tail => head :: tail.toList

/-- The chain of these elements. -/
def ofList : List α → Chain α
  | [] => empty
  | [head] => last head
  | head :: rest => cell head (ofList rest)

@[simp] theorem toList_empty : (empty : Chain α).toList = [] := rfl

@[simp] theorem toList_last (head : α) : (last head).toList = [head] := rfl

@[simp] theorem toList_cell (head : α) (tail : Chain α) :
    (cell head tail).toList = head :: tail.toList := rfl

/-- A list is kept by the chain that is built from it. -/
@[simp] theorem toList_ofList (items : List α) : (ofList items).toList = items := by
  induction items with
  | nil => rfl
  | cons head rest ih =>
      cases rest with
      | nil => rfl
      | cons next more => rw [ofList, toList_cell, ih]; exact fun h => by cases h

/-- No cell has the empty list after it, so the chain is the empty list
itself or ends in a last cell. -/
def Ended : Chain α → Prop
  | empty | last _ => True
  | cell _ tail => tail.isEmpty = false ∧ tail.Ended

private theorem isEmpty_ofList_cons (head : α) (rest : List α) :
    (ofList (head :: rest)).isEmpty = false := by
  cases rest <;> rfl

theorem ended_ofList (items : List α) : (ofList items).Ended := by
  induction items with
  | nil => exact trivial
  | cons head rest ih =>
      cases rest with
      | nil => exact trivial
      | cons next more => exact ⟨isEmpty_ofList_cons next more, ih⟩

private theorem isEmpty_eq_false_iff {chain : Chain α} :
    chain.isEmpty = false ↔ 0 < chain.toList.length := by
  cases chain <;> simp [isEmpty, toList]

/-- In a chain that ends in a last cell, nothing follows the first cell
exactly if there is at most one element. -/
theorem Ended.tail?_eq_none_iff {chain : Chain α} (h : chain.Ended) :
    chain.tail? = none ↔ chain.toList.length ≤ 1 := by
  cases chain with
  | empty => simp [tail?]
  | last head => simp [tail?]
  | cell head tail =>
      have := isEmpty_eq_false_iff.mp h.1
      simp only [tail?, toList_cell, List.length_cons, reduceCtorEq, false_iff]
      omega

/-- What follows the first cell of such a chain has elements. -/
theorem Ended.isEmpty_tail {chain rest : Chain α} (h : chain.Ended)
    (htail : chain.tail? = some rest) : rest.isEmpty = false := by
  cases chain with
  | empty => cases htail
  | last head => cases htail
  | cell head tail =>
      cases htail
      exact h.1

end Chain

end LazyLisp
