/-!
# Nested lists

A `Tree` is a leaf or a list of trees: the shape that sequences and repetitions give to what they
collect. Flattening a list of trees reads their leaves from left to right, and forgets how they were
nested.
-/

namespace Descent

/-- A leaf, or a list of trees. -/
inductive Tree (α : Type) : Type
  | leaf (a : α)
  | list (items : List (Tree α))
deriving Repr

namespace Tree

variable {α β : Type}

mutual

/-- The leaves of a tree, from left to right. -/
def leaves : Tree α → List α
  | leaf a => [a]
  | list items => flatten items

/-- The leaves of trees, from left to right. -/
def flatten : List (Tree α) → List α
  | [] => []
  | t :: ts => leaves t ++ flatten ts

end

mutual

/-- Whether two trees have the same shape and leaves that agree. -/
def agree (same : α → β → Bool) : Tree α → Tree β → Bool
  | leaf a, leaf b => same a b
  | list xs, list ys => agreeAll same xs ys
  | _, _ => false

/-- Whether two lists of trees agree, item by item. -/
def agreeAll (same : α → β → Bool) : List (Tree α) → List (Tree β) → Bool
  | [], [] => true
  | x :: xs, y :: ys => agree same x y && agreeAll same xs ys
  | _, _ => false

end

@[simp] theorem leaves_leaf (a : α) : leaves (leaf a) = [a] := by rw [leaves]

@[simp] theorem leaves_list (items : List (Tree α)) : leaves (list items) = flatten items := by
  rw [leaves]

@[simp] theorem flatten_nil : flatten ([] : List (Tree α)) = [] := by rw [flatten]

@[simp] theorem flatten_cons (t : Tree α) (ts : List (Tree α)) :
    flatten (t :: ts) = leaves t ++ flatten ts := by rw [flatten]

theorem flatten_eq_flatMap (ts : List (Tree α)) : flatten ts = ts.flatMap leaves := by
  induction ts with
  | nil => simp
  | cons t ts ih => simp [ih]

/-- A list of leaves is already flat. -/
theorem flatten_map_leaf (as : List α) : flatten (as.map leaf) = as := by
  induction as with
  | nil => simp
  | cons a as ih => simp [ih]

end Tree

end Descent
