/-!
# Places in a text

Two kinds of place are told apart.

* A `SourcePosition` is where a character stands: its line and its column, both counted from one.
  The type holds no other numbers, so a position that the tokenizer hands out needs no second check.
  Positions are ordered as one reads: by line, then by column.
* An `ErrorPosition` is where a parse failed: the line and the column that are shown to the reader,
  and the index of the token that the parse had reached. Only the index says which of two failures
  got further; line and column are carried for display and may be any integers.

Numbers that come from outside enter through `SourcePosition.ofInts` and `ErrorPosition.ofInts`,
which refuse what the types cannot hold.
-/

namespace Descent

/-- Why two or three integers are not a position. -/
inductive PositionError
  /-- A line or a column below one. -/
  | notOneBased
  /-- A token index below zero. -/
  | negativeIndex
deriving DecidableEq, Repr

namespace PositionError

/-- The words shown for a refused position. -/
def message : PositionError → String
  | notOneBased => "SourcePosition line and column are 1-based"
  | negativeIndex => "ErrorPosition token index cannot be negative"

end PositionError

/-! ### Where a character stands -/

/-- The line and the column of a character, both counted from one. -/
structure SourcePosition where
  line : Nat
  column : Nat
  one_le_line : 1 ≤ line := by omega
  one_le_column : 1 ≤ column := by omega
deriving DecidableEq, Repr

namespace SourcePosition

/-- The place of the first character of every text. -/
def start : SourcePosition := { line := 1, column := 1 }

/-- The place one column to the right. -/
def nextColumn (p : SourcePosition) : SourcePosition :=
  { line := p.line, column := p.column + 1, one_le_line := p.one_le_line }

/-- The place at which the following line begins. -/
def nextLine (p : SourcePosition) : SourcePosition :=
  { line := p.line + 1, column := 1 }

/-- Accepts a line and a column that are both at least one. -/
def ofInts (line column : Int) : Except PositionError SourcePosition :=
  if h : 1 ≤ line ∧ 1 ≤ column then
    .ok { line := line.toNat, column := column.toNat }
  else
    .error .notOneBased

/-- Reading order: an earlier line first, and on one line a smaller column first. -/
instance : LT SourcePosition where
  lt p q := p.line < q.line ∨ p.line = q.line ∧ p.column < q.column

instance : LE SourcePosition where
  le p q := p < q ∨ p = q

instance (p q : SourcePosition) : Decidable (p < q) :=
  inferInstanceAs (Decidable (p.line < q.line ∨ p.line = q.line ∧ p.column < q.column))

instance (p q : SourcePosition) : Decidable (p ≤ q) :=
  inferInstanceAs (Decidable (p < q ∨ p = q))

/-- Puts positions into reading order; equal ones keep their places. -/
def sort (ps : List SourcePosition) : List SourcePosition :=
  ps.mergeSort fun p q => decide (p ≤ q)

/-- A position is written as its line, a colon and its column. -/
instance : ToString SourcePosition where
  toString p := toString p.line ++ ":" ++ toString p.column

end SourcePosition

/-! ### Where a parse failed -/

/-- The line and column shown for a failure, and the index of the token it was found at. -/
structure ErrorPosition where
  line : Int
  column : Int
  index : Nat
deriving DecidableEq, Repr

namespace ErrorPosition

/-- Accepts any line and column, and an index that is not negative. -/
def ofInts (line column index : Int) : Except PositionError ErrorPosition :=
  if 0 ≤ index then .ok { line, column, index := index.toNat } else .error .negativeIndex

/-- The failure found at the character at `source`, the token with this index. -/
def ofSource (source : SourcePosition) (index : Nat) : ErrorPosition :=
  { line := source.line, column := source.column, index }

/-- The place in the text, where line and column are one. -/
def source (p : ErrorPosition) : Except PositionError SourcePosition :=
  SourcePosition.ofInts p.line p.column

/-- One failure is deeper than another if it was found at a later token. -/
def DeeperThan (p q : ErrorPosition) : Prop := q.index < p.index

instance (p q : ErrorPosition) : Decidable (p.DeeperThan q) :=
  inferInstanceAs (Decidable (q.index < p.index))

/-- An error position is written as its line, a colon and its column. -/
instance : ToString ErrorPosition where
  toString p := toString p.line ++ ":" ++ toString p.column

/-- The place of a failure that was found at a character is that character's. -/
theorem source_ofSource (p : SourcePosition) (i : Nat) : (ofSource p i).source = .ok p := by
  have hl := p.one_le_line
  have hc := p.one_le_column
  rw [source, SourcePosition.ofInts, dif_pos (by simp only [ofSource]; omega)]
  rfl

end ErrorPosition

end Descent
