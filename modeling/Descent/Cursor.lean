import Descent.Token

/-!
# Cursors

A cursor stands somewhere in a sequence of tokens. It moves forward by consuming a token, and
backward only to an index that it stored before: stored indices are kept on a stack, and each is
taken off again either by `clear`, which stays where the cursor is, or by `restore`, which goes
back.

`clear` and `restore` are refused when nothing is stored. Everything else always succeeds; at the
end of the tokens there is simply no token to see or to consume.
-/

namespace Descent

/-- Why an operation on stored positions is refused. -/
inductive CursorError
  /-- Nothing is stored that could be dropped. -/
  | nothingToClear
  /-- Nothing is stored that could be gone back to. -/
  | nothingToRestore
  /-- The slot was committed or rewound before. -/
  | alreadyResolved
deriving DecidableEq, Repr

namespace CursorError

/-- The words shown for a refused operation. -/
def message : CursorError → String
  | nothingToClear => "clear_position() called with no stored position"
  | nothingToRestore => "restore_position() called with no stored position"
  | alreadyResolved => "Speculation already resolved"

end CursorError

/-- A place in a sequence of tokens, and the indices stored for going back. -/
structure Cursor where
  tokens : Array Token
  /-- How many tokens lie before the cursor. -/
  index : Nat := 0
  /-- The stored indices, the one stored last first. -/
  saved : List Nat := []
deriving DecidableEq, Repr

namespace Cursor

/-- A cursor before the first token, with nothing stored. -/
def ofTokens (tokens : Array Token) : Cursor := { tokens }

/-! ### Looking -/

/-- Whether no token is left. -/
def atEnd (c : Cursor) : Bool := decide (c.tokens.size ≤ c.index)

/-- How many indices are stored. -/
def depth (c : Cursor) : Nat := c.saved.length

/-- The token under the cursor. -/
def peek (c : Cursor) : Option Token := c.tokens[c.index]?

/-- The text of all tokens from the cursor on. -/
def remainder (c : Cursor) : String :=
  String.join ((c.tokens.toList.drop c.index).map (·.value))

/-- The place that a failure at the cursor is reported at: that of the token under the cursor, at
the end that of the last token, and the start of the text if there are no tokens. -/
def errorPosition (c : Cursor) : ErrorPosition :=
  .ofSource (((c.peek.or c.tokens.back?).map (·.position)).getD .start) c.index

/-! ### Moving -/

/-- The cursor one token further on. -/
def advance (c : Cursor) : Cursor := { c with index := c.index + 1 }

/-- Takes the token under the cursor, if there is one. -/
def consume (c : Cursor) : Option Token × Cursor :=
  match c.peek with
  | some t => (some t, c.advance)
  | none => (none, c)

/-- Takes the token under the cursor if its type is one of these. -/
def consumeIf (types : List TokenType) (c : Cursor) : Option Token × Cursor :=
  match c.peek with
  | some t => if t.type ∈ types then c.consume else (none, c)
  | none => (none, c)

/-! ### Storing and going back -/

/-- Stores the present index. -/
def store (c : Cursor) : Cursor := { c with saved := c.index :: c.saved }

/-- Drops the index stored last. -/
def clear (c : Cursor) : Except CursorError Cursor :=
  match c.saved with
  | [] => .error .nothingToClear
  | _ :: rest => .ok { c with saved := rest }

/-- Goes back to the index stored last, and drops it. -/
def restore (c : Cursor) : Except CursorError Cursor :=
  match c.saved with
  | [] => .error .nothingToRestore
  | i :: rest => .ok { c with index := i, saved := rest }

end Cursor

end Descent
