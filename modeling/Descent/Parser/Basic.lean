import Descent.Cursor.Slot
import Descent.Error

/-!
# Parsers

A parser looks at a cursor and moves it. It ends in one of three ways, its `Verdict`: it succeeds
with a value, it fails, or an error is raised in it. Each comes with the cursor as the parser left
it. A failure does not put the cursor back; only a speculation does.

A parser may also not end at all. Grammars can refer to themselves, so a run is given a number of
levels that it may descend, and `none` is the answer of a run that would have to go deeper.

Parsers are run one after another by `bind`: the second one starts where the first succeeded, and a
failure or an error of the first is the verdict of both.
-/

namespace Descent

/-- How a parser ended. -/
inductive Verdict (α : Type)
  /-- It matched. -/
  | success (value : α)
  /-- It did not match. -/
  | failure (f : Failure)
  /-- Something went wrong in it. -/
  | raised (e : Error)
deriving Repr

/-- From a cursor to a verdict and the cursor that is left; `none` for a run that does not end
within the levels it was given. -/
def Parser (α : Type) : Type := Cursor → Option (Verdict α × Cursor)

namespace Parser

variable {α β : Type}

/-! ### Verdicts without a look at the tokens -/

/-- Succeeds with a value, and consumes nothing. -/
def always (a : α) : Parser α := fun c => some (.success a, c)

/-- Raises an error. -/
def raise (e : Error) : Parser α := fun c => some (.raised e, c)

/-- Fails with this failure. -/
def fail (f : Failure) : Parser α := fun c => some (.failure f, c)

/-- Fails at the cursor's place. -/
def failHere (message : String) (code : String := DiagnosticSpec.tokenMismatch.code) : Parser α :=
  fun c => fail { message, position := c.errorPosition, code } c

/-- Does not end. -/
def unfinished : Parser α := fun _ => none

/-- Succeeds with the value, or raises the error. -/
def ofExcept (r : Except Error α) : Parser α :=
  match r with
  | .ok a => always a
  | .error e => raise e

/-! ### One parser after another -/

/-- Runs a parser, and on success the one that its value selects. -/
protected def bind (p : Parser α) (f : α → Parser β) : Parser β := fun c =>
  match p c with
  | none => none
  | some (.success a, c') => f a c'
  | some (.failure e, c') => some (.failure e, c')
  | some (.raised e, c') => some (.raised e, c')

instance : Monad Parser where
  pure := always
  bind := Parser.bind

/-! ### The cursor's operations as parsers -/

/-- The value that `view` reads off the cursor. -/
def look (view : Cursor → α) : Parser α := fun c => some (.success (view c), c)

/-- Takes the token under the cursor, if there is one. -/
def consume : Parser (Option Token) := fun c => some (.success c.consume.1, c.consume.2)

/-- Stores the cursor's position. -/
def store : Parser Unit := fun c => some (.success (), c.store)

/-- Changes the cursor, where that is not refused. -/
def change (act : Cursor → Except CursorError Cursor) : Parser Unit := fun c =>
  match act c with
  | .ok c' => some (.success (), c')
  | .error e => some (.raised (.cursor e), c)

/-- Drops the position stored last. -/
def clear : Parser Unit := change Cursor.clear

/-- Goes back to the position stored last. -/
def restore : Parser Unit := change Cursor.restore

/-! ### Laws of sequencing -/

theorem bind_always (p : Parser α) : p.bind always = p := by
  funext c
  unfold Parser.bind
  split <;> simp_all [always]

theorem bind_assoc {γ : Type} (p : Parser α) (f : α → Parser β) (g : β → Parser γ) :
    (p.bind f).bind g = p.bind fun a => (f a).bind g := by
  funext c
  cases h : p c with
  | none => simp [Parser.bind, h]
  | some r =>
    obtain ⟨v, c'⟩ := r
    cases v <;> simp [Parser.bind, h]

instance : LawfulMonad Parser :=
  LawfulMonad.mk' Parser (fun p => bind_always p) (fun _ _ => rfl) bind_assoc

end Parser

end Descent
