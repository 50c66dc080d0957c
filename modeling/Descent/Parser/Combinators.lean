import Descent.Parser.Basic

/-!
# Combinators

Each combinator builds a parser out of others.

* `sequence` runs parsers in order. The first failure ends it, and what was consumed stays consumed.
* `attempt` goes back when its parser fails. `choice` attempts alternatives from one place; the
  first success wins, and if all fail the failure that got furthest is reported, the earliest of
  equals.
* `many1` repeats a parser at least once. It stops at the first failure and at the first success
  that consumed nothing, and goes back to the end of the last match that consumed something.
* `optional` turns a failure into the absence of a value, `label` puts a name before a failure's
  message, and `mapM` passes the value through a function that may raise.

The combinators that go back do so through `speculate`. It opens a slot, lets the body decide it,
and rewinds a slot that the body left open, which is what happens when an error is raised in the
body. So every way out of a speculation takes one position off the stack, and parsers that keep the
stack as they found it are put together to parsers that do.
-/

namespace Descent.Parser

variable {α β : Type}

/-! ### Sequences -/

/-- Runs parsers in order, and collects their values. -/
def sequence : List (Parser α) → Parser (List α)
  | [] => always []
  | p :: ps => p.bind fun a => (sequence ps).bind fun as => always (a :: as)

/-! ### Speculation -/

/-- Runs `body` with a slot for the present position. A slot that the body leaves open is rewound.
If that is refused, the refusal takes the place of the body's verdict. -/
def speculate (body : Slot → Cursor → Option (Verdict α × Slot × Cursor)) : Parser α := fun c =>
  let (slot, inside) := Slot.enter c
  (body slot inside).map fun (verdict, slot, c') =>
    match (slot.leave c').2 with
    | .ok c'' => (verdict, c'')
    | .error e => (.raised (.cursor e), c')

/-- Decides a slot by `act`, with this verdict. If the decision is refused, the refusal is raised.
-/
def settle (act : Slot → Cursor → Slot × Except CursorError Cursor) (verdict : Verdict α)
    (slot : Slot) (c : Cursor) : Verdict α × Slot × Cursor :=
  match act slot c with
  | (slot', .ok c') => (verdict, slot', c')
  | (slot', .error e) => (.raised (.cursor e), slot', c)

/-- Runs a parser, and goes back if it fails. -/
def attempt (p : Parser α) : Parser α :=
  speculate fun slot c =>
    (p c).map fun (verdict, c') =>
      match verdict with
      | .success a => settle Slot.commit (.success a) slot c'
      | .failure f => settle Slot.rewind (.failure f) slot c'
      | .raised e => (.raised e, slot, c')

/-- What an attempt amounts to on the stack of stored positions: one is stored, the parser runs, and
on success the one stored last is dropped, while otherwise the cursor goes back to it. -/
theorem attempt_apply (p : Parser α) (c : Cursor) :
    attempt p c = (p c.store).map fun
      | (.success a, c') => match c'.clear with
        | .ok c'' => (.success a, c'')
        | .error e => (.raised (.cursor e), c')
      | (.failure f, c') => match c'.restore with
        | .ok c'' => (.failure f, c'')
        | .error e => (.raised (.cursor e), c')
      | (.raised e, c') => match c'.restore with
        | .ok c'' => (.raised e, c'')
        | .error e' => (.raised (.cursor e'), c') := by
  simp only [attempt, speculate, Slot.enter, Option.map_map]
  congr 1
  funext ⟨v, c'⟩
  cases v <;>
    simp only [Function.comp, settle, Slot.commit, Slot.rewind, Slot.resolve, Slot.leave]
  · cases h : c'.clear <;> simp
  · cases h : c'.restore <;> simp
  · cases h : c'.restore <;> simp

/-! ### Choice -/

/-- The deeper of two failures, the first if neither is. -/
def deeper (f g : Failure) : Failure := if g.position.DeeperThan f.position then g else f

/-- Attempts alternatives in order, after others have failed of which `deepest` got furthest. -/
def choiceAfter (deepest : Failure) : List (Parser α) → Parser α
  | [] => fail deepest
  | p :: ps => fun c =>
    match attempt p c with
    | some (.failure f, c') => choiceAfter (deeper deepest f) ps c'
    | r => r

/-- Attempts `first`, then the others in order, until one succeeds. -/
def choice (first : Parser α) (others : List (Parser α)) : Parser α := fun c =>
  match attempt first c with
  | some (.failure f, c') => choiceAfter f others c'
  | r => r

/-! ### Repetition -/

/-- How one round of a repetition went. -/
inductive Round (α : Type)
  /-- The parser matched, and consumed something. -/
  | matched (value : α)
  /-- The parser matched without consuming anything. -/
  | idle
  /-- The parser failed. -/
  | halted (f : Failure)

/-- One round: progress is kept, and anything else is undone. -/
def round (p : Parser α) : Parser (Round α) :=
  speculate fun slot c =>
    (p c).map fun (verdict, c') =>
      match verdict with
      | .success a =>
        if slot.progressed c' then settle Slot.commit (.success (.matched a)) slot c'
        else settle Slot.rewind (.success .idle) slot c'
      | .failure f => settle Slot.rewind (.success (.halted f)) slot c'
      | .raised e => (.raised e, slot, c')

/-- What a round amounts to on the stack of stored positions: as an attempt, except that a success
which did not move the cursor forward goes back as well. -/
theorem round_apply (p : Parser α) (c : Cursor) :
    round p c = (p c.store).map fun
      | (.success a, c') =>
        if c.index < c'.index then match c'.clear with
          | .ok c'' => (.success (.matched a), c'')
          | .error e => (.raised (.cursor e), c')
        else match c'.restore with
          | .ok c'' => (.success .idle, c'')
          | .error e => (.raised (.cursor e), c')
      | (.failure f, c') => match c'.restore with
        | .ok c'' => (.success (.halted f), c'')
        | .error e => (.raised (.cursor e), c')
      | (.raised e, c') => match c'.restore with
        | .ok c'' => (.raised e, c'')
        | .error e' => (.raised (.cursor e'), c') := by
  simp only [round, speculate, Slot.enter, Option.map_map]
  congr 1
  funext ⟨v, c'⟩
  cases v <;>
    simp only [Function.comp, settle, Slot.commit, Slot.rewind, Slot.resolve, Slot.leave,
      Slot.progressed, Int.ofNat_lt, decide_eq_true_eq]
  · by_cases hp : c.index < c'.index
    · cases h : c'.clear <;> simp [hp]
    · cases h : c'.restore <;> simp [hp]
  · cases h : c'.restore <;> simp
  · cases h : c'.restore <;> simp

/-- Runs at most this many rounds. The answer has the matches in order, and the failure that ended
the repetition if one did. -/
def rounds (p : Parser α) : Nat → Parser (List α × Option Failure)
  | 0 => unfinished
  | n + 1 => (round p).bind fun
    | .matched a => (rounds p n).bind fun (as, last) => always (a :: as, last)
    | .idle => always ([], none)
    | .halted f => always ([], some f)

/-- Every round but the last consumes a token, so that no more rounds than these are needed. -/
def roundBound (c : Cursor) : Nat := c.tokens.size - c.index + 1

/-- Repeats a parser, once or more. The first round's failure is the failure of the whole. -/
def many1 (p : Parser α) : Parser (List α) := fun c =>
  (rounds p (roundBound c)).bind (fun
    | ([], some f) => fail f
    | (as, _) => always as) c

/-! ### One parser changed -/

/-- Turns a failure into the absence of a value. With `backtrack` the cursor goes back first,
without it stays where the failure left it. -/
def optional (p : Parser α) (backtrack : Bool := true) : Parser (Option α) := fun c =>
  match (if backtrack then attempt p else p) c with
  | none => none
  | some (.success a, c') => some (.success (some a), c')
  | some (.failure _, c') => some (.success none, c')
  | some (.raised e, c') => some (.raised e, c')

/-- Puts a label before the messages of a parser's failures. -/
def label (text : String) (p : Parser α) : Parser α := fun c =>
  match p c with
  | some (.failure f, c') => some (.failure (f.withLabel text), c')
  | r => r

/-- Passes the value of a parser through a function. -/
def mapM (f : α → Except Error β) (p : Parser α) : Parser β := p.bind fun a => ofExcept (f a)

/-- Runs parsers in order, and passes the list of their values through a function. -/
def combine (f : List α → Except Error β) (ps : List (Parser α)) : Parser β := mapM f (sequence ps)

/-! ### Running -/

/-- The verdict of a parser. A run that does not end within its levels counts as an error. -/
def verdict (p : Parser α) (c : Cursor) : Verdict α × Cursor := (p c).getD (.raised .tooDeep, c)

/-- Runs a parser for its outcome, a value or a failure. -/
def outcome (p : Parser α) (c : Cursor) : Except Error (Except Failure α) × Cursor :=
  match verdict p c with
  | (.success a, c') => (.ok (.ok a), c')
  | (.failure f, c') => (.ok (.error f), c')
  | (.raised e, c') => (.error e, c')

/-- Runs a parser as a whole: a failure becomes an error. -/
def run (p : Parser α) (c : Cursor) : Except Error α × Cursor :=
  match verdict p c with
  | (.success a, c') => (.ok a, c')
  | (.failure f, c') => (.error (.parse (.ofFailure f)), c')
  | (.raised e, c') => (.error e, c')

end Descent.Parser
