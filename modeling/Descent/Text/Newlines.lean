/-!
# Line ends

Texts come with three kinds of line end: a line feed, a carriage return, and a carriage return
followed by a line feed. `normalize` writes each of them as one line feed.
-/

namespace Descent.Text.Newlines

/-- The text so far in reverse, and whether its last line end was a carriage return. -/
structure Progress where
  done : List Char := []
  afterReturn : Bool := false

/-- Takes the next character: a carriage return is written as a line feed, and a line feed right
after it is part of the same line end. -/
def step (s : Progress) (c : Char) : Progress :=
  if c = '\r' then { done := '\n' :: s.done, afterReturn := true }
  else if c = '\n' ∧ s.afterReturn then { s with afterReturn := false }
  else { done := c :: s.done, afterReturn := false }

/-- The text with every line end written as a line feed. -/
def normalize (s : List Char) : List Char := (s.foldl step {}).done.reverse

end Descent.Text.Newlines
