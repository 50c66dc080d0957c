import Descent.Cursor

/-!
# Slots

A speculation stores the cursor's position, tries something, and then decides once: keep the
progress, or go back. The slot is its record of that decision. It holds the index at which the
speculation began and whether the decision was made.

* `commit` keeps the progress and `rewind` goes back. Either resolves the slot. A resolved slot
  refuses both.
* The slot counts as resolved from the moment its decision is made, even if the cursor then refuses
  to carry it out because nothing is stored any more.
* `leave` ends the speculation: a slot that is still open is rewound.
-/

namespace Descent

/-- Where a speculation began, and whether it was decided. -/
structure Slot where
  start : Int
  resolved : Bool := false
deriving DecidableEq, Repr

namespace Slot

/-- Begins a speculation: stores the position, and opens a slot for it. -/
def enter (c : Cursor) : Slot × Cursor := ({ start := c.index }, c.store)

/-- Decides the slot, carrying the decision out by `act`. -/
def resolve (act : Cursor → Except CursorError Cursor) (s : Slot) (c : Cursor) :
    Slot × Except CursorError Cursor :=
  if s.resolved then (s, .error .alreadyResolved)
  else ({ s with resolved := true }, act c)

/-- Decides to keep the progress. -/
def commit : Slot → Cursor → Slot × Except CursorError Cursor := resolve Cursor.clear

/-- Decides to go back. -/
def rewind : Slot → Cursor → Slot × Except CursorError Cursor := resolve Cursor.restore

/-- Ends the speculation. A slot that was not decided is rewound. -/
def leave (s : Slot) (c : Cursor) : Slot × Except CursorError Cursor :=
  if s.resolved then (s, .ok c) else s.rewind c

/-- Whether the cursor stands beyond the index at which the speculation began. -/
def progressed (s : Slot) (c : Cursor) : Bool := decide (s.start < c.index)

end Slot

end Descent
