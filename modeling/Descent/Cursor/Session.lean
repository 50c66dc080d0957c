import Descent.Cursor.Slot
import Descent.Error

/-!
# Sessions

A session is a program of cursor operations, run from top to bottom and recorded on the way. Its
commands are single operations, blocks that speculate, and blocks that recover from errors.

* A block that speculates opens a slot under a name, runs its body, and is left when the body ends,
  by itself or by an error. Leaving rewinds a slot that is still open; if that is refused, the
  refusal is the error that leaves the block, in place of the body's own.
* A slot can be decided from anywhere, also after its block was left: a name stands for the newest
  slot that was opened under it. A slot can also be made without storing a position.
* An error skips everything up to the end of the innermost block that recovers.

Operations that this module knows nothing of take part as `call`; what they do is given to
`Session.run`.
-/

namespace Descent

/-- One operation of a session. -/
inductive Op (κ : Type)
  | peek
  | consume
  | consumeIf (types : List TokenType)
  | store
  | clear
  | restore
  /-- The text that is left. -/
  | remainder
  /-- The place that a failure would be reported at. -/
  | errorPosition
  /-- How many tokens there are in all. -/
  | size
  /-- Keeps the progress made since a slot was opened. -/
  | commit (name : String)
  /-- Goes back to where a slot was opened. -/
  | rewind (name : String)
  /-- Whether the cursor is beyond the start of a slot. -/
  | progressed (name : String)
  /-- Makes a slot with this start, without storing a position. -/
  | slot (name : String) (start : Int)
  /-- Raises an error. -/
  | raise (e : Error)
  /-- Does something else. -/
  | call (action : κ)

/-- What a session does. -/
inductive Command (κ : Type)
  | op (o : Op κ)
  /-- Runs the body with a slot of this name, and leaves the slot. -/
  | speculate (name : String) (body : List (Command κ))
  /-- Runs the body, and goes on after it even if an error was raised. -/
  | recover (body : List (Command κ))

/-- What an operation answers. -/
inductive Reply (ρ : Type)
  | nothing
  | token (t : Option Token)
  | text (s : String)
  | position (p : ErrorPosition)
  | count (n : Nat)
  | flag (b : Bool)
  | other (r : ρ)

/-- What a record is about. -/
inductive Event (κ ρ : Type)
  /-- An operation was performed. -/
  | performed (o : Op κ) (answer : Except Error (Reply ρ))
  /-- A block that speculates was entered. -/
  | entered (name : String)
  /-- It was left, with an error or without. -/
  | left (name : String) (error : Option Error)

/-- The slots of a session, oldest first, and for each name that was given the slot it was given to,
newest first. -/
structure Slots where
  all : Array Slot := #[]
  names : List (String × Nat) := []

namespace Slots

/-- Adds a slot under a name. -/
def add (name : String) (slot : Slot) (s : Slots) : Slots where
  all := s.all.push slot
  names := (name, s.all.size) :: s.names

/-- The number of the newest slot of a name. -/
def find? (name : String) (s : Slots) : Option Nat := s.names.lookup name

/-- The newest slot of every name, in the order of the names. -/
def newest (s : Slots) : List (String × Slot) :=
  let names := (s.names.map (·.1)).eraseDups.mergeSort fun a b => decide (a ≤ b)
  names.filterMap fun name => do
    let slot ← s.all[(← s.find? name)]?
    return (name, slot)

end Slots

/-- A record: what happened, and the cursor and the slots right after it. -/
structure Moment (κ ρ : Type) where
  event : Event κ ρ
  cursor : Cursor
  slots : Slots

/-- How far a session has come. -/
structure Session (κ ρ : Type) where
  cursor : Cursor
  slots : Slots := {}
  log : Array (Moment κ ρ) := #[]

namespace Session

variable {κ ρ : Type}

/-- Writes a record. -/
def record (event : Event κ ρ) (s : Session κ ρ) : Session κ ρ :=
  { s with log := s.log.push { event, cursor := s.cursor, slots := s.slots } }

/-- Decides the slot with this number. A refused decision leaves the cursor alone. -/
def settle (act : Slot → Cursor → Slot × Except CursorError Cursor) (i : Nat) (s : Session κ ρ) :
    Except Error (Reply ρ) × Session κ ρ :=
  match s.slots.all[i]? with
  | none => (.ok .nothing, s)
  | some slot =>
    let (slot, r) := act slot s.cursor
    let slots := { s.slots with all := s.slots.all.setIfInBounds i slot }
    match r with
    | .ok c => (.ok .nothing, { s with cursor := c, slots })
    | .error e => (.error (.cursor e), { s with slots })

/-- Goes on with the number of the newest slot of a name. -/
def withSlot (name : String) (s : Session κ ρ)
    (k : Nat → Except Error (Reply ρ) × Session κ ρ) : Except Error (Reply ρ) × Session κ ρ :=
  match s.slots.find? name with
  | some i => k i
  | none => (.error (.undefined name), s)

/-- Changes the cursor, where that is not refused. -/
def change (act : Cursor → Except CursorError Cursor) (s : Session κ ρ) :
    Except Error (Reply ρ) × Session κ ρ :=
  match act s.cursor with
  | .ok c => (.ok .nothing, { s with cursor := c })
  | .error e => (.error (.cursor e), s)

/-- Performs one operation. -/
def perform (hand : κ → Cursor → Except Error ρ × Cursor) (o : Op κ) (s : Session κ ρ) :
    Except Error (Reply ρ) × Session κ ρ :=
  match o with
  | .peek => (.ok (.token s.cursor.peek), s)
  | .consume => (.ok (.token s.cursor.consume.1), { s with cursor := s.cursor.consume.2 })
  | .consumeIf types =>
    (.ok (.token (s.cursor.consumeIf types).1), { s with cursor := (s.cursor.consumeIf types).2 })
  | .store => (.ok .nothing, { s with cursor := s.cursor.store })
  | .clear => s.change Cursor.clear
  | .restore => s.change Cursor.restore
  | .remainder => (.ok (.text s.cursor.remainder), s)
  | .errorPosition => (.ok (.position s.cursor.errorPosition), s)
  | .size => (.ok (.count s.cursor.tokens.size), s)
  | .commit name => s.withSlot name fun i => s.settle Slot.commit i
  | .rewind name => s.withSlot name fun i => s.settle Slot.rewind i
  | .progressed name => s.withSlot name fun i =>
    (.ok (.flag (s.slots.all[i]?.any (·.progressed s.cursor))), s)
  | .slot name start => (.ok .nothing, { s with slots := s.slots.add name { start } })
  | .raise e => (.error e, s)
  | .call action =>
    let (r, c) := hand action s.cursor
    (r.map .other, { s with cursor := c })

/-- Opens a slot under a name, and stores the position. -/
def enter (name : String) (s : Session κ ρ) : Session κ ρ :=
  let (slot, c) := Slot.enter s.cursor
  record (.entered name) { s with cursor := c, slots := s.slots.add name slot }

/-- Leaves the slot with this number, after its body ended with `error` or without one. -/
def leave (name : String) (i : Nat) (error : Option Error) (s : Session κ ρ) :
    Option Error × Session κ ρ :=
  let (r, s) := s.settle Slot.leave i
  let error := match r with
    | .ok _ => error
    | .error e => some e
  (error, s.record (.left name error))

mutual

/-- Runs a command. The error is the one that came out of it. -/
def exec (hand : κ → Cursor → Except Error ρ × Cursor) :
    Command κ → Session κ ρ → Option Error × Session κ ρ
  | .op o, s =>
    let (answer, s) := s.perform hand o
    let error := match answer with
      | .ok _ => none
      | .error e => some e
    (error, s.record (.performed o answer))
  | .speculate name body, s =>
    let (error, inside) := execAll hand body (s.enter name)
    inside.leave name s.slots.all.size error
  | .recover body, s => (none, (execAll hand body s).2)

/-- Runs commands up to the first that an error comes out of. -/
def execAll (hand : κ → Cursor → Except Error ρ × Cursor) :
    List (Command κ) → Session κ ρ → Option Error × Session κ ρ
  | [], s => (none, s)
  | command :: rest, s =>
    match exec hand command s with
    | (none, s) => execAll hand rest s
    | (some e, s) => (some e, s)

end

/-- Runs commands from a cursor, each whether or not an error came out of the one before. -/
def run (hand : κ → Cursor → Except Error ρ × Cursor) (commands : List (Command κ)) (c : Cursor) :
    Session κ ρ :=
  (execAll hand (commands.map fun command => .recover [command]) { cursor := c }).2

end Session

end Descent
