import Descent.Parser.Basic
import Descent.Value

/-!
# Parsers written by hand

A grammar may contain parsers that no combinator builds. The ones here drive the cursor directly,
step by step, and may leave stored positions behind or take away those of others; they are what the
combinators have to cope with.
-/

namespace Descent.Parser

/-- One operation on the cursor. -/
inductive Step
  | consume
  | peek
  | store
  | clear
  | restore
deriving DecidableEq, Repr

namespace Step

/-- Performs an operation. Those on tokens give the token, the others no value. -/
def perform : Step → Parser Value
  | consume => Value.ofToken? <$> Parser.consume
  | peek => look fun c => Value.ofToken? c.peek
  | store => (fun _ => Value.null) <$> Parser.store
  | clear => (fun _ => Value.null) <$> Parser.clear
  | restore => (fun _ => Value.null) <$> Parser.restore

end Step

/-- How a parser written by hand ends when all its operations are done. -/
inductive Ending
  /-- It succeeds with the list of what they gave. -/
  | succeed
  /-- It fails at the cursor's place. -/
  | fail (message : String)
  /-- It raises an error. -/
  | raise (e : Error)
deriving DecidableEq, Repr

/-- Performs operations in order, and collects what they give. -/
def performAll : List Step → Parser (List Value)
  | [] => always []
  | s :: ss => do
    let v ← s.perform
    let vs ← performAll ss
    return v :: vs

/-- Performs operations in order, and ends as told. -/
def script (steps : List Step) (ending : Ending) : Parser Value := do
  let vs ← performAll steps
  match ending with
  | .succeed => always (.list vs)
  | .fail message => failHere message
  | .raise e => raise e

/-- Succeeds with what there is to see of the cursor: its index, how many positions are stored,
whether it is at the end, and the text that is left. -/
def probe : Parser Value :=
  look fun c => .list [Value.ofInt c.index, Value.ofInt c.depth, Value.ofBool c.atEnd,
    Value.ofString c.remainder]

/-- Fails at a place that is checked when the parser runs. -/
def failAt (message : String) (position : Except PositionError ErrorPosition)
    (code : String := DiagnosticSpec.tokenMismatch.code) : Parser Value :=
  match position with
  | .ok position => fail { message, position, code }
  | .error e => raise (.position e)

end Descent.Parser
