import Descent.Diagnostic

/-!
# Failures

A parser that does not match returns a failure: why, where, and under which diagnostic code. A
failure is a value, and is passed on, compared and labelled like any other.
-/

namespace Descent

/-- Why a parse failed, where, and the diagnostic code it is filed under. -/
structure Failure where
  message : String
  position : ErrorPosition
  code : String := DiagnosticSpec.tokenMismatch.code
deriving DecidableEq, Repr

namespace Failure

/-- The failure with a label before its message. -/
def withLabel (text : String) (f : Failure) : Failure :=
  { f with message := text ++ ": " ++ f.message }

/-- The failure as a diagnostic. -/
def diagnostic (f : Failure) : Diagnostic := .ofCode f.code f.position f.message

end Failure

/-- A failure that ended a whole run. -/
structure ParseError where
  /-- The failure's own message. -/
  text : String
  position : ErrorPosition
  code : String := DiagnosticSpec.tokenMismatch.code
deriving DecidableEq, Repr

namespace ParseError

/-- The error for a failure that nothing recovered from. -/
def ofFailure (f : Failure) : ParseError where
  text := f.message
  position := f.position
  code := f.code

/-- The words shown: the place, and the failure's message. -/
def message (e : ParseError) : String :=
  "Parser Error [" ++ toString e.position ++ "]: " ++ e.text

/-- The error as a diagnostic. -/
def diagnostic (e : ParseError) : Diagnostic := .ofCode e.code e.position e.text

end ParseError

end Descent
