import Descent.Text.Position

/-!
# Diagnostics

A diagnostic is what a tool shows for a failed parse or a refused character: a code, a message, the
place, and how the code is filed. Codes that this library raises are registered as specifications
with a default message, a hint and a category. `Diagnostic.ofSpec` fills a diagnostic from a
specification; `Diagnostic.ofCode` looks the specification up, and leaves hint and category out
where the code is not registered.
-/

namespace Descent

/-- How bad a diagnostic is. -/
inductive Severity
  | error
  | warning
deriving DecidableEq, Repr

namespace Severity

/-- The word for a severity. -/
def name : Severity → String
  | error => "error"
  | warning => "warning"

end Severity

/-- A registered kind of diagnostic. -/
structure DiagnosticSpec where
  code : String
  message : String
  hint : Option String := none
  severity : Severity := .error
  category : Option String := none
deriving DecidableEq, Repr

namespace DiagnosticSpec

/-- No rule of the tokenizer accepts a character. -/
def noMatchingRule : DiagnosticSpec where
  code := "LEXER_NO_MATCHING_RULE"
  message := "No token type matched for character"
  hint := some "Register a token type whose matcher accepts this character."
  category := some "lexer"

/-- A token has another type than the grammar allows at its place. -/
def tokenMismatch : DiagnosticSpec where
  code := "PARSER_TOKEN_MISMATCH"
  message := "Unexpected token type"
  hint := some "Check the token types the grammar expects at this point."
  category := some "parser"

/-- The grammar ends before the tokens do. -/
def trailingInput : DiagnosticSpec where
  code := "PARSER_UNEXPECTED_TRAILING_INPUT"
  message := "Expected end of input"
  hint := some "The grammar matched a prefix of the input; extend it to cover the remaining tokens."
  category := some "parser"

/-- Every registered kind, in the order of its code. -/
def registered : List DiagnosticSpec :=
  [noMatchingRule, tokenMismatch, trailingInput]

/-- The registered kind with this code. -/
def ofCode? (code : String) : Option DiagnosticSpec :=
  registered.find? fun spec => spec.code == code

end DiagnosticSpec

/-- What is shown for one failure. -/
structure Diagnostic where
  code : String
  message : String
  position : ErrorPosition
  severity : Severity := .error
  hint : Option String := none
  category : Option String := none
deriving DecidableEq, Repr

namespace Diagnostic

/-- A diagnostic of a registered kind. Without a message of its own it has the kind's. -/
def ofSpec (spec : DiagnosticSpec) (position : ErrorPosition) (message : Option String := none) :
    Diagnostic where
  code := spec.code
  message := message.getD spec.message
  position
  severity := spec.severity
  hint := spec.hint
  category := spec.category

/-- A diagnostic with this code, filed as the code is registered. An unregistered code has neither
hint nor category. -/
def ofCode (code : String) (position : ErrorPosition) (message : String) : Diagnostic :=
  match DiagnosticSpec.ofCode? code with
  | some spec => ofSpec spec position (some message)
  | none => { code, message, position }

end Diagnostic

end Descent
