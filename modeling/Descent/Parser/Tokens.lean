import Descent.Parser.Basic

/-!
# Parsers of one token

`oneOf` and `noneOf` consume one token, chosen by its type. `endOfInput` succeeds where no token is
left, and on a token that stands for the end. All three leave the cursor alone when they fail, and
say what they expected and what they found.
-/

namespace Descent.Parser

/-- What a failure says was found: the token's type, or that there was none. -/
def describe : Option Token → String
  | some t => t.type
  | none => "end of input"

/-- Types as they are enumerated in a message. -/
def enumerate (types : List TokenType) : String := ", ".intercalate types

/-- Fails because the token under the cursor, or its absence, is not what was expected. -/
def mismatch (expectation : String) (found : Option Token) : Parser Token :=
  failHere (expectation ++ ", but got " ++ describe found)

/-- Consumes the token under the cursor if `ok` accepts its type, and fails with a message that
starts with `expectation` otherwise. -/
def tokenWith (ok : TokenType → Bool) (expectation : String) : Parser Token := fun c =>
  match c.peek with
  | some t =>
    if ok t.type then some (.success t, c.advance) else mismatch expectation (some t) c
  | none => mismatch expectation none c

/-- Consumes a token whose type is among `types`. -/
def oneOf (types : List TokenType) : Parser Token :=
  tokenWith (fun type => decide (type ∈ types)) ("Expected token of type " ++ enumerate types)

/-- Consumes a token whose type is not among `types`. -/
def noneOf (types : List TokenType) : Parser Token :=
  tokenWith (fun type => decide (type ∉ types))
    ("Expected any token not of type " ++ enumerate types)

/-- Succeeds at the end of the tokens, or by consuming a token that stands for the end. -/
def endOfInput : Parser Unit := fun c =>
  match c.peek with
  | none => some (.success (), c)
  | some t =>
    if t.type = endOfInputType then some (.success (), c.advance)
    else failHere ("Expected end of input, but got token of type " ++ t.type)
      DiagnosticSpec.trailingInput.code c

end Descent.Parser
