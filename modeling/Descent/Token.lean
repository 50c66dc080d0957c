import Descent.Text.Position

/-!
# Tokens

A token is a piece of text with the type it was given and the place where it begins. The tokenizer
makes one token of every character; a caller may also supply tokens whose text is longer.

One type is set apart. `endOfInputType` is the type of a token that stands for the end of the input:
the parser `endOfInput` accepts such a token as it accepts the end itself.
-/

namespace Descent

/-- A token's type is any name that the tokenizer is configured with. -/
abbrev TokenType := String

/-- The type of a token that stands for the end of the input. -/
def endOfInputType : TokenType := "end_of_input"

/-- A piece of text, its type and its place. -/
structure Token where
  type : TokenType
  value : String
  position : SourcePosition
deriving DecidableEq, Repr

end Descent
