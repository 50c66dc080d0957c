import Descent.Error
import Descent.Value

/-!
# Grammars

A grammar is a parser as one writes it down: the parsers of one token, put together by combinators,
with functions on values, and with references to named definitions. Definitions may refer to each
other and to themselves.

Besides these a grammar may contain parsers written by hand, which it names by values of a type `κ`.
A grammar over `Empty` has none.

A parser of one token has at least one type to choose from, and a choice at least one alternative.
The type of grammars leaves no room for less; `oneOf?`, `noneOf?` and `choice?` make grammars from
lists, and refuse empty ones.
-/

namespace Descent

/-- A parser as it is written down. -/
inductive Grammar (κ : Type) : Type
  /-- A token whose type is one of these. -/
  | oneOf (type : TokenType) (types : List TokenType)
  /-- A token whose type is none of these. -/
  | noneOf (type : TokenType) (types : List TokenType)
  /-- The end of the tokens. -/
  | endOfInput
  /-- All parts in order. -/
  | sequence (parts : List (Grammar κ))
  /-- The first alternative that matches. -/
  | choice (first : Grammar κ) (others : List (Grammar κ))
  /-- Once or more. -/
  | many1 (inner : Grammar κ)
  /-- Once or not at all. Whether the cursor is put back in the second case is said by `backtrack`.
  -/
  | optional (inner : Grammar κ) (backtrack : Bool)
  /-- With the cursor put back if it fails. -/
  | attempt (inner : Grammar κ)
  /-- With a label for its failures. -/
  | label (text : String) (inner : Grammar κ)
  /-- With its value passed through a function that may raise. -/
  | map (f : Value → Except Error Value) (inner : Grammar κ)
  /-- All parts in order, with the list of their values passed through a function that may raise. -/
  | combine (f : List Value → Except Error Value) (parts : List (Grammar κ))
  /-- What is defined under this name. -/
  | ref (name : String)
  /-- A parser written by hand. -/
  | custom (leaf : κ)

namespace Grammar

variable {κ : Type}

/-- A token whose type is listed. -/
def oneOf? : List TokenType → Except GrammarError (Grammar κ)
  | [] => .error .emptyOneOf
  | type :: types => .ok (.oneOf type types)

/-- A token whose type is not listed. -/
def noneOf? : List TokenType → Except GrammarError (Grammar κ)
  | [] => .error .emptyNoneOf
  | type :: types => .ok (.noneOf type types)

/-- The first of the listed alternatives that matches. -/
def choice? : List (Grammar κ) → Except GrammarError (Grammar κ)
  | [] => .error .emptyChoice
  | first :: others => .ok (.choice first others)

mutual

/-- How many parsers a grammar is written with. -/
def size : Grammar κ → Nat
  | oneOf _ _ => 1
  | noneOf _ _ => 1
  | endOfInput => 1
  | sequence parts => sizes parts + 1
  | choice first others => size first + sizes others + 1
  | many1 inner => size inner + 1
  | optional inner _ => size inner + 1
  | attempt inner => size inner + 1
  | label _ inner => size inner + 1
  | map _ inner => size inner + 1
  | combine _ parts => sizes parts + 1
  | ref _ => 1
  | custom _ => 1

/-- How many parsers several grammars are written with. -/
def sizes : List (Grammar κ) → Nat
  | [] => 0
  | g :: gs => size g + sizes gs

end

end Grammar

/-- Named grammars, the newest definition first. -/
abbrev Definitions (κ : Type) := List (String × Grammar κ)

namespace Definitions

variable {κ : Type}

/-- One more definition. It hides older ones of its name. -/
def define (defs : Definitions κ) (name : String) (g : Grammar κ) : Definitions κ :=
  (name, g) :: defs

/-- The newest definition of a name. -/
def find? (defs : Definitions κ) (name : String) : Option (Grammar κ) := defs.lookup name

/-- How many parsers all definitions are written with. -/
def size (defs : Definitions κ) : Nat := Grammar.sizes (defs.map (·.2))

end Definitions

end Descent
