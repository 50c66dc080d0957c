import Descent.Cursor
import Descent.Parser.Failure
import Descent.Tokenizer

/-!
# Errors

An error, unlike a failure, ends everything around it: no alternative is tried in its place and no
repetition stops quietly because of it. This module gathers the causes, each with the words that are
shown for it.
-/

namespace Descent

/-- Why a grammar cannot be written. -/
inductive GrammarError
  /-- A token is to have one of no types. -/
  | emptyOneOf
  /-- A token is to have none of no types. -/
  | emptyNoneOf
  /-- A choice has no alternatives. -/
  | emptyChoice
deriving DecidableEq, Repr

namespace GrammarError

/-- The words shown for a grammar that cannot be written. -/
def message : GrammarError → String
  | emptyOneOf => "any_of() needs at least one token type"
  | emptyNoneOf => "any_except() needs at least one token type"
  | emptyChoice => "or_() needs at least one alternative"

end GrammarError

/-- Everything that ends a computation early. -/
inductive Error
  /-- A position that is none. -/
  | position (e : PositionError)
  /-- A tokenizer rule that is refused. -/
  | rule (e : RuleError)
  /-- A grammar that cannot be written. -/
  | grammar (e : GrammarError)
  /-- A misuse of stored positions. -/
  | cursor (e : CursorError)
  /-- A character that no rule accepts. -/
  | tokenization (e : TokenizationError)
  /-- A failure that nothing recovered from. -/
  | parse (e : ParseError)
  /-- A name that nothing is defined under. -/
  | undefined (name : String)
  /-- A run that would have to go deeper than it may. -/
  | tooDeep
  /-- An error that a function or a parser of the caller raised, with the caller's words. -/
  | caller (message : String)
deriving DecidableEq, Repr

namespace Error

/-- The words shown for an error. -/
def message : Error → String
  | position e => e.message
  | rule e => e.message
  | grammar e => e.message
  | cursor e => e.message
  | tokenization e => e.message
  | parse e => e.message
  | undefined name => quoted name
  | tooDeep => "maximum recursion depth exceeded"
  | caller message => message

end Error

end Descent
