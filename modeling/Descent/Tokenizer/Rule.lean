import Descent.Token
import Descent.Token.Dump
import Descent.Text.CharClass

/-!
# Rules of a tokenizer

A rule gives a type to the characters that its matcher accepts. A matcher is one character, or a
class of characters. A `Rule` is well formed by its type: its type name is never empty and its
literal is exactly one character. What a caller writes down is a `MatcherSpec`, which may be
anything; `Rule.make` turns it into a rule or says what is wrong with it.
-/

namespace Descent

/-- What a rule accepts. -/
inductive Matcher
  /-- This character. -/
  | literal (c : Char)
  /-- Every character of this class. -/
  | pattern (k : CharClass)
deriving DecidableEq, Repr

namespace Matcher

/-- Whether the matcher accepts a character. -/
def accepts : Matcher → Char → Bool
  | literal c, d => decide (d = c)
  | pattern k, d => k.contains d

/-- Whether the matcher accepts a text: a literal only its own character standing alone, a class
every text in which some character belongs to it. -/
def acceptsText : Matcher → String → Bool
  | literal c, s => decide (s.toList = [c])
  | pattern k, s => s.toList.any k.contains

/-- On a text of one character both ways of asking agree. -/
theorem acceptsText_singleton (m : Matcher) (c : Char) :
    m.acceptsText (String.singleton c) = m.accepts c := by
  cases m <;> simp [acceptsText, accepts]

end Matcher

/-- What a caller asks a rule to match on. -/
inductive MatcherSpec
  /-- A text, which has to be one character. -/
  | literal (text : String)
  /-- A class of characters. -/
  | pattern (k : CharClass)
  /-- Something that cannot match characters, by the name of its kind. -/
  | unusable (kind : String)
deriving DecidableEq, Repr

/-- Why a rule is refused. -/
inductive RuleError
  /-- Its type name is empty. -/
  | emptyType
  /-- Its literal is not a single character. -/
  | literalLength (text : String)
  /-- Its matcher is of a kind that cannot match characters. -/
  | notAMatcher (kind : String)
deriving DecidableEq, Repr

namespace RuleError

/-- The words shown for a refused rule. -/
def message : RuleError → String
  | emptyType => "Token type cannot be empty"
  | literalLength text => "Literal matcher must be a single character, got " ++ quoted text
  | notAMatcher kind => "Matcher must be a str or compiled pattern, got " ++ kind

end RuleError

namespace MatcherSpec

/-- Accepts classes, and texts of one character. -/
def check : MatcherSpec → Except RuleError Matcher
  | literal text =>
    match text.toList with
    | [c] => .ok (.literal c)
    | _ => .error (.literalLength text)
  | pattern k => .ok (.pattern k)
  | unusable kind => .error (.notAMatcher kind)

end MatcherSpec

/-- The characters that `matcher` accepts become tokens of this type. -/
structure Rule where
  matcher : Matcher
  type : TokenType
  type_ne_empty : type ≠ ""
deriving DecidableEq, Repr

namespace Rule

/-- A rule from what a caller wrote down. An empty type is reported before a bad matcher. -/
def make (spec : MatcherSpec) (type : TokenType) : Except RuleError Rule :=
  if h : type = "" then .error .emptyType
  else do
    let matcher ← spec.check
    return { matcher, type, type_ne_empty := h }

/-- Whether the rule accepts a character. -/
def accepts (r : Rule) (c : Char) : Bool :=
  r.matcher.accepts c

/-- Whether the rule accepts a text. -/
def acceptsText (r : Rule) (s : String) : Bool :=
  r.matcher.acceptsText s

end Rule

end Descent
