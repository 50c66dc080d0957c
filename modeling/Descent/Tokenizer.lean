import Descent.Diagnostic
import Descent.Tokenizer.Rule

/-!
# The tokenizer

A tokenizer is a list of rules and, if lines are to be counted, the type that ends a line. It turns
every character of a text into one token.

* A character's type is that of the first rule that accepts it, in the order of registration.
* The first character stands at line 1, column 1. Each character moves the place one column on; one
  whose type is the newline type moves it to the start of the next line instead.
* The first character that no rule accepts ends the run with a `TokenizationError`, and no tokens
  are returned.

Tokenizers are values: `withRule` and `withNewlineType` give new ones. `ofEntries` builds one at
once from a list of rules, each ready made or still to be checked.
-/

namespace Descent

/-- A character that no rule accepts: the character, its line and column, and its index in the text.
-/
structure TokenizationError where
  character : String
  line : Int
  column : Int
  index : Int
deriving DecidableEq, Repr

namespace TokenizationError

/-- The words shown: the registered message, the character between quotes, and the place. -/
def message (e : TokenizationError) : String :=
  DiagnosticSpec.noMatchingRule.message ++ ": " ++ quoted e.character ++
    " [" ++ toString e.line ++ ":" ++ toString e.column ++ "]"

/-- The diagnostic for the error. There is none if its index is negative. -/
def diagnostic (e : TokenizationError) : Except PositionError Diagnostic := do
  let position ← ErrorPosition.ofInts e.line e.column e.index
  return .ofSpec .noMatchingRule position (some e.message)

end TokenizationError

/-- Ordered rules, and the type that ends a line. -/
structure Tokenizer where
  rules : List Rule := []
  newlineType : Option TokenType := none
deriving DecidableEq, Repr

namespace Tokenizer

/-! ### Building -/

/-- A rule that is ready, or a matcher and a type still to be checked. -/
inductive Entry
  | ready (rule : Rule)
  | pair (spec : MatcherSpec) (type : TokenType)

/-- The rule of an entry. -/
def Entry.rule : Entry → Except RuleError Rule
  | ready rule => .ok rule
  | pair spec type => Rule.make spec type

/-- A tokenizer with these rules in this order. The first entry that is no rule is reported. -/
def ofEntries (entries : List Entry) (newlineType : Option TokenType := none) :
    Except RuleError Tokenizer := do
  let rules ← entries.mapM Entry.rule
  return { rules, newlineType }

/-- The tokenizer with one more rule, tried after all others. -/
def withRule (t : Tokenizer) (spec : MatcherSpec) (type : TokenType) :
    Except RuleError Tokenizer := do
  let rule ← Rule.make spec type
  return { t with rules := t.rules ++ [rule] }

/-- The tokenizer with another newline type. -/
def withNewlineType (t : Tokenizer) (type : TokenType) : Tokenizer :=
  { t with newlineType := some type }

/-! ### Classifying -/

/-- The type of a character: that of the first rule that accepts it. -/
def classify (t : Tokenizer) (c : Char) : Option TokenType :=
  (t.rules.find? (·.accepts c)).map (·.type)

/-- The type of a text: that of the first rule that accepts it. -/
def classifyText (t : Tokenizer) (s : String) : Option TokenType :=
  (t.rules.find? (·.acceptsText s)).map (·.type)

/-- A text of one character has that character's type. -/
theorem classifyText_singleton (t : Tokenizer) (c : Char) :
    t.classifyText (String.singleton c) = t.classify c := by
  simp only [classifyText, classify, Rule.acceptsText, Rule.accepts, Matcher.acceptsText_singleton]

/-! ### Tokenizing -/

/-- Where the character after one of this type stands. -/
def advance (t : Tokenizer) (p : SourcePosition) (type : TokenType) : SourcePosition :=
  if t.newlineType = some type then p.nextLine else p.nextColumn

/-- How far a run has come: the tokens so far, and the place of the next character. -/
structure Progress where
  tokens : Array Token := #[]
  position : SourcePosition := .start

/-- Makes a token of the next character. -/
def step (t : Tokenizer) (s : Progress) (c : Char) : Except TokenizationError Progress :=
  match t.classify c with
  | none => .error
    { character := String.singleton c, line := s.position.line, column := s.position.column,
      index := s.tokens.size }
  | some type => .ok
    { tokens := s.tokens.push { type, value := String.singleton c, position := s.position },
      position := t.advance s.position type }

/-- The tokens of a text, one per character. -/
def tokenize (t : Tokenizer) (text : String) : Except TokenizationError (Array Token) := do
  let s ← text.toList.foldlM t.step {}
  return s.tokens

/-- A run over a text is a run over its first part, continued over the rest. -/
theorem foldlM_step_append (t : Tokenizer) (s : Progress) (a b : List Char) :
    (a ++ b).foldlM t.step s = a.foldlM t.step s >>= fun s' => b.foldlM t.step s' :=
  List.foldlM_append

end Tokenizer

end Descent
