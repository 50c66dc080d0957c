import Descent.Grammar
import Descent.Parser.Combinators
import Descent.Parser.Tokens

/-!
# Running a grammar

`Grammar.parser` turns a grammar into the parser that it denotes. Every step from a grammar into one
of its parts, and every step from a reference into the definition, goes down one level; the number
of levels is given, and a run that would go deeper does not end.

`levels` is how many a run may need. Between two consumed tokens a grammar without left recursion
enters each of its parsers at most once on the way down, so that as many levels as there are
parsers, once for every token and once more, are enough. A stored position counts like a token,
because a parser written by hand may go back to it. `parse`, `run` and `runText` use that number.
-/

namespace Descent.Grammar

variable {κ : Type}

/-- The parser that a grammar denotes, for runs of at most this many levels. -/
def parser (hand : κ → Parser Value) (defs : Definitions κ) : Nat → Grammar κ → Parser Value
  | 0, _ => Parser.unfinished
  | n + 1, g =>
    match g with
    | oneOf type types => Value.ofToken <$> Parser.oneOf (type :: types)
    | noneOf type types => Value.ofToken <$> Parser.noneOf (type :: types)
    | endOfInput => (fun _ => Value.null) <$> Parser.endOfInput
    | sequence parts => Value.ofList <$> Parser.sequence (parts.map (parser hand defs n))
    | choice first others =>
      Parser.choice (parser hand defs n first) (others.map (parser hand defs n))
    | many1 inner => Value.ofList <$> Parser.many1 (parser hand defs n inner)
    | optional inner backtrack =>
      (·.getD Value.null) <$> Parser.optional (parser hand defs n inner) backtrack
    | attempt inner => Parser.attempt (parser hand defs n inner)
    | label text inner => Parser.label text (parser hand defs n inner)
    | map f inner => Parser.mapM f (parser hand defs n inner)
    | combine f parts => Parser.combine f (parts.map (parser hand defs n))
    | ref name =>
      match defs.find? name with
      | some g => parser hand defs n g
      | none => Parser.raise (.undefined name)
    | custom leaf => hand leaf

/-- How many levels a run from this cursor may need. -/
def levels (defs : Definitions κ) (g : Grammar κ) (c : Cursor) : Nat :=
  (c.tokens.size + c.depth + 1) * (g.size + defs.size) + 1

/-- Runs a grammar at a cursor. -/
def parse (hand : κ → Parser Value) (defs : Definitions κ) (g : Grammar κ) : Parser Value :=
  fun c => parser hand defs (levels defs g c) g c

/-- Runs a grammar at a cursor as a whole: a failure becomes an error. -/
def run (hand : κ → Parser Value) (defs : Definitions κ) (g : Grammar κ) (c : Cursor) :
    Except Error Value × Cursor :=
  (parse hand defs g).run c

/-- Tokenizes a text and runs a grammar over its tokens. A text that cannot be tokenized is reported
without running the grammar. -/
def runText (hand : κ → Parser Value) (defs : Definitions κ) (g : Grammar κ) (t : Tokenizer)
    (text : String) : Except Error Value :=
  match t.tokenize text with
  | .error e => .error (.tokenization e)
  | .ok tokens => (run hand defs g (.ofTokens tokens)).1

end Descent.Grammar
