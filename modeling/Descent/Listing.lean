import Descent.Listing.Folder
import Descent.Text.Newlines
import Descent.Tokenizer

/-!
# Listing the tokens of a file

The program that comes with the library prints the tokens of a text file. It uses a tokenizer for
plain text, and gives the type `symbol` to whatever that tokenizer has no type for, so that every
text can be listed. The listing is a dump of the tokens and a line that counts them.
-/

namespace Descent

/-- A rule for a class of characters. -/
def Rule.ofClass (k : CharClass) (type : TokenType) (h : type ≠ "" := by decide) : Rule :=
  { matcher := .pattern k, type, type_ne_empty := h }

/-- The rule that makes a symbol of `c`. -/
def Rule.symbol (c : Char) : Rule :=
  { matcher := .literal c, type := "symbol", type_ne_empty := by decide }

namespace Tokenizer

/-- Line feeds, other white space, letters and digits. Line feeds end lines. -/
def plainText : Tokenizer where
  rules :=
    [.ofClass .newline "newline", .ofClass .whitespace "whitespace", .ofClass .letter "letter",
      .ofClass .digit "digit"]
  newlineType := some "newline"

/-- The tokenizer with a rule of type `symbol` for `c`, unless `c` has a type already. -/
def withSymbol (t : Tokenizer) (c : Char) : Tokenizer :=
  match t.classify c with
  | some _ => t
  | none => { t with rules := t.rules ++ [Rule.symbol c] }

/-- The tokenizer with rules for all of these characters. -/
def withSymbols (t : Tokenizer) (cs : List Char) : Tokenizer := cs.foldl withSymbol t

end Tokenizer

namespace Listing

/-- The text that a file's bytes stand for. -/
def decode (bytes : ByteArray) : Except FileError String :=
  match String.fromUTF8? bytes with
  | some s => .ok (String.ofList (Text.Newlines.normalize s.toList))
  | none => .error .notText

/-- The tokens of a text, each character typed as plain text or as a symbol. -/
def tokens (text : String) : Except TokenizationError (Array Token) :=
  (Tokenizer.plainText.withSymbols text.toList).tokenize text

/-- What is printed for a text that was read from `path`. -/
def render (path : Path) (text : String) : Except TokenizationError String := do
  let ts ← tokens text
  return Token.dump ts.toList ++ toString ts.size ++ " tokens from " ++ toString path ++ "\n"

/-- The path that the program is asked to list: that of its only argument. -/
def request : List String → Option Path
  | [arg] => some (.parse arg)
  | _ => none

/-- What is shown to someone who asks in another way. -/
def usage (program : String) : String := "usage: " ++ program ++ " <file>\n"

/-- How the program ends. -/
inductive Ending
  /-- It printed a listing. -/
  | listed (output : String)
  /-- It was not asked for one file. -/
  | misused
  /-- The file could not be read. -/
  | unreadable (e : FileError)
  /-- A character had no type. -/
  | untyped (e : TokenizationError)

/-- What the program does with a file's bytes. -/
def list (path : Path) (bytes : ByteArray) : Ending :=
  match decode bytes with
  | .error e => .unreadable e
  | .ok text =>
    match render path text with
    | .error e => .untyped e
    | .ok output => .listed output

/-- What the program does in a folder. -/
def runIn (folder : Folder) (args : List String) : Ending :=
  match request args with
  | none => .misused
  | some path =>
    match folder.read path with
    | .error e => .unreadable e
    | .ok bytes => list path bytes

end Listing

end Descent
