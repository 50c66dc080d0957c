import Descent.Token
import Descent.Value.Tree

/-!
# Values

What a grammar yields: tokens, the values that functions make of them, and lists of values. The
readings below are the functions that callers most often apply to them. `text` and `number` read
every value and `item` finds nothing in what is no list; the others leave a value of another kind as
it is.
-/

namespace Descent

/-- A value that is not a list. -/
inductive Atom
  /-- No value. -/
  | null
  | bool (b : Bool)
  | int (n : Int)
  | text (s : String)
  | token (t : Token)
deriving DecidableEq, Repr

namespace Atom

/-- Truth values count as the numbers zero and one where atoms are compared. -/
def number? : Atom → Option Int
  | bool b => some (if b then 1 else 0)
  | int n => some n
  | _ => none

/-- Whether two atoms count as equal: the same atom, or equal as numbers. -/
def same (a b : Atom) : Bool :=
  decide (a = b) || (a.number?.isSome && decide (a.number? = b.number?))

/-- The text of an atom: a token's own, a number in decimal, a truth value as its word, and nothing
for no value. -/
def asText : Atom → String
  | null => ""
  | bool true => "true"
  | bool false => "false"
  | int n => toString n
  | text s => s
  | token t => t.value

end Atom

/-- What a grammar yields. -/
abbrev Value := Tree Atom

namespace Value

/-- No value. -/
def null : Value := .leaf .null

/-- A text as a value. -/
def ofString (s : String) : Value := .leaf (.text s)

/-- A number as a value. -/
def ofInt (n : Int) : Value := .leaf (.int n)

/-- A truth value as a value. -/
def ofBool (b : Bool) : Value := .leaf (.bool b)

/-- A token as a value. -/
def ofToken (t : Token) : Value := .leaf (.token t)

/-- A token or no value. -/
def ofToken? (t : Option Token) : Value := t.elim null ofToken

/-- A list of values as a value. -/
def ofList (vs : List Value) : Value := .list vs

/-- Whether two values count as equal. -/
def same (a b : Value) : Bool := Tree.agree Atom.same a b

/-! ### Readings -/

/-- The texts of all leaves, one after another. -/
def text (v : Value) : String := String.join (v.leaves.map Atom.asText)

/-- The text of a token. -/
def tokenText : Value → Value
  | .leaf (.token t) => ofString t.value
  | v => v

/-- The type of a token. -/
def tokenType : Value → Value
  | .leaf (.token t) => ofString t.type
  | v => v

/-- The line and the column of a token. -/
def tokenPlace : Value → Value
  | .leaf (.token t) => ofList [ofInt t.position.line, ofInt t.position.column]
  | v => v

/-- The number that the text of a value spells in decimal digits, and otherwise the text. -/
def number (v : Value) : Value :=
  let s := v.text
  if s ≠ "" ∧ s.toList.all Char.isDigit then ofInt (Nat.ofDigitChars 10 s.toList 0) else ofString s

/-- How many items a list has. -/
def count : Value → Value
  | .list vs => ofInt vs.length
  | v => v

/-- The list without its nesting. -/
def flat : Value → Value
  | .list vs => .list ((Tree.flatten vs).map .leaf)
  | v => v

/-- An item of a list, counted from zero; no value if there is no such item. -/
def item (i : Nat) : Value → Value
  | .list vs => vs[i]?.getD null
  | _ => null

/-- What a list of two stands for as a first item and the rest: the first item followed by the
leaves of the rest, where no value stands for an empty rest. -/
def consFlat : Value → Value
  | .list [first, .list rest] => .list (first :: (Tree.flatten rest).map .leaf)
  | .list [first, .leaf .null] => .list [first]
  | .list [first, rest] => .list [first, rest]
  | v => v

/-- A total with one more leaf: a number counts, and every other leaf does not. -/
def addLeaf (total : Int) : Atom → Int
  | .int n => total + n
  | _ => total

/-- The sum of the numbers among the leaves of a list. -/
def sum : Value → Value
  | .list vs => ofInt ((Tree.flatten vs).foldl addLeaf 0)
  | v => v

end Value

end Descent
