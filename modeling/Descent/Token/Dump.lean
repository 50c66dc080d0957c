import Descent.Token
import Descent.Text.Printable
import Descent.Text.Quoted

/-!
# Listing tokens

A dump has one line per token: the token's index, its type, its position and its value between
quotes. Index and type are padded, so that the lines stand in columns while there are at most a
thousand tokens and the types have at most eighteen characters; longer ones push the rest of their
line to the right.
-/

namespace Descent

/-- The written form of a text: between quotes, with everything escaped that is not printable. -/
def quoted (s : String) : String :=
  String.ofList (Text.Quoted.encode Text.isPrintable s.toList)

namespace Token

/-- A number with zeros before it, to at least three digits. -/
def paddedIndex (i : Nat) : List Char :=
  let digits := (toString i).toList
  List.replicate (3 - digits.length) '0' ++ digits

/-- A type with spaces after it, to at least eighteen characters. -/
def paddedType (type : TokenType) : List Char :=
  type.toList ++ List.replicate (18 - type.length) ' '

/-- The line for the token with index `i`, its line feed included. -/
def dumpLine (i : Nat) (t : Token) : String :=
  String.ofList (paddedIndex i) ++ " " ++ String.ofList (paddedType t.type) ++
    " at=" ++ toString t.position ++ " value=" ++ quoted t.value ++ "\n"

/-- The lines for a list of tokens, numbered from zero. -/
def dump (tokens : List Token) : String :=
  String.join (tokens.zipIdx.map fun p => dumpLine p.2 p.1)

end Token

end Descent
