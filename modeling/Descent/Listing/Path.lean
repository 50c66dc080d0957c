/-!
# Paths

A path is a sequence of names, read from the root or from the working directory. Writing a path down
leaves some freedom: slashes may be doubled, a slash may stand at the end, and a dot stands for the
directory it is in. `Path.parse` forgets this freedom and `Path.toString` writes the shortest form.
Two dots are a name like any other, because the directory they lead to may not be the one written
before. A path that begins with exactly two slashes is kept apart from one that begins with one.
-/

namespace Descent

/-- Where a path begins. -/
inductive PathRoot
  /-- In the working directory. -/
  | working
  /-- At the root. -/
  | single
  /-- At the root, written with two slashes. -/
  | double
deriving DecidableEq, Repr

/-- The names on the way to a file. -/
structure Path where
  root : PathRoot
  names : List String
deriving DecidableEq, Repr

namespace Path

/-- Where a written path begins. -/
def rootOf : List Char → PathRoot
  | '/' :: '/' :: '/' :: _ => .single
  | '/' :: '/' :: _ => .double
  | '/' :: _ => .single
  | _ => .working

/-- The pieces between slashes. -/
def pieces : List Char → List (List Char)
  | [] => [[]]
  | c :: cs =>
    if c = '/' then [] :: pieces cs
    else match pieces cs with
      | [] => [[c]]
      | p :: ps => (c :: p) :: ps

/-- Reads a path. Pieces that are empty or a dot lead nowhere. -/
def parse (s : String) : Path where
  root := rootOf s.toList
  names := ((pieces s.toList).filter fun p => p ≠ [] ∧ p ≠ ['.']).map String.ofList

/-- The path as it is shown. The working directory itself is a dot. -/
def toString (p : Path) : String :=
  let names := "/".intercalate p.names
  match p.root with
  | .working => if names = "" then "." else names
  | .single => "/" ++ names
  | .double => "//" ++ names

/-- A path whose first name is a tilde begins in the home directory. -/
def expandHome (home : Option Path) (p : Path) : Path :=
  match home, p.root, p.names with
  | some home, .working, "~" :: names => { home with names := home.names ++ names }
  | _, _, _ => p

instance : ToString Path where
  toString := toString

end Path

end Descent
