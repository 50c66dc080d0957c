import Descent.Listing.Path
import Descent.Token.Dump

/-!
# Files

What there is to know of files in order to read one: a folder holds named files, and a path leads to
one of them, to a directory, or nowhere.
-/

namespace Descent

/-- Why a file cannot be read. -/
inductive FileError
  /-- The path leads nowhere. -/
  | notFound (path : Path)
  /-- The path goes on after a file. -/
  | notADirectory (path : Path)
  /-- The path leads to a directory. -/
  | isADirectory (path : Path)
  /-- The file is not valid UTF-8. -/
  | notText
deriving DecidableEq, Repr

namespace FileError

/-- The words shown, with the number under which the system files the error. -/
def message : FileError → String
  | notFound path => "[Errno 2] No such file or directory: " ++ quoted path.toString
  | notADirectory path => "[Errno 20] Not a directory: " ++ quoted path.toString
  | isADirectory path => "[Errno 21] Is a directory: " ++ quoted path.toString
  | notText => "invalid UTF-8"

end FileError

/-- A working directory that holds files and nothing else. -/
abbrev Folder := List (String × ByteArray)

namespace Folder

/-- The bytes of the file that a path leads to. Nothing outside of the folder is known but that the
directories above it exist. -/
def read (folder : Folder) (path : Path) : Except FileError ByteArray :=
  if path.names.all (· = "..") then .error (.isADirectory path)
  else match path.root, path.names with
    | .working, name :: rest =>
      match folder.lookup name, rest with
      | some bytes, [] => .ok bytes
      | some _, _ :: _ => .error (.notADirectory path)
      | none, _ => .error (.notFound path)
    | _, _ => .error (.notFound path)

end Folder

end Descent
