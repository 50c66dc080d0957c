import Descent.Token.Dump
import Descent.Proofs.Text.Quoted

/-!
# Reading a dump

A dump has one line per token, and the tokens can be read back from it. The fields of a line end at
marks that do not occur in them: an index and a type at a space, a line at a colon, a column at a
space. The value comes last and is read by the rules for quoted text. A type longer than its column
and an index of more than three digits only move what follows, since no field is read by its place
in the line.

* `readRow_row` reads one line, whatever characters count as printable.
* `newline_notMem_row` says that it is one line.
* `readDump_written` puts the lines together.

Types must not contain spaces, nor line feeds. Values may contain anything.
-/

namespace Descent.Token

open Text

variable {mark : Char} {cs : List Char} {t : Token} {ts ts' : List Token}

/-! ### Fields up to a mark -/

/-- What stands before the first mark. -/
def upTo (mark : Char) (cs : List Char) : List Char := cs.takeWhile (· ≠ mark)

/-- What stands behind the first mark. -/
def past (mark : Char) (cs : List Char) : List Char := (cs.dropWhile (· ≠ mark)).tail

theorem forall_ne_of_notMem (h : mark ∉ cs) : ∀ c ∈ cs, decide (c ≠ mark) = true := by
  intro c hc
  simpa using ne_of_mem_of_not_mem hc h

theorem upTo_append (h : mark ∉ cs) (rest : List Char) : upTo mark (cs ++ mark :: rest) = cs := by
  rw [upTo, List.takeWhile_append_of_pos (forall_ne_of_notMem h)]
  simp

theorem past_append (h : mark ∉ cs) (rest : List Char) : past mark (cs ++ mark :: rest) = rest := by
  rw [past, List.dropWhile_append_of_pos (forall_ne_of_notMem h)]
  simp

/-! ### Numbers -/

/-- The number that decimal digits stand for. -/
def readNumber (cs : List Char) : Nat := Nat.ofDigitChars 10 cs 0

theorem notMem_toDigits (h : mark.isDigit = false) (n : Nat) : mark ∉ Nat.toDigits 10 n := by
  intro hmark
  rw [Nat.isDigit_of_mem_toDigits (by decide) (by decide) hmark] at h
  cases h

theorem notMem_paddedIndex (h : mark.isDigit = false) (i : Nat) : mark ∉ paddedIndex i := by
  have hzero : mark ≠ '0' := by
    rintro rfl
    cases h
  simp [paddedIndex, notMem_toDigits h, hzero]

/-! ### Lines -/

/-- The line of a token without its line feed, if these characters are printable. -/
def row (printable : Char → Bool) (i : Nat) (t : Token) : List Char :=
  paddedIndex i ++ ' ' :: (t.type.toList ++ ' ' ::
    ((List.replicate (18 - t.type.length) ' ' ++ ['a', 't']) ++ '=' ::
      (Nat.toDigits 10 t.position.line ++ ':' :: (Nat.toDigits 10 t.position.column ++ ' ' ::
        (['v', 'a', 'l', 'u', 'e'] ++ '=' :: Quoted.encode printable t.value.toList)))))

theorem toList_dumpLine (i : Nat) (t : Token) :
    (dumpLine i t).toList = row isPrintable i t ++ ['\n'] := by
  have hposition : toString t.position =
      toString t.position.line ++ ":" ++ toString t.position.column := rfl
  have hspaces (n : Nat) (rest : List Char) :
      List.replicate n ' ' ++ ' ' :: rest = ' ' :: (List.replicate n ' ' ++ rest) := by
    rw [← List.cons_append, ← List.replicate_succ, List.replicate_succ', List.append_assoc]
    rfl
  simp [dumpLine, row, paddedType, quoted, hposition, hspaces]

/-- The token that a line is about. -/
def readRow (row : List Char) : Option Token := do
  let type := past ' ' row
  let line := past '=' (past ' ' type)
  let column := past ':' line
  let position ←
    (SourcePosition.ofInts (readNumber (upTo ':' line)) (readNumber (upTo ' ' column))).toOption
  return {
    type := String.ofList (upTo ' ' type)
    value := String.ofList (Quoted.decode (past '=' column))
    position }

/-- **A line is read back.** -/
theorem readRow_row (h : ' ' ∉ t.type.toList) (printable : Char → Bool) (i : Nat) :
    readRow (row printable i t) = some t := by
  have hindex := notMem_paddedIndex (rfl : ' '.isDigit = false) i
  have hat : '=' ∉ List.replicate (18 - t.type.length) ' ' ++ ['a', 't'] := by simp
  have hline := notMem_toDigits (rfl : ':'.isDigit = false) t.position.line
  have hcolumn := notMem_toDigits (rfl : ' '.isDigit = false) t.position.column
  have hequals := notMem_toDigits (rfl : '='.isDigit = false) t.position.column
  have hvalue : '=' ∉ Nat.toDigits 10 t.position.column ++ ' ' :: ['v', 'a', 'l', 'u', 'e'] := by
    simp [hequals]
  have hplace : SourcePosition.ofInts t.position.line t.position.column = .ok t.position :=
    ErrorPosition.source_ofSource t.position 0
  simp only [readRow, row, past_append hindex, past_append h, upTo_append h, past_append hat,
    past_append hline, upTo_append hline, upTo_append hcolumn]
  rw [← List.cons_append, ← List.append_assoc, past_append hvalue]
  simp [readNumber, hplace, Quoted.decode_encode, Except.toOption]

/-- A line holds no line feed, if the type does not. -/
theorem newline_notMem_row (h : '\n' ∉ t.type.toList) (printable : Char → Bool) (i : Nat) :
    '\n' ∉ row printable i t := by
  have hindex := notMem_paddedIndex (rfl : '\n'.isDigit = false) i
  have hdigits := notMem_toDigits (rfl : '\n'.isDigit = false)
  simp [row, hindex, h, hdigits, Quoted.newline_notMem_encode]

/-! ### Dumps -/

/-- The lines of these tokens, numbered from `n`. -/
def rows (printable : Char → Bool) (n : Nat) (ts : List Token) : List (List Char) :=
  (ts.zipIdx n).map fun p => row printable p.2 p.1

theorem rows_cons (printable : Char → Bool) (n : Nat) (t : Token) (ts : List Token) :
    rows printable n (t :: ts) = row printable n t :: rows printable (n + 1) ts := rfl

theorem length_rows (printable : Char → Bool) (n : Nat) (ts : List Token) :
    (rows printable n ts).length = ts.length := by
  simp [rows]

theorem newline_notMem_rows (h : ∀ t ∈ ts, '\n' ∉ t.type.toList) (printable : Char → Bool)
    (n : Nat) : ∀ row ∈ rows printable n ts, '\n' ∉ row := by
  induction ts generalizing n with
  | nil => simp [rows]
  | cons t ts ih =>
      rw [List.forall_mem_cons] at h
      rw [rows_cons, List.forall_mem_cons]
      exact ⟨newline_notMem_row h.1 printable n, ih h.2 (n + 1)⟩

/-- The lines of these tokens, each with its line feed. -/
def written (printable : Char → Bool) (ts : List Token) : List Char :=
  (rows printable 0 ts).flatMap (· ++ ['\n'])

theorem toList_dump (ts : List Token) : (dump ts).toList = written isPrintable ts := by
  simp [dump, written, rows, String.toList_join, List.flatMap_map, toList_dumpLine]

/-- Lines that each end with a line feed and hold no other are found again. -/
theorem splitOn_flatMap {rows : List (List Char)} (h : ∀ row ∈ rows, '\n' ∉ row) :
    (rows.flatMap (· ++ ['\n'])).splitOn '\n' = rows ++ [[]] := by
  induction rows with
  | nil => rfl
  | cons row rows ih =>
      rw [List.forall_mem_cons] at h
      rw [List.flatMap_cons, List.append_assoc, List.singleton_append,
        List.splitOn_append_cons_self_of_not_mem h.1, ih h.2, List.cons_append]

/-- The tokens of a dump, line by line. -/
def readDump (cs : List Char) : Option (List Token) :=
  (cs.splitOn '\n').dropLast.mapM readRow

theorem mapM_readRow_rows (h : ∀ t ∈ ts, ' ' ∉ t.type.toList) (printable : Char → Bool) (n : Nat) :
    (rows printable n ts).mapM readRow = some ts := by
  induction ts generalizing n with
  | nil => rfl
  | cons t ts ih =>
      rw [List.forall_mem_cons] at h
      rw [rows_cons, List.mapM_cons, readRow_row h.1, ih h.2]
      rfl

/-- **A dump is read back,** whichever characters are printable. -/
theorem readDump_written (h : ∀ t ∈ ts, ' ' ∉ t.type.toList ∧ '\n' ∉ t.type.toList)
    (printable : Char → Bool) : readDump (written printable ts) = some ts := by
  have hrows := newline_notMem_rows (fun t ht => (h t ht).2) printable 0
  rw [readDump, written, splitOn_flatMap hrows, List.dropLast_concat]
  exact mapM_readRow_rows (fun t ht => (h t ht).1) printable 0

/-- **A dump determines its tokens.** If no type contains a space or a line feed, then the dump of
the tokens is made of as many lines as there are tokens, each ended by its only line feed. No other
list of such tokens has the same dump: types, values, positions and their order can be read off it.

A dump could be read just as well if other characters were printable. -/
theorem dump_determines_tokens (h : ∀ t ∈ ts, ' ' ∉ t.type.toList ∧ '\n' ∉ t.type.toList)
    (h' : ∀ t ∈ ts', ' ' ∉ t.type.toList ∧ '\n' ∉ t.type.toList) :
    (∃ lines : List (List Char), lines.length = ts.length ∧ (∀ line ∈ lines, '\n' ∉ line) ∧
      (dump ts).toList = lines.flatMap (· ++ ['\n'])) ∧
    (dump ts = dump ts' → ts = ts') ∧
    (dump ts).toList = written isPrintable ts ∧
    ∀ printable, readDump (written printable ts) = some ts := by
  refine ⟨⟨rows isPrintable 0 ts, length_rows _ _ _, ?_, toList_dump ts⟩, fun hdump => ?_,
    toList_dump ts, readDump_written h⟩
  · exact newline_notMem_rows (fun t ht => (h t ht).2) isPrintable 0
  · have hread : readDump (dump ts).toList = some ts := by rw [toList_dump, readDump_written h]
    rw [hdump, toList_dump, readDump_written h'] at hread
    exact (Option.some.inj hread).symm

/-- A line feed, and a backslash before an `n`: both are written with a backslash and an `n`, and
yet their dumps differ. The types are longer than their column, and empty. -/
theorem dump_determines_tokens_with_escapes :
    let ts : List Token :=
      [⟨"more_than_eighteen_characters", "'\n", .start⟩, ⟨"", "\"", .start⟩]
    let ts' : List Token :=
      [⟨"more_than_eighteen_characters", "'\\n", .start⟩, ⟨"", "\"", .start⟩]
    (∀ t ∈ ts, ' ' ∉ t.type.toList ∧ '\n' ∉ t.type.toList) ∧
    (∀ t ∈ ts', ' ' ∉ t.type.toList ∧ '\n' ∉ t.type.toList) ∧
    (∃ lines : List (List Char), lines.length = 2 ∧ (∀ line ∈ lines, '\n' ∉ line) ∧
      (dump ts).toList = lines.flatMap (· ++ ['\n'])) ∧
    dump ts ≠ dump ts' ∧ ∀ printable, readDump (written printable ts) = some ts := by
  intro ts ts'
  have h : ∀ t ∈ ts, ' ' ∉ t.type.toList ∧ '\n' ∉ t.type.toList := by decide
  have h' : ∀ t ∈ ts', ' ' ∉ t.type.toList ∧ '\n' ∉ t.type.toList := by decide
  obtain ⟨hlines, hdump, -, hread⟩ := dump_determines_tokens h h'
  exact ⟨h, h', hlines, fun hsame => absurd (hdump hsame) (by decide), hread⟩

end Descent.Token
