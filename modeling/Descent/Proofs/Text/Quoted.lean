import Descent.Text.Quoted
import Mathlib.Tactic.IntervalCases

/-!
# Reading text between quotes

What is written between quotes is read one character at a time. `readChar` does this without knowing
which characters are printable and which quote is in use: a character without a backslash stands for
itself, and what follows a backslash says how far to read. So an escape is not mistaken for text
that looks like one, and the written form of a text is that of no other (`decode_encode`).

The written form is a single line, whatever the text holds (`newline_notMem_encode`).
-/

namespace Descent.Text.Quoted

variable {printable : Char → Bool} {q c : Char} {cs rest : List Char} {width n : Nat}

/-! ### Codes -/

/-- The value of a hexadecimal digit. -/
def digitValue (c : Char) : Nat :=
  if c.isDigit then c.toNat - '0'.toNat else c.toNat - 'a'.toNat + 10

theorem digitValue_digitChar (h : n < 16) : digitValue (Nat.digitChar n) = n := by
  interval_cases n <;> rfl

/-- The number that hexadecimal digits stand for. -/
def unhex (cs : List Char) : Nat := cs.foldl (fun n c => 16 * n + digitValue c) 0

theorem unhex_hex (h : n < 16 ^ width) : unhex (hex width n) = n := by
  induction width generalizing n with
  | zero =>
      have hn : n = 0 := by simpa using h
      rw [hn]
      rfl
  | succ width ih =>
      have hdiv : n / 16 < 16 ^ width := by
        apply Nat.div_lt_of_lt_mul
        rwa [← Nat.pow_succ']
      have hdigit := digitValue_digitChar (Nat.mod_lt n (by decide : 0 < 16))
      calc unhex (hex (width + 1) n) = 16 * unhex (hex width (n / 16)) + n % 16 := by
            simp [unhex, hex, hdigit]
        _ = n := by rw [ih hdiv, Nat.div_add_mod]

/-- Reads a character that is written as its code in so many digits. -/
def readCode (width : Nat) (cs : List Char) : Char × List Char :=
  (Char.ofNat (unhex (cs.take width)), cs.drop width)

theorem readCode_hex (width : Nat) (h : c.toNat < 16 ^ width) (rest : List Char) :
    readCode width (hex width c.toNat ++ rest) = (c, rest) := by
  simp [readCode, length_hex, unhex_hex h]

/-! ### One character -/

/-- Reads what stands behind a backslash. -/
def readEscape : List Char → Option (Char × List Char)
  | [] => none
  | 't' :: rest => some ('\t', rest)
  | 'n' :: rest => some ('\n', rest)
  | 'r' :: rest => some ('\r', rest)
  | 'x' :: rest => some (readCode 2 rest)
  | 'u' :: rest => some (readCode 4 rest)
  | 'U' :: rest => some (readCode 8 rest)
  | c :: rest => some (c, rest)

/-- Reads one character, and says what is left. -/
def readChar : List Char → Option (Char × List Char)
  | [] => none
  | c :: rest => if c = '\\' then readEscape rest else some (c, rest)

theorem delimiter_eq (s : List Char) : delimiter s = '\'' ∨ delimiter s = '"' := by
  unfold delimiter
  split <;> simp

/-- The width of a code is always enough. -/
theorem readChar_code (c : Char) (rest : List Char) :
    readChar (code c ++ rest) = some (c, rest) := by
  have h₈ : c.toNat < 16 ^ 8 := c.val.toNat_lt
  unfold code
  split_ifs with h₂ h₄
  · simp [readChar, readEscape, readCode_hex 2 h₂]
  · simp [readChar, readEscape, readCode_hex 4 h₄]
  · simp [readChar, readEscape, readCode_hex 8 h₈]

/-- **A character is read as it is written,** whatever follows. -/
theorem readChar_escape (hq : q = '\'' ∨ q = '"') (c : Char) (rest : List Char) :
    readChar (escape printable q c ++ rest) = some (c, rest) := by
  unfold escape
  split_ifs with hquote htab hfeed hreturn hprintable
  · rcases hquote with rfl | rfl
    · rcases hq with rfl | rfl <;> rfl
    · rfl
  · rw [htab]
    rfl
  · rw [hfeed]
    rfl
  · rw [hreturn]
    rfl
  · simp [readChar, not_or.mp hquote]
  · exact readChar_code c rest

/-! ### A whole text -/

theorem length_le_of_readEscape (h : readEscape cs = some (c, rest)) :
    rest.length ≤ cs.length := by
  unfold readEscape at h
  split at h
  · cases h
  all_goals
    cases h
    simp only [List.length_cons, List.length_drop]
    omega

theorem length_lt_of_readChar (h : readChar cs = some (c, rest)) : rest.length < cs.length := by
  cases cs with
  | nil => cases h
  | cons d cs =>
      rw [readChar] at h
      split_ifs at h
      · exact Nat.lt_succ_of_le (length_le_of_readEscape h)
      · cases h
        exact Nat.lt_succ_self _

/-- Reads characters as long as there are any. -/
def readAll (cs : List Char) : List Char :=
  match h : readChar cs with
  | none => []
  | some (c, rest) =>
    have := length_lt_of_readChar h
    c :: readAll rest
termination_by cs.length

theorem readAll_of_some (h : readChar cs = some (c, rest)) : readAll cs = c :: readAll rest := by
  rw [readAll]
  split
  next h' =>
    rw [h] at h'
    cases h'
  next h' =>
    rw [h] at h'
    cases h'
    rfl

theorem readAll_flatMap_escape (hq : q = '\'' ∨ q = '"') (s : List Char) :
    readAll (s.flatMap (escape printable q)) = s := by
  induction s with
  | nil => rw [List.flatMap_nil, readAll]; rfl
  | cons c s ih => rw [List.flatMap_cons, readAll_of_some (readChar_escape hq c _), ih]

/-- The text that stands between two quotes. -/
def decode (cs : List Char) : List Char := readAll cs.tail.dropLast

/-- **A text is read back from its written form,** whichever characters are printable. -/
theorem decode_encode (printable : Char → Bool) (s : List Char) :
    decode (encode printable s) = s := by
  rw [decode, encode, List.cons_append, List.tail_cons, List.dropLast_concat]
  exact readAll_flatMap_escape (delimiter_eq s) s

/-! ### One line -/

theorem newline_notMem_hex (width n : Nat) : '\n' ∉ hex width n := by
  induction width generalizing n with
  | zero => simp [hex]
  | succ width ih => simp [hex, ih, (Nat.digitChar_ne '\n' rfl).symm]

theorem newline_notMem_escape (hq : q = '\'' ∨ q = '"') (c : Char) :
    '\n' ∉ escape printable q c := by
  unfold escape
  split_ifs with hquote htab hfeed hreturn hprintable
  · rcases hquote with rfl | rfl
    · rcases hq with rfl | rfl <;> decide
    · decide
  · decide
  · decide
  · decide
  · simpa using Ne.symm hfeed
  · unfold code
    split_ifs <;> simp [newline_notMem_hex]

/-- **The written form of a text is one line.** -/
theorem newline_notMem_encode (printable : Char → Bool) (s : List Char) :
    '\n' ∉ encode printable s := by
  have hq := delimiter_eq s
  have hdelimiter : '\n' ≠ delimiter s := by rcases hq with h | h <;> rw [h] <;> decide
  simp [encode, hdelimiter, newline_notMem_escape hq]

end Descent.Text.Quoted
