/-!
# Text between quotes

The written form of a text is a quote, the text with some characters escaped, and the same quote
again. Three rules make it readable on one line whatever the text holds.

* The quote is an apostrophe, unless the text has apostrophes and no quotation marks: then it is a
  quotation mark, and nothing inside needs an escape for its sake.
* A backslash stands before the quote in use and before a backslash. Tab, line feed and carriage
  return are written `\t`, `\n` and `\r`.
* Any other character that is not printable is written as its code in lower-case hexadecimal: two
  digits after `\x` below 0x100, four after `\u` below 0x10000, eight after `\U` above.

Which characters count as printable is a parameter: the rules above are unambiguous for every
choice.
-/

namespace Descent.Text.Quoted

/-- The quotation mark for a text that has apostrophes only, otherwise the apostrophe. -/
def delimiter (s : List Char) : Char :=
  if '\'' ∈ s ∧ '"' ∉ s then '"' else '\''

/-- The lowest `width` hexadecimal digits of `n`, most significant first, in lower case. -/
def hex : Nat → Nat → List Char
  | 0, _ => []
  | width + 1, n => hex width (n / 16) ++ [Nat.digitChar (n % 16)]

/-- The code of a character that cannot be shown, in the shortest of the three widths. -/
def code (c : Char) : List Char :=
  if c.toNat < 0x100 then '\\' :: 'x' :: hex 2 c.toNat
  else if c.toNat < 0x10000 then '\\' :: 'u' :: hex 4 c.toNat
  else '\\' :: 'U' :: hex 8 c.toNat

/-- One character as it is written between quotes `q`. -/
def escape (printable : Char → Bool) (q c : Char) : List Char :=
  if c = q ∨ c = '\\' then ['\\', c]
  else if c = '\t' then ['\\', 't']
  else if c = '\n' then ['\\', 'n']
  else if c = '\r' then ['\\', 'r']
  else if printable c then [c]
  else code c

/-- The written form of a text: its quote, its characters escaped, its quote. -/
def encode (printable : Char → Bool) (s : List Char) : List Char :=
  delimiter s :: s.flatMap (escape printable (delimiter s)) ++ [delimiter s]

/-- A written code has exactly as many digits as its width says. -/
theorem length_hex : ∀ width n, (hex width n).length = width
  | 0, _ => rfl
  | width + 1, n => by simp [hex, length_hex width]

end Descent.Text.Quoted
