/-!
# Classes of characters

A `CharClass` is a set of characters given by ranges, or the complement of such a set. It is what a
tokenizer rule tests when it accepts more than one character. The classes that rules name most often
are defined here: the letters and digits of ASCII, the line feed, white space, and everything but
the line feed.
-/

namespace Descent

/-- A finite union of ranges of characters, or what lies outside of it. -/
structure CharClass where
  /-- The first and the last character of each range; both belong to it. -/
  ranges : List (Char × Char)
  /-- Whether the class is what lies outside the ranges. -/
  negated : Bool := false
deriving DecidableEq, Repr

namespace CharClass

/-- Whether one of the ranges holds `c`. -/
def inRanges (k : CharClass) (c : Char) : Bool :=
  k.ranges.any fun r => decide (r.1 ≤ c ∧ c ≤ r.2)

/-- Whether `c` belongs to the class. -/
def contains (k : CharClass) (c : Char) : Bool :=
  k.inRanges c != k.negated

/-- The letters of ASCII, of either case. -/
def letter : CharClass := { ranges := [('a', 'z'), ('A', 'Z')] }

/-- The digits of ASCII. -/
def digit : CharClass := { ranges := [('0', '9')] }

/-- The line feed alone. -/
def newline : CharClass := { ranges := [('\n', '\n')] }

/-- Every character but the line feed. -/
def notNewline : CharClass := { ranges := [('\n', '\n')], negated := true }

/-- White space in all scripts: the controls that separate lines, fields and records, the space, and
the spaces and separators of Unicode. -/
def whitespace : CharClass where
  ranges :=
    [('\x09', '\x0d'), ('\x1c', '\x20'), ('\u0085', '\u0085'), ('\u00a0', '\u00a0'),
      ('\u1680', '\u1680'), ('\u2000', '\u200a'), ('\u2028', '\u2029'), ('\u202f', '\u202f'),
      ('\u205f', '\u205f'), ('\u3000', '\u3000')]

end CharClass

end Descent
