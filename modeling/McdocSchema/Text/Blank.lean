import McdocSchema.Text.RangeTable

/-!
# Blank characters

White space as the language knows it: the ten ranges below. `strip` removes it at both ends of a
text, and a text that neither starts nor ends with it is left as it is.
-/

namespace McdocSchema.Text

/-- The ranges of white space. -/
def blankTable : RangeTable :=
  [(0x0009, 0x000D), (0x001C, 0x0020), (0x0085, 0x0085), (0x00A0, 0x00A0), (0x1680, 0x1680),
  (0x2000, 0x200A), (0x2028, 0x2029), (0x202F, 0x202F), (0x205F, 0x205F), (0x3000, 0x3000)]

/-- White space, the line feed included. -/
def isBlank (c : Char) : Bool :=
  blankTable.holds c

/-- White space within a line. -/
def isInlineBlank (c : Char) : Bool :=
  isBlank c && c != '\n'

/-- Removes blanks at the end. -/
def stripEnd (cs : List Char) : List Char :=
  (cs.reverse.dropWhile isBlank).reverse

/-- Removes blanks at both ends. -/
def strip (cs : List Char) : List Char :=
  stripEnd (cs.dropWhile isBlank)

end McdocSchema.Text
