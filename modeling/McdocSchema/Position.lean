/-!
# Positions in a text

A position is a line and a column, both counted from one. `Position.after` gives the position that a
reader reaches: its line is one more than the number of line feeds read, and its column is one more
than the number of characters read since the last of them. Positions that are given from outside may
be any numbers.
-/

namespace McdocSchema

/-- A place in a text. -/
structure Position where
  line : Int
  column : Int
  deriving DecidableEq, Repr, Inhabited

namespace Position

/-- The first place of a text. -/
def start : Position := ⟨1, 1⟩

/-- The place behind the character `c`. -/
def step (p : Position) (c : Char) : Position :=
  if c == '\n' then ⟨p.line + 1, 1⟩ else ⟨p.line, p.column + 1⟩

/-- The place behind the characters `cs`. -/
def advance (p : Position) (cs : List Char) : Position :=
  cs.foldl step p

/-- The place reached after reading `cs` from the start of a text. -/
def after (cs : List Char) : Position :=
  start.advance cs

@[simp] theorem advance_nil (p : Position) : p.advance [] = p := rfl

@[simp] theorem advance_cons (p : Position) (c : Char) (cs : List Char) :
    p.advance (c :: cs) = (p.step c).advance cs := rfl

theorem advance_append (p : Position) (as bs : List Char) :
    p.advance (as ++ bs) = (p.advance as).advance bs := by
  simp [advance]

theorem after_append (as bs : List Char) : after (as ++ bs) = (after as).advance bs :=
  advance_append start as bs

/-- A message that names the place it speaks of. -/
def describe (p : Position) (message : String) : String :=
  "Line " ++ toString p.line ++ ", Column " ++ toString p.column ++ ": " ++ message

end Position

end McdocSchema
