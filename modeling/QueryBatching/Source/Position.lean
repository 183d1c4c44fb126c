/-
Where in a source text something stands.

A position counts lines, characters of the line, UTF-16 code units of the line, and
bytes of the whole text, all from zero.  A location is a position together with the
one bit that line counting needs: whether the character just passed was a carriage
return, so that a line feed after it belongs to the same line terminator.

Positions are only ever produced by walking over characters with `Location.advance`,
so `Location.advanceAll` over a stretch of text is the whole definition of "the
position after that stretch".
-/

namespace QueryBatching

/-- A place in a source text.  Every count starts at zero. -/
structure Position where
  /-- Lines before this one. -/
  line : Nat := 0
  /-- Characters before this one on the line. -/
  column : Nat := 0
  /-- UTF-16 code units before this one on the line. -/
  column16 : Nat := 0
  /-- Bytes before this one in the text. -/
  offset : Nat := 0
deriving DecidableEq, Repr, Inhabited

namespace Position

/-- Line and column as people count them, from one. -/
def text (position : Position) : String :=
  toString (position.line + 1) ++ ":" ++ toString (position.column + 1)

end Position

/-- A position, and whether a carriage return was just passed. -/
structure Location where
  position : Position := {}
  afterReturn : Bool := false
deriving DecidableEq, Repr, Inhabited

namespace Location

/-- How many UTF-16 code units the character takes. -/
def codeUnits (c : Char) : Nat := if c.toNat < 0x10000 then 1 else 2

/-- The start of the line after this one, when its terminator ends with `c`. -/
def nextLine (here : Location) (c : Char) : Position :=
  { line := here.position.line + 1, column := 0, column16 := 0,
    offset := here.position.offset + c.utf8Size }

/--
The location after the character `c`.  A line feed right after a carriage return ends no
further line: it is the second half of one terminator.
-/
def advance (here : Location) (c : Char) : Location :=
  if c = '\n' then
    if here.afterReturn then
      { position := { here.position with offset := here.position.offset + c.utf8Size },
        afterReturn := false }
    else
      { position := here.nextLine c, afterReturn := false }
  else if c = '\r' then
    { position := here.nextLine c, afterReturn := true }
  else
    { position :=
        { here.position with
          column := here.position.column + 1,
          column16 := here.position.column16 + codeUnits c,
          offset := here.position.offset + c.utf8Size },
      afterReturn := false }

/-- The location after all of `cs`. -/
def advanceAll (here : Location) (cs : List Char) : Location := cs.foldl advance here

@[simp] theorem advanceAll_nil (here : Location) : here.advanceAll [] = here := rfl

@[simp] theorem advanceAll_cons (here : Location) (c : Char) (cs : List Char) :
    here.advanceAll (c :: cs) = (here.advance c).advanceAll cs := rfl

end Location

end QueryBatching
