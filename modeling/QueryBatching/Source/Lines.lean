/-
The lines of a source text.

A line ends at a line feed, at a carriage return, or at the pair of both, which counts
once.  The last line has no terminator, so a text always has one line more than it has
terminators, and the empty text has one empty line.
-/

namespace QueryBatching.Source

/-- The lines of `cs`, without their terminators. -/
def lines : List Char → List (List Char)
  | [] => [[]]
  | '\r' :: '\n' :: cs => [] :: lines cs
  | c :: cs =>
    if c = '\n' ∨ c = '\r' then [] :: lines cs
    else match lines cs with
      | line :: rest => (c :: line) :: rest
      | [] => [[c]]

/-- The line of `source` with the given number, counted from zero. -/
def line? (source : String) (number : Nat) : Option String :=
  (lines source.toList)[number]?.map String.ofList

end QueryBatching.Source
