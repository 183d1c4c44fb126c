/-
Names that nothing else has.

A name that is taken is spelled with a number behind it, counting from two until the
spelling fits.  The spellings of one base are all different, so among one more of them
than there are names in the way one must fit; the search is given that many attempts.
-/

namespace QueryBatching.FreshName

/-- The spellings to try: the base itself, then the base with 2, 3, 4, ... behind it. -/
def spelling (base : String) : Nat → String
  | 0 => base
  | count + 1 => base ++ "_" ++ toString (count + 2)

/-- The first spelling from the given one on that fits, or the one after `attempts` that do not. -/
def search (fits : String → Bool) (base : String) : (attempts start : Nat) → String
  | 0, start => spelling base start
  | attempts + 1, start =>
    if fits (spelling base start) then spelling base start
    else search fits base attempts (start + 1)

/-- The first spelling of `base` that is not among the names taken. -/
def find (base : String) (taken : List String) : String :=
  search (fun name => name ∉ taken) base taken.length 0

end QueryBatching.FreshName
