/-
The fragments of a batch, each under a name of its own.

Calls may define different fragments under one name, and the same fragment over and over.
The registry emits a fragment under its own name as long as that name is free or stands
for the same canonical text, and otherwise under a name made from the number of the call.
So equal definitions are shared and different ones never collide.

The text of a fragment contains the names of the fragments it spreads, so the name of one
depends on the names of others.  `register` therefore assigns names again and again, each
time with the spreads renamed as found before, until the assignment repeats itself or as
many rounds as there are fragments, and one more, have passed.
-/
import QueryBatching.Assoc
import QueryBatching.Document.Canonical
import QueryBatching.Document.Spreads
import QueryBatching.Merge.FreshName

namespace QueryBatching

/-- The emitted name of each fragment of a call. -/
abbrev FragmentRenames := Assoc String String

namespace FragmentRenames

/-- The emitted name of a fragment; its own if it has not been assigned one. -/
def apply (renames : FragmentRenames) (name : String) : String :=
  (Assoc.get? renames name).getD name

end FragmentRenames

namespace Fragment

/-- The fragment with its spreads pointed at emitted names. -/
def renameSpreads (fragment : Fragment) (renames : FragmentRenames) : Fragment :=
  { fragment with selections := Selection.mapSpreadsAll renames.apply fragment.selections }

/-- The fragment as it is emitted: under its emitted name, its spreads pointed at theirs. -/
def emitted (fragment : Fragment) (renames : FragmentRenames) : Fragment :=
  { fragment.renameSpreads renames with name := renames.apply fragment.name }

end Fragment

/-- The fragments emitted so far. -/
structure FragmentRegistry where
  /-- Each fragment under its emitted name, in order of first appearance. -/
  fragments : Assoc String Fragment := []
  /-- How many times a fragment was emitted under another name than its own. -/
  renamed : Nat := 0
deriving Repr, Inhabited

namespace FragmentRegistry

/--
Whether a fragment can be emitted under `name`: no fragment of its own call has claimed
the name, and what is registered under it, if anything, has the same text.
-/
def fits (registry : FragmentRegistry) (fragment : Fragment) (claimed : List String)
    (name : String) : Bool :=
  name ∉ claimed &&
    match Assoc.get? registry.fragments name with
    | some existing => existing.text == { fragment with name := name }.text
    | none => true

/-- The name to emit a fragment of a call under: its own, or one made from the call's number. -/
def freeName (registry : FragmentRegistry) (call : Nat) (fragment : Fragment)
    (claimed : List String) : String :=
  let fits := registry.fits fragment claimed
  if fits fragment.name then fragment.name
  else
    FreshName.search fits (fragment.name ++ "_" ++ toString call)
      (claimed.length + registry.fragments.length) 0

/-- One round of assigning names, after the fragments before have claimed and been assigned some. -/
def assignFrom (registry : FragmentRegistry) (call : Nat) (renames : FragmentRenames)
    (claimed : List String) (assigned : FragmentRenames) : List Fragment → FragmentRenames
  | [] => assigned
  | fragment :: rest =>
    let name := registry.freeName call (fragment.renameSpreads renames) claimed
    assignFrom registry call renames (name :: claimed)
      (Assoc.insert assigned fragment.name name) rest

/-- One round of assigning names, with the spreads renamed as in the round before. -/
def assign (registry : FragmentRegistry) (call : Nat) (fragments : List Fragment)
    (renames : FragmentRenames) : FragmentRenames :=
  assignFrom registry call renames [] [] fragments

/-- Assigns names until a round changes nothing, in at most so many rounds. -/
def settle (registry : FragmentRegistry) (call : Nat) (fragments : List Fragment) :
    (rounds : Nat) → FragmentRenames → FragmentRenames
  | 0, renames => renames
  | rounds + 1, renames =>
    let next := registry.assign call fragments renames
    if next = renames then renames else settle registry call fragments rounds next

/-- The emitted names of the fragments of a call. -/
def renamesFor (registry : FragmentRegistry) (call : Nat) (fragments : List Fragment) :
    FragmentRenames :=
  registry.settle call fragments (fragments.length + 1) []

/-- Emits one fragment, unless its emitted name is there already. -/
def emit (renames : FragmentRenames) (registry : FragmentRegistry) (fragment : Fragment) :
    FragmentRegistry :=
  let emitted := fragment.emitted renames
  { fragments := Assoc.insertNew registry.fragments emitted.name emitted,
    renamed := registry.renamed + if emitted.name = fragment.name then 0 else 1 }

/-- Emits the fragments of a call, and says under which names. -/
def register (registry : FragmentRegistry) (call : Nat) (fragments : List Fragment) :
    FragmentRegistry × FragmentRenames :=
  let renames := registry.renamesFor call fragments
  (fragments.foldl (emit renames) registry, renames)

end FragmentRegistry

end QueryBatching
