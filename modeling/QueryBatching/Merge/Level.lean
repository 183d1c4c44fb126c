/-
Merging selection sets, one level at a time.

A level is made from the selection sets that several calls contribute at one place.
Their selections are added one after another, in call order.  A field joins the slot of
its signature, or opens a new one at the end; a spread or inline fragment gets a slot of
its own unless one with the same text is there.  What lies below a field is only
collected at its slot, and merged when the whole level is known: all errors of a level
come before those of the levels below.

A slot has the response key its first field asked for, unless that key is taken; then it
gets a key made from the field's name and the number of the call.
-/
import QueryBatching.Merge.Error
import QueryBatching.Merge.FieldPath
import QueryBatching.Merge.FreshName
import QueryBatching.Merge.Signature

namespace QueryBatching

/-- The selection set of one call at the level being merged. -/
structure Contribution where
  call : Nat
  /-- The path of the level in the call's own response. -/
  path : FieldPath
  selections : List Selection
deriving Repr, Inhabited

/-- One selection of a contribution. -/
structure Occurrence where
  call : Nat
  path : FieldPath
  selection : Selection
deriving Repr, Inhabited

/-- Where something that a call selects ended up. -/
inductive Placement where
  /-- The call's field at one path is served at another. -/
  | field (call : Nat) (own merged : FieldPath)
  /-- The call selects fragments at the level of that path. -/
  | fragments (call : Nat) (level : FieldPath)
deriving DecidableEq, Repr, Inhabited

/-- One place of a merged level. -/
inductive Slot where
  /-- A field: what its fields have in common, the field as it is merged, and what lies below it
  if anything does. -/
  | field (signature : FieldSignature) (head : Field) (below? : Option (List Contribution))
  /-- A spread or an inline fragment. -/
  | fragment (selection : Selection)
deriving Repr, Inhabited

namespace Contribution

/-- The selections of a contribution, each with its call and level. -/
def occurrences (contribution : Contribution) : List Occurrence :=
  contribution.selections.map fun selection =>
    ⟨contribution.call, contribution.path, selection⟩

end Contribution

namespace Slot

/-- The response key of a slot that is a field. -/
def key? : Slot → Option String
  | field _ head _ => some head.responseKey
  | fragment _ => none

/-- The merged field of a slot for the signature, and whether anything lies below it. -/
def target? (signature : FieldSignature) : Slot → Option (Field × Bool)
  | field own head below? => if own = signature then some (head, below?.isSome) else none
  | fragment _ => none

/-- Whether the slot is a spread or an inline fragment of the given text. -/
def hasText (text : String) : Slot → Bool
  | field .. => false
  | fragment selection => selection.text == text

/-- The slot with one more contribution below it, if it is the slot for the signature. -/
def extend (signature : FieldSignature) (contribution : Contribution) : Slot → Slot
  | field own head below? =>
    if own = signature then field own head (below?.map (· ++ [contribution]))
    else field own head below?
  | fragment selection => fragment selection

end Slot

/-- A level while selections are added to it. -/
structure Level where
  slots : List Slot := []
  /-- The fields each call has selected so far, one for each of its response keys. -/
  selected : List (Nat × FieldSignature) := []
  placements : List Placement := []
  /-- How many slots have a key that none of their fields asked for. -/
  aliased : Nat := 0
deriving Repr, Inhabited

namespace Level

/-- The response keys of the level's fields. -/
def takenKeys (level : Level) : List String := level.slots.filterMap Slot.key?

/-- The signature under which a call has selected a response key, if it has. -/
def selectedAs? (level : Level) (call : Nat) (key : String) : Option FieldSignature :=
  (level.selected.find? fun (other, signature) =>
    other = call && signature.responseKey = key).map Prod.snd

/-- Notes what a call selects under a response key, the first time it does. -/
def select (level : Level) (call : Nat) (signature : FieldSignature) : Level :=
  if (level.selectedAs? call signature.responseKey).isSome then level
  else { level with selected := level.selected ++ [(call, signature)] }

/-- The response key for a new slot of a call's field. -/
def freeKey (level : Level) (call : Nat) (head : Field) : String :=
  if head.responseKey ∈ level.takenKeys then
    FreshName.find (head.name ++ "_" ++ toString call) level.takenKeys
  else head.responseKey

/-- The merged field for a call's field that has no slot yet. -/
def newHead (level : Level) (call : Nat) (head : Field) : Field :=
  let key := level.freeKey call head
  { head with alias? := if key = head.name then none else some key }

/-- The level with a new slot for a call's field. -/
def openSlot (level : Level) (call : Nat) (head : Field) (hasBelow : Bool) : Level :=
  { level with
    slots := level.slots ++
      [.field head.signature (level.newHead call head) (if hasBelow then some [] else none)],
    aliased := level.aliased + if head.responseKey ∈ level.takenKeys then 1 else 0 }

/-- The level with a call's field in the slot of `target`, which it is known to fit. -/
def fillSlot (level : Level) (merged : FieldPath) (call : Nat) (path : FieldPath) (head : Field)
    (nested? : Option (List Selection)) (target : Field) : Level :=
  let own := path.child head.responseKey
  { level with
    slots := match nested? with
      | some nested => level.slots.map (Slot.extend head.signature ⟨call, own, nested⟩)
      | none => level.slots,
    placements := level.placements ++
      [.field call own (merged.child target.responseKey)] }

/-- Adds a call's field.  `merged` is the path of the level in the merged response. -/
def addField (level : Level) (merged : FieldPath) (call : Nat) (path : FieldPath)
    (head : Field) (nested? : Option (List Selection)) : Except MergeError Level :=
  let signature := head.signature
  if (level.selectedAs? call signature.responseKey).any (· ≠ signature) then
    .error (.conflictingField call signature.responseKey)
  else
    let level := level.select call signature
    match level.slots.findSome? (Slot.target? signature) with
    | none =>
      .ok ((level.openSlot call head nested?.isSome).fillSlot merged call path head nested?
        (level.newHead call head))
    | some (target, hasBelow) =>
      if hasBelow = nested?.isSome then
        .ok (level.fillSlot merged call path head nested? target)
      else .error (.selectionShapeMismatch signature.responseKey)

/-- Adds a call's spread or inline fragment. -/
def addFragment (level : Level) (call : Nat) (path : FieldPath) (selection : Selection) : Level :=
  { level with
    slots :=
      if level.slots.any (Slot.hasText selection.text) then level.slots
      else level.slots ++ [.fragment selection],
    placements := level.placements ++ [.fragments call path] }

/-- Adds one selection of a call. -/
def add (merged : FieldPath) (level : Level) (occurrence : Occurrence) :
    Except MergeError Level :=
  match occurrence.selection with
  | .field head nested? =>
    level.addField merged occurrence.call occurrence.path head nested?
  | selection => .ok (level.addFragment occurrence.call occurrence.path selection)

/-- The level that several contributions make. -/
def ofContributions (merged : FieldPath) (contributions : List Contribution) :
    Except MergeError Level :=
  (contributions.flatMap Contribution.occurrences).foldlM (add merged) {}

end Level

/-- Merged selections, where everything in them came from, and how many keys were made up. -/
structure MergedSelections where
  selections : List Selection := []
  placements : List Placement := []
  aliased : Nat := 0
deriving Repr, Inhabited

namespace MergedSelections

/-- The levels below several slots together, in the order of the slots. -/
def concat (parts : List MergedSelections) : MergedSelections :=
  { selections := parts.flatMap selections,
    placements := parts.flatMap placements,
    aliased := parts.foldr (fun part count => part.aliased + count) 0 }

/--
Merges contributions at the path `merged` and everything below them.  `depth` is the
number of levels the contributions have; below that there is nothing left to merge.
-/
def ofContributions : (depth : Nat) → (merged : FieldPath) → List Contribution →
    Except MergeError MergedSelections
  | 0, _, _ => .ok {}
  | depth + 1, merged, contributions => do
    let level ← Level.ofContributions merged contributions
    let parts ← level.slots.mapM fun slot =>
      match slot with
      | .fragment selection => .ok { selections := [selection] }
      | .field _ head none => .ok { selections := [.field head none] }
      | .field _ head (some below) => do
        let nested ← ofContributions depth (merged.child head.responseKey) below
        return { nested with selections := [.field head (some nested.selections)] }
    let below := concat parts
    return {
      selections := below.selections,
      placements := level.placements ++ below.placements,
      aliased := level.aliased + below.aliased }

end MergedSelections

end QueryBatching
