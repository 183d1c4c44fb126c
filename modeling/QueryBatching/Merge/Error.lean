/-
Why the calls of a batch cannot become one operation.
-/
import QueryBatching.Document.Canonical

namespace QueryBatching

/-- Why a merge failed. -/
inductive MergeError where
  /-- The call selects different fields under one response key at one place. -/
  | conflictingField (call : Nat) (key : String)
  /-- The same field is selected with a selection set and without one. -/
  | selectionShapeMismatch (key : String)
  /-- The first call has one kind of operation and a later call another. -/
  | mixedOperationKinds (expected found : OperationKind)
  /-- There are no calls. -/
  | emptyBatch
deriving DecidableEq, Repr, Inhabited

namespace MergeError

/-- The error in words. -/
def message : MergeError → String
  | conflictingField call key =>
    "call " ++ toString call ++ " selects `" ++ key ++
      "` more than once with different fields or arguments"
  | selectionShapeMismatch key =>
    "`" ++ key ++ "` is selected both as a leaf and with a selection set"
  | mixedOperationKinds expected found =>
    "cannot batch a " ++ found.text ++ " with a " ++ expected.text
  | emptyBatch => "cannot merge an empty batch"

end MergeError

end QueryBatching
