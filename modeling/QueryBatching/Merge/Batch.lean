/-
Merging the calls of a batch into one operation.

Each call first gets variables of its own: `$id` of call 2 becomes `$c2_id`.  Then its
fragments are registered and its spreads pointed at the emitted names.  What is left are
operations that share nothing by accident, and their selection sets are merged level by
level.

A merged field keeps the arguments and directives of the first field in its slot.  Fields
whose arguments refer to variables never meet across calls, since each call's variables
have their own names.
-/
import QueryBatching.Document.Variables
import QueryBatching.Merge.CallDocument
import QueryBatching.Merge.FragmentRegistry
import QueryBatching.Merge.Level
import QueryBatching.Merge.PathMapping

namespace QueryBatching

/-- The name of a call's variable in the merged operation. -/
def variableName (call : Nat) (name : String) : String :=
  "c" ++ toString call ++ "_" ++ name

/-- Numbers that describe a merge. -/
structure MergeCounts where
  calls : Nat
  mappedFields : Nat
  syntheticAliases : Nat
  fragments : Nat
  renamedFragments : Nat
deriving DecidableEq, Repr, Inhabited

/-- The calls of a batch as one operation. -/
structure MergedBatch where
  operation : Operation
  /-- The fragments of all calls, each once, in order of first appearance. -/
  fragments : List Fragment
  mapping : PathMapping
  counts : MergeCounts
deriving Repr, Inhabited

namespace CallDocument

/-- The call's fragments with its variables under their merged names. -/
def ownFragments (call : CallDocument) : List Fragment :=
  call.fragments.map (Fragment.mapVariables (variableName call.index))

/-- The call's operation with its variables and spreads under their merged names. -/
def ownOperation (call : CallDocument) (renames : FragmentRenames) : Operation :=
  let operation := call.operation.mapVariables (variableName call.index)
  { operation with selections := Selection.mapSpreadsAll renames.apply operation.selections }

end CallDocument

namespace PathMapping

/-- Records one placement. -/
def record (mapping : PathMapping) : Placement → PathMapping
  | .field call own merged => mapping.insert call own merged
  | .fragments call level => mapping.markFragments call level

/-- The mapping that records placements in their order. -/
def ofPlacements (placements : List Placement) : PathMapping := placements.foldl record {}

end PathMapping

namespace MergedBatch

/-- Registers the fragments of calls one after another, and gives each call's own operation. -/
def prepare (registry : FragmentRegistry) :
    List CallDocument → FragmentRegistry × List (Nat × Operation)
  | [] => (registry, [])
  | call :: rest =>
    let (registry, renames) := registry.register call.index call.ownFragments
    let (final, operations) := prepare registry rest
    (final, (call.index, call.ownOperation renames) :: operations)

/-- The directives with those left out whose text has come before. -/
def distinctDirectives (directives : List Directive) : List Directive :=
  directives.foldl (fun kept directive =>
    if kept.any fun other => other.text == directive.text then kept
    else kept ++ [directive]) []

/-- The name of the merged operation: only a single operation keeps its name. -/
def mergedName? : List (Nat × Operation) → Option String
  | [(_, operation)] => operation.name?
  | _ => none

/-- The merge of operations that have been prepared, all of one kind. -/
def ofOperations (kind : OperationKind) (registry : FragmentRegistry)
    (operations : List (Nat × Operation)) : Except MergeError MergedBatch := do
  let contributions := operations.map fun (call, operation) =>
    ⟨call, FieldPath.root, operation.selections⟩
  let depth := operations.foldl (fun depth (_, operation) =>
    max depth (Selection.depthOfAll operation.selections)) 0
  let merged ← MergedSelections.ofContributions depth FieldPath.root contributions
  let mapping := PathMapping.ofPlacements merged.placements
  return {
    operation := {
      kind,
      name? := mergedName? operations,
      declarations := operations.flatMap fun (_, operation) => operation.declarations,
      directives := distinctDirectives
        (operations.flatMap fun (_, operation) => operation.directives),
      selections := merged.selections,
      position := {} },
    fragments := Assoc.values registry.fragments,
    mapping,
    counts := {
      calls := operations.length,
      mappedFields := mapping.size,
      syntheticAliases := merged.aliased,
      fragments := registry.fragments.length,
      renamedFragments := registry.renamed } }

/-- The merge of the calls of a batch. -/
def ofCalls : List CallDocument → Except MergeError MergedBatch
  | [] => .error .emptyBatch
  | first :: rest =>
    let kind := first.operation.kind
    match rest.find? fun call => call.operation.kind ≠ kind with
    | some other => .error (.mixedOperationKinds kind other.operation.kind)
    | none =>
      let (registry, operations) := prepare {} (first :: rest)
      ofOperations kind registry operations

end MergedBatch

end QueryBatching
