/-
Taking a merged response apart.

A call gets its own fields back under the keys it wrote.  At the root it gets nothing
else, unless it selects fragments there, whose fields are not known one by one.  Further
down, an object starts as a copy of the merged one and the call's fields are written over
it; lists are taken apart item by item, and a field the response lacks is null.

The recursion is on the response.  What becomes of a value depends on the path under
which it is asked for, and one value may be asked for under several, so a value is
rebuilt as a function of the path, and the members of an object are rebuilt before it is
known which of them will be asked for.
-/
import QueryBatching.Json.Basic
import QueryBatching.Merge.PathMapping

namespace QueryBatching.Response

/-- Writes a call's own fields over `base`.  `read` gives the value of a merged key for a path. -/
def writeOwn (mapping : PathMapping) (call : Nat) (level : FieldPath)
    (read : String → FieldPath → Json) (base : List (String × Json)) : List (String × Json) :=
  (mapping.childrenOf call level).foldl (fun members (own, merged) =>
    match own.last?, merged.last? with
    | some key, some mergedKey => Assoc.insert members key (read mergedKey own)
    | _, _ => members) base

/--
The value of a field: rebuilt if the call selects anything below it, and otherwise as it
came.  A missing member is null.
-/
def fieldValue (mapping : PathMapping) (call : Nat) (rebuilt : Assoc String (FieldPath → Json))
    (members : List (String × Json)) (key : String) (path : FieldPath) : Json :=
  if mapping.hasChildren call path then
    match Assoc.get? rebuilt key with
    | some value => value path
    | none => .null
  else (Assoc.get? members key).getD .null

mutual

/-- A value below the root, as the call sees it at a path. -/
def rebuild (mapping : PathMapping) (call : Nat) : Json → FieldPath → Json
  | .array items => fun path => .array (rebuildItems mapping call items path)
  | .object members => fun path =>
    .object (writeOwn mapping call path
      (fieldValue mapping call (rebuildMembers mapping call members) members) members)
  | value => fun _ => value

/-- The items of a list, as the call sees them at a path. -/
def rebuildItems (mapping : PathMapping) (call : Nat) : List Json → FieldPath → List Json
  | [] => fun _ => []
  | item :: rest => fun path =>
    rebuild mapping call item path :: rebuildItems mapping call rest path

/-- The members of an object, each as the call would see it at any path. -/
def rebuildMembers (mapping : PathMapping) (call : Nat) :
    List (String × Json) → Assoc String (FieldPath → Json)
  | [] => []
  | (key, value) :: rest => (key, rebuild mapping call value) :: rebuildMembers mapping call rest

end

/-- The data of a merged response, as the call sees it. -/
def demultiplex (mapping : PathMapping) (call : Nat) : Json → Json
  | .object members =>
    let base := if mapping.selectsFragments call .root then members else []
    .object (writeOwn mapping call .root
      (fieldValue mapping call (rebuildMembers mapping call members) members) base)
  | data => data

end QueryBatching.Response
