/-
Where the fields of each call ended up in the merged operation.

For every call the mapping takes the path of a field in the call's own response to its
path in the merged response.  Calls and paths keep the order in which they first came.
Taking a merged response apart goes down level by level, so the paths of a call are also
indexed by their parents; both tables are written by `insert` alone, and only the first
insertion of a path adds it to its parent's children.

Fields inside fragments are not mapped one by one.  The mapping only records at which
levels a call selects fragments at all.
-/
import QueryBatching.Assoc
import QueryBatching.Merge.FieldPath

namespace QueryBatching

/-- Where the fields of each call ended up. -/
structure PathMapping where
  /-- For each call, the merged path of each of its paths. -/
  calls : Assoc Nat (Assoc FieldPath FieldPath) := []
  /-- For each call and path, the paths one key further down. -/
  children : Assoc (Nat × FieldPath) (List FieldPath) := []
  /-- The calls and paths of the levels that select fragments. -/
  fragmentLevels : List (Nat × FieldPath) := []
deriving DecidableEq, Repr, Inhabited

namespace PathMapping

/-- The entries of a call, in order of their first insertion. -/
def entries (mapping : PathMapping) (call : Nat) : Assoc FieldPath FieldPath :=
  (Assoc.get? mapping.calls call).getD []

/-- The merged path of a call's field. -/
def get? (mapping : PathMapping) (call : Nat) (own : FieldPath) : Option FieldPath :=
  Assoc.get? (mapping.entries call) own

/-- Records the merged path of a call's field.  The root is no field and is not recorded. -/
def insert (mapping : PathMapping) (call : Nat) (own merged : FieldPath) : PathMapping :=
  match own.parent? with
  | none => mapping
  | some parent =>
    let entries := mapping.entries call
    { mapping with
      calls := Assoc.insert mapping.calls call (Assoc.insert entries own merged),
      children :=
        if Assoc.contains entries own then mapping.children
        else Assoc.push mapping.children (call, parent) own }

/-- Records that a call selects fragments at a level. -/
def markFragments (mapping : PathMapping) (call : Nat) (level : FieldPath) : PathMapping :=
  if (call, level) ∈ mapping.fragmentLevels then mapping
  else { mapping with fragmentLevels := mapping.fragmentLevels ++ [(call, level)] }

/-- Whether a call selects fragments at a level. -/
def selectsFragments (mapping : PathMapping) (call : Nat) (level : FieldPath) : Bool :=
  (call, level) ∈ mapping.fragmentLevels

/-- The calls that have entries, in order of their first one. -/
def callIndices (mapping : PathMapping) : List Nat := Assoc.keys mapping.calls

/-- The entries of a call one key below `parent`. -/
def childrenOf (mapping : PathMapping) (call : Nat) (parent : FieldPath) :
    List (FieldPath × FieldPath) :=
  ((Assoc.get? mapping.children (call, parent)).getD []).filterMap fun own =>
    (mapping.get? call own).map fun merged => (own, merged)

/-- Whether a call has entries one key below `parent`. -/
def hasChildren (mapping : PathMapping) (call : Nat) (parent : FieldPath) : Bool :=
  Assoc.contains mapping.children (call, parent)

/-- The number of entries of all calls. -/
def size (mapping : PathMapping) : Nat :=
  (mapping.calls.flatMap Prod.snd).length

/-- One line for every entry, call by call. -/
def text (mapping : PathMapping) : String :=
  String.join (mapping.calls.flatMap fun (call, entries) =>
    entries.map fun (own, merged) =>
      "call " ++ toString call ++ ": " ++ own.text ++ " -> " ++ merged.text ++ "\n")

end PathMapping

end QueryBatching
