/-
Paths of response keys.

A path leads from the root of a response down to a field.  The empty path is the root
itself, which is no field.
-/

namespace QueryBatching

/-- The response keys from the root of a response down to a field. -/
structure FieldPath where
  keys : List String
deriving DecidableEq, Repr, Inhabited

namespace FieldPath

/-- The path of the root. -/
def root : FieldPath := ⟨[]⟩

/-- The path one key further down. -/
def child (path : FieldPath) (key : String) : FieldPath := ⟨path.keys ++ [key]⟩

/-- The path one key further up; the root has none. -/
def parent? (path : FieldPath) : Option FieldPath :=
  if path.keys = [] then none else some ⟨path.keys.dropLast⟩

/-- The response key of the field at the path; the root has none. -/
def last? (path : FieldPath) : Option String := path.keys.getLast?

/-- The keys with dots between them. -/
def text (path : FieldPath) : String := ".".intercalate path.keys

/-- The order of lists of keys: by the first that differs, a shorter path before its extensions. -/
def compareKeys : List String → List String → Ordering
  | [], [] => .eq
  | [], _ :: _ => .lt
  | _ :: _, [] => .gt
  | a :: as, b :: bs => (compare a b).then (compareKeys as bs)

/-- The order of paths. -/
def order (a b : FieldPath) : Ordering := compareKeys a.keys b.keys

@[simp] theorem parent?_root : root.parent? = none := rfl

@[simp] theorem parent?_child (path : FieldPath) (key : String) :
    (path.child key).parent? = some path := by
  simp [child, parent?]

@[simp] theorem last?_child (path : FieldPath) (key : String) :
    (path.child key).last? = some key := by
  simp [child, last?]

end FieldPath

end QueryBatching
