/-
Walking a disk.

A walk visits a path and everything below it, a directory before what it holds, and what
it holds in order of names.  What a directory lists is taken at its word, and only links
are looked at, to follow them.  A link that leads to an ancestor is reported and not
entered.  Only a link can lead back up, and each one that is followed leads to a directory
the walk is not in yet, so a walk down ends; what bounds its depth is the length a path
can have.
-/
import QueryBatching.CommandLine.Disk

namespace QueryBatching

/-- Something a walk comes upon. -/
inductive Visit where
  /-- A file, or something that is none. -/
  | entry (path : String) (isFile : Bool)
  /-- Something that cannot be visited. -/
  | failure (report : String)
deriving DecidableEq, Repr, Inhabited

/-- A directory that a walk is in. -/
structure Ancestor where
  path : String
  place : String
deriving DecidableEq, Repr, Inhabited

namespace Visit

/-- The report on a path that the disk refused. -/
def refused (path : String) (error : DiskError) : Visit :=
  failure ("IO error for operation on " ++ path ++ ": " ++ error.message)

/-- The report on a link that leads to an ancestor. -/
def loop (path : String) (ancestor : Ancestor) : Visit :=
  failure ("File system loop found: " ++ path ++ " points to an ancestor " ++ ancestor.path)

variable {m : Type → Type} [Monad m]

/-- The visits at a path that leads to something of the given kind. -/
def reach (descend : String → m (List Visit)) (path : String) : EntryKind → m (List Visit)
  | .file => pure [entry path true]
  | .other => pure [entry path false]
  | .directory => descend path

/-- The visits at a path that may be a link, inside the ancestors given. -/
def follow (disk : Disk m) (descend : String → m (List Visit)) (ancestors : List Ancestor)
    (path : String) : m (List Visit) := do
  match ← disk.look path with
  | .error error => return [refused path error]
  | .ok found =>
    match found.kind, ancestors.find? fun ancestor => ancestor.place == found.place with
    | .directory, some ancestor => return [loop path ancestor]
    | kind, _ => reach descend path kind

/-- How deeply directories can be nested: no path is longer. -/
def maxDepth : Nat := 4096

/-- A walk from a directory down, inside the ancestors given, the innermost first. -/
def walkDirectory (disk : Disk m) : (depth : Nat) → List Ancestor → String → m (List Visit)
  | 0, _, _ => pure []
  | depth + 1, ancestors, path => do
    match ← disk.list path with
    | .error error => return [entry path false, refused path error]
    | .ok directory =>
      let inside := ⟨path, directory.place⟩ :: ancestors
      let descend := walkDirectory disk depth inside
      let below ← (directory.entries.mergeSort fun a b => a.name ≤ b.name).mapM fun listed =>
        match listed.kind? with
        | some kind => reach descend (joinPath path listed.name) kind
        | none => follow disk descend inside (joinPath path listed.name)
      return entry path false :: below.flatten

/-- A walk from a path down. -/
def walk (disk : Disk m) (path : String) : m (List Visit) :=
  follow disk (walkDirectory disk maxDepth []) [] path

end Visit

end QueryBatching
