/-
A tree of files in memory.

The tree holds files, directories and symbolic links below one directory, from which
paths start.  Looking at a path follows its links the way a disk does: one part of the
path after another, with no more than forty links on the way, no name of more than 255
bytes, and no path of 4096.

Around the tree there is only what every system has.  The directory above the top is
another one, in which no name can be found, and an absolute path starts at a root that
holds the null device.
-/
import QueryBatching.Assoc
import QueryBatching.CommandLine.Disk

namespace QueryBatching

/-- A file, a link, a device, or a directory with what it holds. -/
inductive FileTree where
  /-- A file with its text, or with bytes that are no text. -/
  | file (text? : Option String)
  | link (target : String)
  | device
  | directory (entries : List (String × FileTree))
deriving Repr, Inhabited

namespace FileTree

/-- What a directory holds; nothing else holds anything. -/
def entries : FileTree → List (String × FileTree)
  | directory held => held
  | _ => []

/-- The tree with `leaf` at a path, and a directory wherever the path needs one. -/
def insert (tree : FileTree) (leaf : FileTree) : List String → FileTree
  | [] => leaf
  | name :: rest =>
    let below := (Assoc.get? tree.entries name).getD (directory [])
    directory (Assoc.insert tree.entries name (below.insert leaf rest))

/-- The tree with a directory at a path, which keeps what it holds. -/
def makeDirectory (tree : FileTree) : List String → FileTree
  | [] => directory tree.entries
  | name :: rest =>
    let below := (Assoc.get? tree.entries name).getD (directory [])
    directory (Assoc.insert tree.entries name (below.makeDirectory rest))

/-- The parts of a path. -/
def parts (path : String) : List String := path.splitOn "/"

/-- Whether a path starts at the root of the system. -/
def isAbsolute (path : String) : Bool := path.toList.head? = some '/'

/-- How many links may be followed on the way to one place. -/
def maxLinks : Nat := 40

/-- How many bytes a name may have. -/
def maxNameBytes : Nat := 255

/-- How many bytes a path may have. -/
def maxPathBytes : Nat := 4095

/-- What is known of the root of the system. -/
def system : FileTree := directory [("dev", directory [("null", device)])]

/-- A place in a tree: the directories above it, the innermost first, and what is there. -/
structure Spot where
  /-- Each directory above, with the name under which the next is found in it. -/
  above : List (String × FileTree)
  here : FileTree
deriving Repr, Inhabited

namespace Spot

/-- The root of the system. -/
def root : Spot := ⟨[], system⟩

/-- The top of a tree, in a directory of which nothing is known. -/
def top (tree : FileTree) : Spot := ⟨[(".", directory [])], tree⟩

/-- The names from above down to the spot. -/
def place (spot : Spot) : String := "/".intercalate (spot.above.map Prod.fst).reverse

/-- The spot one directory up; where nothing is above, the same one. -/
def up (spot : Spot) : Spot :=
  match spot.above with
  | [] => spot
  | (_, outer) :: above => ⟨above, outer⟩

/-- The spot that the parts of a path lead to, with so many links left to follow. -/
def follow (links : Nat) (spot : Spot) : List String → Except DiskError Spot
  | [] => .ok spot
  | part :: rest =>
    match spot.here with
    | .file _ | .link _ | .device => .error .notADirectory
    | .directory entries =>
      if part = "" ∨ part = "." then follow links spot rest
      else if part = ".." then follow links spot.up rest
      else if maxNameBytes < part.utf8ByteSize then .error .nameTooLong
      else
        match Assoc.get? entries part with
        | none => .error .missing
        | some (.link target) =>
          match links with
          | 0 => .error .tooManyLinks
          | links + 1 =>
            follow links (if isAbsolute target then root else spot) (parts target ++ rest)
        | some found => follow links ⟨(part, spot.here) :: spot.above, found⟩ rest
termination_by rest => (links, rest.length)

end Spot

/-- The spot a path leads to, from the top of the tree or the root of the system. -/
def find (tree : FileTree) (path : String) : Except DiskError Spot :=
  if maxPathBytes < path.utf8ByteSize then .error .nameTooLong
  else if path = "" then .error .missing
  else Spot.follow maxLinks (if isAbsolute path then .root else .top tree) (parts path)

/-- The kind of what is at a spot; a link has none of its own. -/
def kind? : FileTree → Option EntryKind
  | file _ => some .file
  | directory _ => some .directory
  | device => some .other
  | link _ => none

/-- The tree as a disk. -/
def disk (tree : FileTree) : Disk Id where
  look path := (tree.find path).map fun spot => ⟨spot.here.kind?.getD .other, spot.place⟩
  list path := (tree.find path).map fun spot =>
    ⟨spot.place, spot.here.entries.map fun (name, below) => ⟨name, below.kind?⟩⟩
  text path :=
    match tree.find path with
    | .error error => .error error
    | .ok spot =>
      match spot.here with
      | file (some text) => .ok text
      | file none => .error .notText
      | device => .ok ""
      | _ => .error (.other "Is a directory (os error 21)")

end FileTree

end QueryBatching
