/-
What the command line needs of a disk.

The search for query files asks only what is at a path, what a directory holds, and what
a file says.  It is written for any monad that can answer, so the same search runs on a
disk and on a tree of files in memory.

A place identifies what a path leads to after all links: two paths lead to the same
directory exactly when their places are equal.
-/

namespace QueryBatching

/-- What a path leads to. -/
inductive EntryKind where
  | file
  | directory
  | other
deriving DecidableEq, Repr, Inhabited

/-- What is found at a path once its links are followed. -/
structure Entry where
  kind : EntryKind
  place : String
deriving DecidableEq, Repr, Inhabited

/-- A name in a directory. -/
structure Listed where
  name : String
  /-- What is under the name; nothing for a link, which has to be followed to tell. -/
  kind? : Option EntryKind
deriving DecidableEq, Repr, Inhabited

/-- A directory that has been opened. -/
structure Directory where
  place : String
  entries : List Listed
deriving DecidableEq, Repr, Inhabited

/-- Why a disk gave no answer. -/
inductive DiskError where
  | missing
  | notADirectory
  | tooManyLinks
  | nameTooLong
  | notText
  /-- Any other reason, in the words of the system. -/
  | other (reason : String)
deriving DecidableEq, Repr, Inhabited

namespace DiskError

/-- The error in words. -/
def message : DiskError → String
  | missing => "No such file or directory (os error 2)"
  | notADirectory => "Not a directory (os error 20)"
  | tooManyLinks => "Too many levels of symbolic links (os error 40)"
  | nameTooLong => "File name too long (os error 36)"
  | notText => "stream did not contain valid UTF-8"
  | other reason => reason

end DiskError

/-- The questions that can be asked of a disk. -/
structure Disk (m : Type → Type) where
  /-- What a path leads to. -/
  look : String → m (Except DiskError Entry)
  /-- What a directory holds. -/
  list : String → m (Except DiskError Directory)
  /-- The text of a file. -/
  text : String → m (Except DiskError String)

/-- The path of something in a directory. -/
def joinPath (directory name : String) : String :=
  if directory.toList.getLast? = some '/' then directory ++ name
  else directory ++ "/" ++ name

/-- The last part of a path. -/
def fileName (path : String) : String :=
  String.ofList (path.toList.reverse.takeWhile (· != '/')).reverse

/--
The extension of a file: what follows the last dot of its name.  A name that only starts
with a dot has none.
-/
def fileExtension? (path : String) : Option String :=
  let backwards := (fileName path).toList.reverse
  match backwards.dropWhile (· != '.') with
  | _ :: _ :: _ => some (String.ofList (backwards.takeWhile (· != '.')).reverse)
  | _ => none

end QueryBatching
