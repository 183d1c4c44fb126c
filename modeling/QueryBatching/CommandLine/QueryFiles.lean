/-
Merging query files.

The files are the calls of one batch, numbered in their order.  If some cannot be read as
calls, every one of them is reported; otherwise the merged query is given, with the path
of each file and the path mapping after it where that is asked for.

A parse error that stands too far out in its line to be shown has no report, and then there is
no answer: that ends the program.
-/
import QueryBatching.Request
import QueryBatching.Text.Blank

namespace QueryBatching

/-- A query file. -/
structure QueryFile where
  path : String
  source : String
deriving DecidableEq, Repr, Inhabited

/-- Why files could not be merged. -/
inductive QueryFilesError where
  /-- These files are not calls, for the reasons given. -/
  | unreadable (failures : List (QueryFile × SyntaxError))
  /-- The calls do not merge. -/
  | unmerged (error : MergeError)
deriving DecidableEq, Repr, Inhabited

namespace QueryFile

/-- The report on a file that is not a call.  Parse errors are shown with their line, and there is
no report where that cannot be shown. -/
def report? (file : QueryFile) (error : SyntaxError) : Option String :=
  let described? := match error with
    | .parse error => error.diagnostic.detailed? (some file.source)
    | .lex error => some (BatchError.lex error).message
  described?.map fun described => file.path ++ ": " ++ described

/-- The calls and the failures of files, numbered from `index` on. -/
def readFrom (index : Nat) :
    List QueryFile → List CallDocument × List (QueryFile × SyntaxError)
  | [] => ([], [])
  | file :: rest =>
    let (calls, failures) := readFrom (index + 1) rest
    match CallDocument.parse index file.source with
    | .ok call => (call :: calls, failures)
    | .error error => (calls, (file, error) :: failures)

end QueryFile

namespace QueryFilesError

/-- The error in words, one report for every file, if there is a report on each. -/
def message? : QueryFilesError → Option String
  | unreadable failures =>
    let reports? := failures.mapM fun (failure : QueryFile × SyntaxError) =>
      failure.1.report? failure.2
    reports?.map ("\n".intercalate ·)
  | unmerged error => some ("Failed to merge queries: " ++ error.message)

end QueryFilesError

namespace QueryFile

/-- The merge of files. -/
def batch (files : List QueryFile) : Except QueryFilesError MergedBatch :=
  match readFrom 0 files with
  | (calls, []) => (MergedBatch.ofCalls calls).mapError .unmerged
  | (_, failures) => .error (.unreadable failures)

/-- Which file is which call, and where the fields of each call ended up. -/
def mappingText (files : List QueryFile) (mapping : PathMapping) : String :=
  String.join (files.zipIdx.map fun (file, index) =>
    "# call " ++ toString index ++ ": " ++ file.path ++ "\n") ++ mapping.text

/-- The output for files and their merge. -/
def output (files : List QueryFile) (showMapping : Bool) (batch : MergedBatch) : String :=
  Text.trimEnd ((Request.ofBatch batch []).query ++
    if showMapping then "\n\n" ++ mappingText files batch.mapping else "")

/-- Merges files into one query. -/
def merge (files : List QueryFile) (showMapping : Bool) : Except QueryFilesError String :=
  (batch files).map (output files showMapping)

/-- The output for files, or in words why there is none.  Nothing is answered where a report cannot
be given: the program ends there. -/
def answer? (files : List QueryFile) (showMapping : Bool) : Option (Except String String) :=
  match merge files showMapping with
  | .ok output => some (.ok output)
  | .error error => error.message?.map .error

end QueryFile

end QueryBatching
