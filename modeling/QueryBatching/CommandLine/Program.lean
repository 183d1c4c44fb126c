/-
The command line program.

It merges query files without sending anything.  The files are the ones named, and below
the directories named those with the right extension.  A single file named on its own is
taken whatever its extension.  Everything that could not be read is reported before
anything is merged.

The program is a function of its arguments, one setting, and a disk.  It answers with
what to print, what to log, and how to exit.
-/
import QueryBatching.CommandLine.Arguments
import QueryBatching.CommandLine.LogLevel
import QueryBatching.CommandLine.QueryFiles
import QueryBatching.CommandLine.Walk
import QueryBatching.Text.Quoted

namespace QueryBatching

/-- What a run of the program comes to. -/
structure ProgramResult where
  exitCode : Nat := 0
  stdout : String := ""
  stderr : String := ""
  log : List LogLine := []
deriving DecidableEq, Repr, Inhabited

namespace Program

/-- The version line. -/
def versionText : String := "batchql 0.0.1\n"

/-- The help text. -/
def helpText : String :=
  "Usage: batchql [OPTIONS] [COMMAND]\n\n" ++
  "Commands:\n" ++
  "  merge  Merge GraphQL query files into a single batched query\n" ++
  "  help   Print this message or the help of the given subcommand(s)\n\n" ++
  "Options:\n" ++
  "  -v, --verbose  Enable verbose output.\n" ++
  "  -h, --help     Print help\n" ++
  "  -V, --version  Print version\n"

/-- The text shown when the arguments make no sense. -/
def misuseText : String :=
  "error: invalid arguments\n\nFor more information, try '--help'.\n"

/-- The sign that starts every report of a failure. -/
def failureSign : String := "\u274c"

/-- A run that failed with a report. -/
def failed (log : List LogLine) (report : String) : ProgramResult :=
  { exitCode := 1, stderr := failureSign ++ " " ++ report ++ "\n", log }

/-- A run that broke off.  What it says about itself on the way out is not part of the program. -/
def brokenOff (log : List LogLine) : ProgramResult := { exitCode := 101, log }

/-! ### The search for files -/

/-- What a search found. -/
structure Search where
  log : List LogLine := []
  files : List String := []
  /-- Reports on everything that could not be visited. -/
  failures : List String := []
deriving DecidableEq, Repr, Inhabited

/-- What a visit adds to a search that was asked to look at `argument`. -/
def Search.visit (extensions : List String) (argument : String) (search : Search) :
    Visit → Search
  | .entry path false =>
    { search with
      log := search.log ++ [⟨.trace, "Skipping non-file: " ++ Text.quoted path ++ "."⟩] }
  | .entry path true =>
    { search with
      log := search.log ++ [⟨.trace, "Found file at " ++ Text.quoted path ++ "."⟩],
      files :=
        if (fileExtension? path).any fun extension => "." ++ extension ∈ extensions then
          search.files ++ [path]
        else search.files }
  | .failure report =>
    { search with
      log := search.log ++
        [⟨.trace, "Encountered an error while iterating recursive filesystem entities at/under " ++
          Text.quoted argument ++ "."⟩],
      failures := search.failures ++ [report] }

/-- Whether a path leads to a file. -/
def isFile {m : Type → Type} [Monad m] (disk : Disk m) (path : String) : m Bool := do
  match ← disk.look path with
  | .ok found => return found.kind = .file
  | .error _ => return false

/-- A single file named on its own is taken even though its extension does not match. -/
def Search.takeNamed {m : Type → Type} [Monad m] (disk : Disk m) (paths : List String)
    (search : Search) : m Search := do
  match search.files, paths with
  | [], [path] =>
    if ← isFile disk path then
      return { search with
        log := search.log ++
          [⟨.warn, "Proceeding to merge " ++ Text.quoted path ++
            " even though it doesn't match any of the --graphql-file-exts."⟩],
        files := [path] }
    else return search
  | _, _ => return search

/-- The search for the files that the options ask for. -/
def search {m : Type → Type} [Monad m] (disk : Disk m) (options : MergeOptions) : m Search := do
  let extensions := options.dottedExtensions
  let start : Search :=
    { log := [⟨.debug, "Scanning " ++ toString options.paths.length ++ " input paths..."⟩] }
  let walked ← options.paths.foldlM (fun (found : Search) path => do
    let visits ← Visit.walk disk path
    return visits.foldl (Search.visit extensions path) found) start
  let named ← walked.takeNamed disk options.paths
  return { named with
    log := named.log ++
      [⟨.debug, "Found " ++ toString named.files.length ++ " GraphQL files to merge."⟩] }

/-- The text of every file found, or a report on the file. -/
def readFiles {m : Type → Type} [Monad m] (disk : Disk m) (paths : List String) :
    m (List (Except String QueryFile)) :=
  paths.mapM fun path => do
    match ← disk.text path with
    | .ok source => return .ok ⟨path, source⟩
    | .error error => return .error (path ++ ": " ++ error.message)

/-! ### Merging -/

/-- What the log says about a merge. -/
def describeMerge (counts : MergeCounts) : String :=
  "merged batch event=\"merge_complete\" calls=" ++ toString counts.calls ++
    " mapped_fields=" ++ toString counts.mappedFields ++
    " synthetic_aliases=" ++ toString counts.syntheticAliases ++
    " fragments=" ++ toString counts.fragments ++
    " renamed_fragments=" ++ toString counts.renamedFragments

/-- Merges the files that were read. -/
def mergeFiles (log : List LogLine) (files : List QueryFile) (showMapping : Bool) :
    ProgramResult :=
  let log := log ++ [⟨.debug, "Merging " ++ toString files.length ++ " query files..."⟩]
  match QueryFile.batch files with
  | .error error => (error.message?.map (failed log)).getD (brokenOff log)
  | .ok batch =>
    { stdout := QueryFile.output files showMapping batch ++ "\n",
      log := log ++ [⟨.trace, describeMerge batch.counts⟩] }

/-- The `merge` command. -/
def merge {m : Type → Type} [Monad m] (disk : Disk m) (options : MergeOptions) :
    m ProgramResult := do
  let found ← search disk options
  let read ← readFiles disk found.files
  let reports := found.failures ++ read.filterMap fun
    | .error report => some report
    | .ok _ => none
  let files := read.filterMap Except.toOption
  if !reports.isEmpty then
    return failed found.log ("Failed to read query files:\n" ++ "\n".intercalate reports)
  else if files.isEmpty then return failed found.log "No GraphQL files found."
  else return mergeFiles found.log files options.showMapping

/-! ### The whole program -/

/-- What the program logs first: its level, and a setting it did not understand. -/
def openingLog (level : LogLevel) (warning? : Option String) : List LogLine :=
  ⟨.trace, "Logging at `" ++ level.text ++ "`."⟩ ::
    warning?.toList.map fun warning => ⟨.warn, warning⟩

/-- The program. -/
def run {m : Type → Type} [Monad m] (disk : Disk m) (arguments : List String)
    (logSetting? : Option String) : m ProgramResult := do
  match CommandRequest.ofArguments arguments with
  | .misuse => return { exitCode := 2, stderr := misuseText }
  | .help => return { stdout := helpText }
  | .version => return { stdout := versionText }
  | .run verbose merge? =>
    let (level, warning?) := LogLevel.choose verbose logSetting?
    let result ← match merge? with
      | some options => merge disk options
      | none => pure { stdout := helpText }
    let log := (openingLog level warning? ++ result.log).filter level.shows
    return { result with log := log.map LogLine.shown }

end Program

end QueryBatching
