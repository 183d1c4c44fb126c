/-
The arguments of the command line.

    [-v|--verbose] [-h|--help] [-V|--version]
        merge [--graphql-file-exts EXT[,EXT]...] [--show-mapping] [-h|--help] PATH...
        help [merge|help]

Arguments are read from left to right, and the first one that decides the outcome does:
asking for help or the version ends the reading, and so does the first mistake.  A flag
given twice is a mistake.  After `--` every argument is a path.
-/

namespace QueryBatching

/-- What is to be merged, and how. -/
structure MergeOptions where
  /-- The extensions given, or nothing for the usual ones. -/
  extensions? : Option (List String) := none
  showMapping : Bool := false
  paths : List String := []
deriving DecidableEq, Repr, Inhabited

/-- What the arguments ask for. -/
inductive CommandRequest where
  /-- To merge, or to show help where no command is given. -/
  | run (verbose : Bool) (merge? : Option MergeOptions)
  | help
  | version
  /-- Nothing that can be done. -/
  | misuse
deriving DecidableEq, Repr, Inhabited

namespace MergeOptions

/-- The extensions a search looks for when none are given. -/
def usualExtensions : List String := ["graphql", "gql"]

/-- The extensions a search looks for, each with the dot in front of it. -/
def dottedExtensions (options : MergeOptions) : List String :=
  (options.extensions?.getD usualExtensions).map fun extension =>
    if extension.toList.head? = some '.' then extension else "." ++ extension

/-- The options with more extensions, given with commas between them. -/
def addExtensions (options : MergeOptions) (list : String) : MergeOptions :=
  { options with extensions? := some (options.extensions?.getD [] ++ list.splitOn ",") }

/-- The options with one more path. -/
def addPath (options : MergeOptions) (path : String) : MergeOptions :=
  { options with paths := options.paths ++ [path] }

end MergeOptions

namespace CommandRequest

/-- Whether an argument is written like an option.  A single dash is not. -/
def isOption (argument : String) : Bool :=
  match argument.toList with
  | '-' :: _ :: _ => true
  | _ => false

/-- What follows the sign in an argument that spells `name`, an equals sign and a value. -/
def valueOf? (name argument : String) : Option String :=
  let opening := name.toList ++ ['=']
  if argument.toList.take opening.length = opening then
    some (String.ofList (argument.toList.drop opening.length))
  else none

/-- The request to merge, if there is anything to merge. -/
def ofMerge (verbose : Bool) (options : MergeOptions) : CommandRequest :=
  if options.paths.isEmpty || options.paths.any String.isEmpty then misuse
  else run verbose (some options)

/-- The arguments after `merge`. -/
def readMerge (verbose : Bool) (options : MergeOptions) : List String → CommandRequest
  | [] => ofMerge verbose options
  | "--" :: paths => ofMerge verbose (paths.foldl MergeOptions.addPath options)
  | "--graphql-file-exts" :: list :: rest =>
    if isOption list then misuse else readMerge verbose (options.addExtensions list) rest
  | "--show-mapping" :: rest =>
    if options.showMapping then misuse
    else readMerge verbose { options with showMapping := true } rest
  | argument :: rest =>
    match valueOf? "--graphql-file-exts" argument with
    | some list => readMerge verbose (options.addExtensions list) rest
    | none =>
      if argument = "--help" ∨ argument.toList.take 2 = ['-', 'h'] then help
      else if isOption argument ∨ argument = "" then misuse
      else readMerge verbose (options.addPath argument) rest

/-- The arguments after `help`. -/
def readHelp : List String → CommandRequest
  | [] | ["merge"] | ["help"] => help
  | _ => misuse

/-- The letters of an argument with a single dash: what they decide, or whether the output is
verbose. -/
def readLetters (verbose : Bool) : List Char → Except CommandRequest Bool
  | [] => .ok verbose
  | 'v' :: rest => if verbose then .error misuse else readLetters true rest
  | 'h' :: _ => .error help
  | 'V' :: _ => .error version
  | _ :: _ => .error misuse

/-- The arguments before any command. -/
def readMain (verbose : Bool) : List String → CommandRequest
  | [] => run verbose none
  | "merge" :: rest => readMerge verbose {} rest
  | "help" :: rest => readHelp rest
  | ["--"] => run verbose none
  | "--verbose" :: rest => if verbose then misuse else readMain true rest
  | "--help" :: _ => help
  | "--version" :: _ => version
  | argument :: rest =>
    match argument.toList with
    | '-' :: letter :: letters =>
      if letter = '-' then misuse
      else
        match readLetters verbose (letter :: letters) with
        | .ok verbose => readMain verbose rest
        | .error request => request
    | _ => misuse

/-- What a list of arguments asks for. -/
def ofArguments (arguments : List String) : CommandRequest := readMain false arguments

end CommandRequest

end QueryBatching
