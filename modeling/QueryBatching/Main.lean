/-
The program on a real disk.

Everything the program decides is in `Program.run`; here its questions are put to the
system and its answer is printed.
-/
import QueryBatching.CommandLine.Program

open QueryBatching

/-- The number of a system error, which some calls report with its sign changed. -/
def errorNumber (code : UInt32) : Nat := min code.toNat (0 - code).toNat

/-- What went wrong, as the program words it. -/
def diskErrorOf (error : IO.Error) : DiskError :=
  match error with
  | .noFileOrDirectory .. => .missing
  | .inappropriateType _ code _ =>
    if errorNumber code = 20 then .notADirectory else .other (toString error)
  | .invalidArgument _ code _ =>
    if errorNumber code = 36 then .nameTooLong
    else if errorNumber code = 40 then .tooManyLinks
    else .other (toString error)
  | _ => .other (toString error)

/-- An action whose failure is a value. -/
def attempt {α : Type} (action : IO α) : IO (Except DiskError α) := do
  match ← action.toBaseIO with
  | .ok value => return .ok value
  | .error error => return .error (diskErrorOf error)

/-- The kind of a file, and nothing for a link. -/
def kindOf? (type : IO.FS.FileType) : Option EntryKind :=
  match type with
  | .file => some .file
  | .dir => some .directory
  | .symlink => none
  | .other => some .other

/-- The disk of the system. -/
def systemDisk : Disk IO where
  look path := attempt do
    let type := (← (System.mkFilePath [path]).metadata).type
    return ⟨(kindOf? type).getD .other, (← IO.FS.realPath path).toString⟩
  list path := attempt do
    let entries ← (System.mkFilePath [path]).readDir
    let listed ← entries.toList.mapM fun entry => do
      return ⟨entry.fileName, kindOf? (← entry.path.symlinkMetadata).type⟩
    return ⟨(← IO.FS.realPath path).toString, listed⟩
  text path := do
    match ← attempt (IO.FS.readBinFile path) with
    | .error error => return .error error
    | .ok bytes =>
      match String.fromUTF8? bytes with
      | some text => return .ok text
      | none => return .error .notText

/-- Runs the program on the arguments and the `LOG_LEVEL` setting of its environment. -/
def main (arguments : List String) : IO UInt32 := do
  let result ← Program.run systemDisk arguments (← IO.getEnv "LOG_LEVEL")
  for line in result.log do
    IO.eprintln (line.level.text ++ " " ++ line.message)
  IO.print result.stdout
  IO.eprint result.stderr
  return result.exitCode.toUInt32
