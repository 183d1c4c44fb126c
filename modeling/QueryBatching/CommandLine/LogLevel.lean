/-
Log levels and how one is chosen.

A level lets through its own messages and all graver ones.  The setting is a name in any
case or a number from one to five; `verbose` is another name for `debug`.

A message may quote what the program was given, so in the log the characters that start
or end a sequence of terminal commands are spelled out and command nothing.
-/
import QueryBatching.Text.Blank

namespace QueryBatching

/-- How much a log says, from least to most. -/
inductive LogLevel where
  | error
  | warn
  | info
  | debug
  | trace
deriving DecidableEq, Repr, Inhabited

/-- One line of a log. -/
structure LogLine where
  level : LogLevel
  message : String
deriving DecidableEq, Repr, Inhabited

namespace LogLine

/-- A character of a message as the log shows it. -/
def spelledOut (c : Char) : List Char :=
  let n := c.toNat
  if n = 0x07 ∨ n = 0x08 ∨ n = 0x0C ∨ n = 0x1B ∨ n = 0x7F then
    ['\\', 'x', Nat.digitChar (n / 16), Nat.digitChar (n % 16)]
  else if 0x80 ≤ n ∧ n ≤ 0x9F then
    ['\\', 'u', '\x7b', Nat.digitChar (n / 16), Nat.digitChar (n % 16), '\x7d']
  else [c]

/-- The line as the log shows it. -/
def shown (line : LogLine) : LogLine :=
  { line with message := String.ofList (line.message.toList.flatMap spelledOut) }

end LogLine

namespace LogLevel

/-- The number of the level. -/
def rank : LogLevel → Nat
  | error => 1
  | warn => 2
  | info => 3
  | debug => 4
  | trace => 5

/-- The name of the level. -/
def text : LogLevel → String
  | error => "ERROR"
  | warn => "WARN"
  | info => "INFO"
  | debug => "DEBUG"
  | trace => "TRACE"

/-- The level of that number. -/
def ofRank? : Nat → Option LogLevel
  | 1 => some error
  | 2 => some warn
  | 3 => some info
  | 4 => some debug
  | 5 => some trace
  | _ => none

/-- The number that a text of decimal digits, with a plus sign or without, stands for. -/
def number? (text : String) : Option Nat :=
  let digits := match text.toList with
    | '+' :: rest => rest
    | cs => cs
  if digits = [] || !digits.all Char.isDigit then none
  else some (digits.foldl (fun n c => 10 * n + (c.toNat - '0'.toNat)) 0)

/-- The level that a setting names, without the blanks around it. -/
def ofSetting? (setting : String) : Option LogLevel :=
  let setting := Text.trim setting
  match number? setting with
  | some n => ofRank? n
  | none =>
    match setting.toLower with
    | "verbose" => some debug
    | "error" => some error
    | "warn" => some warn
    | "info" => some info
    | "debug" => some debug
    | "trace" => some trace
    | _ => none

/-- Whether a log at this level has the line in it. -/
def shows (level : LogLevel) (line : LogLine) : Bool := line.level.rank ≤ level.rank

/--
The level of a run, and a warning if its setting names none.  Asking for verbose output
goes before any setting, and the level is `info` where nothing says otherwise.
-/
def choose (verbose : Bool) (setting? : Option String) : LogLevel × Option String :=
  if verbose then (debug, none)
  else
    match setting? with
    | none => (info, none)
    | some setting =>
      match ofSetting? setting with
      | some level => (level, none)
      | none =>
        (info, some ("Ignoring unrecognized `LOG_LEVEL` value `" ++ Text.trim setting ++ "`"))

end LogLevel

end QueryBatching
