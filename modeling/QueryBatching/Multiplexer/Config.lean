/-
How a multiplexer batches, and how its settings are read.

Settings come as a JSON object or as an array of the same values in order.  What is
missing has its default; what is unknown is ignored; a setting given twice, or given with
a value that is not a whole number in range, is refused.
-/
import QueryBatching.Json.Reader

namespace QueryBatching

/-- The settings of a multiplexer. -/
structure BatchConfig where
  /-- How long a batch collects calls after its first one, in milliseconds. -/
  window : Nat := 10
  /-- How many calls a batch may have; it is flushed as soon as it has that many. -/
  maxBatchSize? : Option Nat := none
deriving DecidableEq, Repr, Inhabited

namespace BatchConfig

/-- The settings with a window and no limit. -/
def ofWindow (window : Nat) : BatchConfig := { window }

/-- The settings with another limit. -/
def withMaxBatchSize (config : BatchConfig) (size : Nat) : BatchConfig :=
  { config with maxBatchSize? := some size }

/-- Whether a batch of `count` calls takes no more. -/
def isFull (config : BatchConfig) (count : Nat) : Bool :=
  config.maxBatchSize?.any (· ≤ count)

/-- The greatest whole number a setting can have. -/
def maxWord : Nat := 18446744073709551615

/-- A whole number of at most 64 bits. -/
def word? : Json → Option Nat
  | .number text => text.toNat?.filter (· ≤ maxWord)
  | _ => none

/-- The window in a JSON value. -/
def window? : Json → Option Nat := word?

/-- The limit in a JSON value, where null is no limit. -/
def limit? : Json → Option (Option Nat)
  | .null => some none
  | value => (word? value).map some

/-- The value of a setting in an object: its default when missing, nothing when given twice or
badly. -/
def setting? {α : Type} (read : Json → Option α) (default : α) (key : String)
    (members : List (String × Json)) : Option α :=
  match members.filter fun member => member.1 == key with
  | [] => some default
  | [(_, value)] => read value
  | _ => none

/-- The settings in a JSON value. -/
def ofJson? : Json → Option BatchConfig
  | .object members => do
    let window ← setting? window? 10 "window_ms" members
    let maxBatchSize? ← setting? limit? none "max_batch_size" members
    return { window, maxBatchSize? }
  | .array [] => some {}
  | .array [window] => do
    return { window := ← window? window }
  | .array [window, limit] => do
    return { window := ← window? window, maxBatchSize? := ← limit? limit }
  | _ => none

/-- The settings in a JSON text.  No setting is a string, so its strings need not be text. -/
def read? (text : String) : Option BatchConfig := (Json.readOutline? text).bind ofJson?

end BatchConfig

end QueryBatching
