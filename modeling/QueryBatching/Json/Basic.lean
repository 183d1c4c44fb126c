/-
JSON values.

The members of an object keep their order, because responses and variables are handed
on in the order they came in.  A number is kept as its text: nothing here computes with
numbers, and a number has to leave exactly as it arrived.
-/
import QueryBatching.Assoc

namespace QueryBatching

/-- A JSON value. -/
inductive Json where
  | null
  | bool (value : Bool)
  /-- A number, by its text. -/
  | number (text : String)
  | string (text : String)
  | array (items : List Json)
  | object (members : List (String × Json))
deriving Repr, Inhabited

namespace Json

/-- A natural number as a value. -/
def ofNat (n : Nat) : Json := .number (toString n)

/-- A text, or null. -/
def ofText? : Option String → Json
  | some text => .string text
  | none => .null

/-- The member of an object under `key`; nothing is a member of any other value. -/
def member? : Json → String → Option Json
  | .object members, key => Assoc.get? members key
  | _, _ => none

end Json

end QueryBatching
