/-
The documents that can be sent as one call.

A call is one operation and the fragments it may spread.  The document of a call has
exactly one operation, defines no fragment twice, and spreads no fragment that it does
not define, in its operation or in any fragment.  So a call is closed: everything it
spreads is among its own fragments, and merging never has to look elsewhere.
-/
import QueryBatching.Document.Spreads
import QueryBatching.Parse.Grammar

namespace QueryBatching

/-- One call of a batch: its operation and its fragments in source order. -/
structure CallDocument where
  /-- The number of the call in its batch. -/
  index : Nat
  operation : Operation
  fragments : List Fragment
deriving Repr, Inhabited

namespace CallDocument

/-- The first fragment that has the name of one before it. -/
def repeated? (seen : List String) : List Fragment → Option Fragment
  | [] => none
  | fragment :: rest =>
    if fragment.name ∈ seen then some fragment
    else repeated? (fragment.name :: seen) rest

/-- The first name that the selections spread and `defined` lacks. -/
def undefined? (defined : List String) (selections : List Selection) : Option String :=
  (Selection.spreadsOfAll selections).find? fun name => name ∉ defined

/-- The error of the first definition that spreads something undefined, the operation first. -/
def unclosed? (operation : Operation) (fragments : List Fragment) : Option ParseError :=
  let defined := fragments.map Fragment.name
  let bodies := (operation.selections, operation.position) ::
    fragments.map fun fragment => (fragment.selections, fragment.position)
  bodies.findSome? fun (selections, position) =>
    (undefined? defined selections).map fun name => ⟨.undefinedFragment name, position⟩

/-- The call a document makes. -/
def ofDocument (index : Nat) (document : Document) : Except ParseError CallDocument :=
  match document.operations with
  | [operation] =>
    match repeated? [] document.fragments with
    | some fragment => .error ⟨.repeatedFragment fragment.name, fragment.position⟩
    | none =>
      match unclosed? operation document.fragments with
      | some error => .error error
      | none => .ok ⟨index, operation, document.fragments⟩
  | operations =>
    .error ⟨.operationCount operations.length, (operations[1]?.map Operation.position).getD {}⟩

/-- The call a source text makes. -/
def parse (index : Nat) (source : String) : Except SyntaxError CallDocument :=
  match Document.parse source with
  | .error error => .error error
  | .ok document => (ofDocument index document).mapError .parse

end CallDocument

end QueryBatching
