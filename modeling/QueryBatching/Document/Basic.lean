/-
Query documents.

A document is a list of operations and fragments.  Scalars keep the text they were
written with, quotes included, and names keep their spelling, so a document says exactly
what its source said except for blanks, commas and comments.

A field is split in two: `Field` is the field itself, that is its alias, name, arguments
and directives, and the selection that holds it adds the selections below it, if there
are any.  Merging compares and combines fields one level at a time, and at one level
only the field itself matters.
-/
import QueryBatching.Source.Position

namespace QueryBatching

/-- A value written in a query. -/
inductive Value where
  /-- A reference to a variable, by its name without the dollar sign. -/
  | var (name : String)
  | int (text : String)
  | float (text : String)
  /-- A quoted or block string, with its quotes. -/
  | string (text : String)
  | enum (name : String)
  | bool (value : Bool)
  | null
  | list (items : List Value)
  | object (fields : List (String × Value))
deriving Repr, Inhabited

/-- A named value handed to a field or a directive. -/
structure Argument where
  name : String
  value : Value
deriving Repr, Inhabited

/-- An annotation `@name(arguments)`. -/
structure Directive where
  name : String
  arguments : List Argument
deriving Repr, Inhabited

/-- A field without the selections below it. -/
structure Field where
  alias? : Option String
  name : String
  arguments : List Argument
  directives : List Directive
deriving Repr, Inhabited

/-- One item of a selection set. -/
inductive Selection where
  /-- A field, and its selection set if one is written. -/
  | field (head : Field) (nested? : Option (List Selection))
  /-- A spread of the named fragment. -/
  | spread (name : String) (directives : List Directive)
  /-- A fragment written in place. -/
  | inlineFragment (condition? : Option String) (directives : List Directive)
      (nested : List Selection)
deriving Repr, Inhabited

/-- The type a variable is declared with. -/
inductive TypeRef where
  | named (name : String)
  | list (item : TypeRef)
  | nonNull (type : TypeRef)
deriving DecidableEq, Repr, Inhabited

/-- The declaration of a variable. -/
structure VariableDefinition where
  name : String
  type : TypeRef
  default? : Option Value
  directives : List Directive
deriving Repr, Inhabited

/-- What an operation does. -/
inductive OperationKind where
  | query
  | mutation
  | subscription
deriving DecidableEq, Repr, Inhabited

/-- An operation, placed at its first token. -/
structure Operation where
  kind : OperationKind
  name? : Option String
  declarations : List VariableDefinition
  directives : List Directive
  selections : List Selection
  position : Position
deriving Repr, Inhabited

/-- A named fragment, placed at its first token. -/
structure Fragment where
  name : String
  condition : String
  directives : List Directive
  selections : List Selection
  position : Position
deriving Repr, Inhabited

/-- One definition of a document. -/
inductive Definition where
  | operation (operation : Operation)
  | fragment (fragment : Fragment)
deriving Repr, Inhabited

/-- A query document: its definitions in source order. -/
structure Document where
  definitions : List Definition
deriving Repr, Inhabited

namespace Field

/-- The key the field's value has in a response: its alias, or else its name. -/
def responseKey (field : Field) : String := field.alias?.getD field.name

end Field

namespace Definition

/-- The operation, if the definition is one. -/
def operation? : Definition → Option Operation
  | .operation found => some found
  | .fragment _ => none

/-- The fragment, if the definition is one. -/
def fragment? : Definition → Option Fragment
  | .operation _ => none
  | .fragment found => some found

end Definition

namespace Document

/-- The operations, in source order. -/
def operations (document : Document) : List Operation :=
  document.definitions.filterMap Definition.operation?

/-- The fragments, in source order. -/
def fragments (document : Document) : List Fragment :=
  document.definitions.filterMap Definition.fragment?

end Document

namespace Selection

mutual

/-- How many levels of selections there are from this one down, through fields. -/
def depth : Selection → Nat
  | .field _ none => 1
  | .field _ (some nested) => 1 + depthOfAll nested
  | .spread .. => 1
  | .inlineFragment .. => 1

/-- How many levels of selections a selection set has, through fields. -/
def depthOfAll : List Selection → Nat
  | [] => 0
  | selection :: rest => max (depth selection) (depthOfAll rest)

end

end Selection

end QueryBatching
