/-
What makes two fields of one level the same field.

Fields with the same response key, name and arguments ask for the same value and give it
the same key, so they can share a place in a merged selection set.  Arguments are
compared by their canonical text.  Directives do not count.
-/
import QueryBatching.Document.Canonical

namespace QueryBatching

/-- The part of a field that decides which other fields it can share a place with. -/
structure FieldSignature where
  responseKey : String
  name : String
  /-- The canonical text of the argument list. -/
  arguments : String
deriving DecidableEq, Repr, Inhabited

namespace FieldSignature

/-- The signature as it would be written, the response key only where it is an alias. -/
def text (signature : FieldSignature) : String :=
  (if signature.responseKey = signature.name then "" else signature.responseKey ++ ": ") ++
    signature.name ++ signature.arguments

end FieldSignature

namespace Field

/-- The signature of a field. -/
def signature (field : Field) : FieldSignature :=
  ⟨field.responseKey, field.name, field.argumentsText⟩

end Field

end QueryBatching
