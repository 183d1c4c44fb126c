/-
What goes over the transport, and what a call gets from it.
-/
import QueryBatching.Request

namespace QueryBatching

/-- The body a server answers with. -/
structure TransportResponse where
  data : Json := .null
  errors? : Option (List Json) := none
deriving Repr, Inhabited

namespace TransportResponse

/-- The errors in a JSON value: a list, or null for none. -/
def errorsOf? : Json → Option (Option (List Json))
  | .null => some none
  | .array errors => some (some errors)
  | _ => none

/--
The response in a JSON value: an object, or an array of the members in order.  Missing
members are null data and no errors, and other members are ignored.
-/
def ofJson? : Json → Option TransportResponse
  | .object members => do
    let errors? ← errorsOf? ((Assoc.get? members "errors").getD .null)
    return { data := (Assoc.get? members "data").getD .null, errors? }
  | .array [] => some {}
  | .array [data] => some { data }
  | .array [data, errors] => do
    return { data, errors? := ← errorsOf? errors }
  | _ => none

end TransportResponse

/-- The response one call gets.  The errors are those of the whole request. -/
structure QueryResponse where
  data : Json
  errors? : Option (List Json)
deriving Repr, Inhabited

namespace QueryResponse

/-- The response as JSON.  There is no member for errors where there are none. -/
def toJson (response : QueryResponse) : Json :=
  .object (("data", response.data) ::
    match response.errors? with
    | some errors => [("errors", .array errors)]
    | none => [])

end QueryResponse

/-- What a submitted call resolves to. -/
abbrev CallResult := Except BatchError QueryResponse

end QueryBatching
