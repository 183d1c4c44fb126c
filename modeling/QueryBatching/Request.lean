/-
The request that serves a whole batch.

Its query is the merged operation followed by the fragments, all in canonical text.  Its
variables have the values that each call supplies, under their merged names and in call
order.
-/
import QueryBatching.Json.Basic
import QueryBatching.Merge.Batch

namespace QueryBatching

/-- Why a submitted query has no response. -/
inductive BatchError where
  | lex (error : LexError)
  | parse (error : ParseError)
  | merge (error : MergeError)
  /-- The request could not be sent or answered, for the reason given. -/
  | transport (reason : String)
  /-- The batch of the call was given up before the call was resolved. -/
  | dropped
deriving DecidableEq, Repr, Inhabited

namespace BatchError

/-- A syntax error as an error of a batch. -/
def ofSyntax : SyntaxError → BatchError
  | .lex error => lex error
  | .parse error => parse error

/-- The error in words. -/
def message : BatchError → String
  | lex error => "lex error: " ++ error.message
  | parse error => "parse error: " ++ error.message
  | merge error => "merge error: " ++ error.message
  | transport reason => "transport error: " ++ reason
  | dropped => "batch was dropped before the call was resolved"

end BatchError

/-- The values one call supplies for its variables, under the names the call gives them. -/
structure CallVariables where
  call : Nat
  values : List (String × Json)
deriving Repr, Inhabited

/-- The request sent for a batch. -/
structure Request where
  query : String
  values : List (String × Json)
deriving Repr, Inhabited

namespace MergedBatch

/-- The text of the merged operation and its fragments. -/
def text (batch : MergedBatch) : String :=
  " ".intercalate (batch.operation.text :: batch.fragments.map Fragment.text)

end MergedBatch

namespace Request

/-- The values of all calls under the merged names of their variables. -/
def combine (supplied : List CallVariables) : List (String × Json) :=
  (supplied.flatMap fun call =>
      call.values.map fun (name, value) => (variableName call.call name, value)).foldl
    (fun combined (name, value) => Assoc.insert combined name value) []

/-- The request of a merged batch. -/
def ofBatch (batch : MergedBatch) (supplied : List CallVariables) : Request :=
  ⟨batch.text, combine supplied⟩

end Request

/-- The calls that queries make, numbered from `index` on, or the error of the first bad one. -/
def callsFrom (index : Nat) : List String → Except BatchError (List CallDocument)
  | [] => .ok []
  | query :: rest =>
    match CallDocument.parse index query with
    | .error error => .error (.ofSyntax error)
    | .ok call => (callsFrom (index + 1) rest).map (call :: ·)

/-- The text of one query that serves all of the given ones. -/
def mergeQueries (queries : List String) : Except BatchError String :=
  match callsFrom 0 queries with
  | .error error => .error error
  | .ok calls =>
    match MergedBatch.ofCalls calls with
    | .error error => .error (.merge error)
    | .ok batch => .ok (Request.ofBatch batch []).query

end QueryBatching
