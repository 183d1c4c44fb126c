/-
Flushing a batch.

A flush reads every call of the batch.  Calls that cannot be read are rejected on their
own and leave no trace in the request.  The others keep the numbers they have in the
batch, are merged, and sent as one request; if they do not merge, or the request fails,
all of them get that error.
-/
import QueryBatching.Multiplexer.Exchange
import QueryBatching.Response

namespace QueryBatching

/-- A call that has been submitted. -/
structure SubmittedCall where
  /-- Which submission it was, counted from zero. -/
  number : Nat
  /-- When it was submitted. -/
  time : Nat
  query : String
  values : List (String × Json)
deriving Repr, Inhabited

/-- A call of a batch that could be read. -/
structure AcceptedCall where
  /-- Which submission it was. -/
  number : Nat
  /-- What it asks for; its index is the call's place in the batch. -/
  document : CallDocument
  values : List (String × Json)
deriving Repr, Inhabited

namespace AcceptedCall

/-- The call's variables, under its place in the batch. -/
def supplied (call : AcceptedCall) : CallVariables := ⟨call.document.index, call.values⟩

end AcceptedCall

/-- A request that is out, and the calls that wait for it. -/
structure SentBatch where
  request : Request
  mapping : PathMapping
  calls : List AcceptedCall
deriving Repr, Inhabited

/-- What a flush does before any answer comes in. -/
structure FlushPlan where
  /-- The results that are known at once. -/
  resolved : List (Nat × CallResult)
  /-- The request to send, if there is one. -/
  sent? : Option SentBatch
deriving Inhabited

namespace SentBatch

/-- The results of the waiting calls, given the transport's answer or its failure. -/
def resolve (sent : SentBatch) (answer : Except String TransportResponse) :
    List (Nat × CallResult) :=
  sent.calls.map fun call =>
    (call.number,
      match answer with
      | .ok response =>
        .ok ⟨Response.demultiplex sent.mapping call.document.index response.data,
          response.errors?⟩
      | .error reason => .error (.transport reason))

end SentBatch

namespace FlushPlan

/-- The calls of a batch that can be read. -/
def accepted (calls : List SubmittedCall) : List AcceptedCall :=
  calls.zipIdx.filterMap fun (call, place) =>
    match CallDocument.parse place call.query with
    | .ok document => some ⟨call.number, document, call.values⟩
    | .error _ => none

/-- The errors of the calls of a batch that cannot be read. -/
def rejected (calls : List SubmittedCall) : List (Nat × CallResult) :=
  calls.zipIdx.filterMap fun (call, place) =>
    match CallDocument.parse place call.query with
    | .ok _ => none
    | .error error => some (call.number, .error (.ofSyntax error))

/-- How a batch is flushed. -/
def ofCalls (calls : List SubmittedCall) : FlushPlan :=
  let rejected := rejected calls
  match accepted calls with
  | [] => ⟨rejected, none⟩
  | first :: rest =>
    let accepted := first :: rest
    match MergedBatch.ofCalls (accepted.map AcceptedCall.document) with
    | .error error =>
      ⟨rejected ++ accepted.map fun call => (call.number, .error (.merge error)), none⟩
    | .ok batch =>
      ⟨rejected,
        some ⟨Request.ofBatch batch (accepted.map AcceptedCall.supplied), batch.mapping, accepted⟩⟩

end FlushPlan

end QueryBatching
