/-
The multiplexer as a machine.

Callers submit queries through handles.  A collector takes them from a queue one by one:
the first opens a batch and fixes its deadline, further ones join, and the batch is
handed over when it is full, when its deadline has come, or when the queue is empty and
the last handle gone.  Batches that were handed over are flushed on their own, while the
collector goes on.

At its deadline a batch is handed over even if calls are in the queue: the collector looks
at the queue before it looks at the time, and a call may come in between.

Time is told by a clock that is not part of the machine.  All that is known of it is that it
has a last instant.  A batch whose window would end behind that cannot be given a deadline:
opening it is the end of the collector, which takes the call it has taken and the queue with
it.  All these calls are dropped, and so is every call that is submitted afterwards.

`Machine.step?` says what each event does, and that an event which cannot happen does
nothing.  It leaves open when events happen: a run is any sequence of possible events, so
the collector may be slow, answers may come in any order, and a flush may be aborted
before it began.  Whatever holds of all runs holds under every schedule.

The machine keeps its history, which calls were submitted when and which batches they
went into, so that statements about runs are statements about its state.
-/
import QueryBatching.Multiplexer.Config
import QueryBatching.Multiplexer.Flush

namespace QueryBatching

/-- A batch that is collecting calls. -/
structure OpenBatch where
  calls : List SubmittedCall
  /-- When it is flushed at the latest. -/
  deadline : Nat
deriving Repr, Inhabited

/-- How far the flush of a batch has come. -/
inductive FlushStage where
  /-- The batch has been handed over and its flush not begun. -/
  | ready
  /-- The request of the batch is out. -/
  | waiting (sent : SentBatch)
  /-- The flush is over: every call is resolved. -/
  | over
deriving Repr, Inhabited

/-- A batch that has been handed over. -/
structure FlushedBatch where
  calls : List SubmittedCall
  /-- When it was handed over. -/
  time : Nat
  stage : FlushStage
deriving Repr, Inhabited

/-- The state of a multiplexer and everything it has started. -/
structure Machine where
  config : BatchConfig
  /-- The last instant of the clock. -/
  last : Nat
  now : Nat := 0
  /-- How many handles there are. -/
  handles : Nat := 1
  /-- When the last handle was dropped. -/
  closed? : Option Nat := none
  /-- All calls ever submitted, in order. -/
  submitted : List SubmittedCall := []
  /-- The calls the collector has not taken yet. -/
  queue : List SubmittedCall := []
  collecting? : Option OpenBatch := none
  /-- If the collector has stopped: the calls that it held or that came too late, in order. -/
  lost? : Option (List SubmittedCall) := none
  /-- All batches ever handed over, in order. -/
  flushed : List FlushedBatch := []
  /-- All requests ever sent, each with the number of its batch. -/
  requests : List (Nat × Request) := []
  /-- All results ever delivered, each with the number of its call. -/
  results : List (Nat × CallResult) := []
deriving Inhabited

/-- Something that happens to a multiplexer. -/
inductive MachineEvent where
  /-- A query is submitted through a handle. -/
  | submit (query : String) (values : List (String × Json))
  /-- A handle is cloned. -/
  | clone
  /-- A handle is dropped. -/
  | drop
  /-- Time passes. -/
  | wait (duration : Nat)
  /-- The collector takes the next call from the queue. -/
  | receive
  /-- The collector hands its batch over. -/
  | flush
  /-- The flush of a batch begins: it rejects what it has to and sends its request. -/
  | start (batch : Nat)
  /-- The transport answers the request of a batch, or fails. -/
  | answer (batch : Nat) (answer : Except String TransportResponse)
  /-- The flush of a batch is aborted. -/
  | abort (batch : Nat)
deriving Inhabited

namespace Machine

/-- The last instant, in milliseconds, of a clock that counts seconds with 63 bits. -/
def lastInstant : Nat := 9223372036854775808 * 1000 - 1

/-- A multiplexer with one handle and nothing submitted, at the start of a clock. -/
def new (config : BatchConfig) (last : Nat) : Machine := { config, last }

/-- The calls that are in no batch and never will be, because the collector has stopped. -/
def lost (machine : Machine) : List SubmittedCall := machine.lost?.getD []

/-- Whether the batch being collected can be handed over now. -/
def isDue (machine : Machine) (batch : OpenBatch) : Bool :=
  machine.config.isFull batch.calls.length || batch.deadline ≤ machine.now ||
    (machine.queue.isEmpty && machine.handles == 0)

/-- The machine with the flush of a batch at another stage. -/
def setStage (machine : Machine) (batch : Nat) (stage : FlushStage) : Machine :=
  { machine with
    flushed := machine.flushed.modify batch fun flushed => { flushed with stage } }

/-- The machine with more results delivered. -/
def deliver (machine : Machine) (results : List (Nat × CallResult)) : Machine :=
  { machine with results := machine.results ++ results }

/-- The results of calls that are dropped: nobody is left who could give them another. -/
def droppedResults (numbers : List Nat) : List (Nat × CallResult) :=
  numbers.map fun number => (number, .error .dropped)

/-- The machine after its collector stopped, with these calls in its hands. -/
def stop (machine : Machine) (calls : List SubmittedCall) : Machine :=
  { machine.deliver (droppedResults (calls.map SubmittedCall.number)) with
    queue := [], lost? := some calls }

/-- The machine after its collector took `call`, and `queue` was left. -/
def take (machine : Machine) (call : SubmittedCall) (queue : List SubmittedCall) :
    Option Machine :=
  match machine.collecting? with
  | none =>
    let deadline := machine.now + machine.config.window
    if deadline ≤ machine.last then
      some { machine with queue, collecting? := some ⟨[call], deadline⟩ }
    else some (machine.stop (call :: queue))
  | some batch =>
    if machine.config.isFull batch.calls.length then none
    else
      some { machine with
        queue, collecting? := some { batch with calls := batch.calls ++ [call] } }

/-- The machine after `call` was submitted.  Without a collector it is dropped at once. -/
def enqueue (machine : Machine) (call : SubmittedCall) : Machine :=
  let machine := { machine with submitted := machine.submitted ++ [call] }
  match machine.lost? with
  | none => { machine with queue := machine.queue ++ [call] }
  | some lost =>
    { machine.deliver (droppedResults [call.number]) with lost? := some (lost ++ [call]) }

/-- The machine after the flush of a batch began, which does not wait for anything. -/
def begin (machine : Machine) (batch : Nat) (calls : List SubmittedCall) : Machine :=
  let plan := FlushPlan.ofCalls calls
  let machine := machine.deliver plan.resolved
  match plan.sent? with
  | none => machine.setStage batch .over
  | some sent =>
    { machine.setStage batch (.waiting sent) with
      requests := machine.requests ++ [(batch, sent.request)] }

/-- The machine after an event; none if the event cannot happen. -/
def step? (machine : Machine) : MachineEvent → Option Machine
  | .submit query values =>
    if machine.handles = 0 then none
    else some (machine.enqueue ⟨machine.submitted.length, machine.now, query, values⟩)
  | .clone =>
    if machine.handles = 0 then none
    else some { machine with handles := machine.handles + 1 }
  | .drop =>
    match machine.handles with
    | 0 => none
    | 1 => some { machine with handles := 0, closed? := some machine.now }
    | handles + 1 => some { machine with handles }
  | .wait duration => some { machine with now := machine.now + duration }
  | .receive =>
    match machine.queue with
    | [] => none
    | call :: queue => machine.take call queue
  | .flush =>
    match machine.collecting? with
    | none => none
    | some batch =>
      if machine.isDue batch then
        some { machine with
          collecting? := none,
          flushed := machine.flushed ++ [⟨batch.calls, machine.now, .ready⟩] }
      else none
  | .start batch =>
    match machine.flushed[batch]? with
    | some ⟨calls, _, .ready⟩ => some (machine.begin batch calls)
    | _ => none
  | .answer batch answer =>
    match machine.flushed[batch]? with
    | some ⟨_, _, .waiting sent⟩ =>
      some ((machine.deliver (sent.resolve answer)).setStage batch .over)
    | _ => none
  | .abort batch =>
    match machine.flushed[batch]? with
    | some ⟨calls, _, .ready⟩ =>
      some ((machine.deliver (droppedResults (calls.map SubmittedCall.number))).setStage
        batch .over)
    | some ⟨_, _, .waiting sent⟩ =>
      some ((machine.deliver (droppedResults (sent.calls.map AcceptedCall.number))).setStage
        batch .over)
    | _ => none

/-- The machine after an event, or as it was if the event cannot happen. -/
def step (machine : Machine) (event : MachineEvent) : Machine :=
  (machine.step? event).getD machine

/-- The machine after events, all of which can happen in their turn. -/
def run? (machine : Machine) (events : List MachineEvent) : Option Machine :=
  events.foldlM step? machine

end Machine

end QueryBatching
