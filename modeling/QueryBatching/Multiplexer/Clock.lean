/-
Running a multiplexer on a virtual clock.

The clock drives the machine the way a scheduler with nothing else to do would: whatever
can happen now happens before any time passes, the collector first, and time passes from
one thing that is due to the next.  The transport is a script that says for each request,
in the order they are sent, after what delay it is answered and how.
-/
import QueryBatching.Multiplexer.Machine

namespace QueryBatching

/-- How a request of a script ends. -/
inductive ScriptedOutcome where
  | answer (answer : Except String TransportResponse)
  | abort
deriving Inhabited

/-- What happens to one request. -/
structure ScriptedReply where
  delay : Nat := 0
  outcome : ScriptedOutcome := .answer (.ok {})
deriving Inhabited

/-- A request whose reply is still to come. -/
structure Timer where
  /-- When it comes. -/
  due : Nat
  batch : Nat
  outcome : ScriptedOutcome
deriving Inhabited

/-- A machine, its transport, and the replies under way. -/
structure Clock where
  machine : Machine
  script : List ScriptedReply
  /-- The replies under way, in the order of their requests. -/
  timers : List Timer := []
deriving Inhabited

/-- What a caller does. -/
inductive CallerStep where
  | query (query : String) (values : List (String × Json))
  | clone
  | drop
  | sleep (duration : Nat)
deriving Inhabited

namespace Machine

/-- Something the machine can do on its own, without time passing: the collector's work first. -/
def ready? (machine : Machine) : Option MachineEvent :=
  if (machine.step? .receive).isSome then some .receive
  else if (machine.step? .flush).isSome then some .flush
  else
    (machine.flushed.findIdx? fun batch =>
      match batch.stage with
      | .ready => true
      | _ => false).map MachineEvent.start

/-- Lets the machine work on its own for at most so many steps. -/
def settleFor : (steps : Nat) → Machine → Machine
  | 0, machine => machine
  | steps + 1, machine =>
    match machine.ready? with
    | some event => settleFor steps (machine.step event)
    | none => machine

/--
Lets the machine work on its own until nothing is left to do.  A call is taken once, a
batch has at least one call, and is handed over once and begun once, so there are at
most three steps for each call that was ever submitted.
-/
def settle (machine : Machine) : Machine :=
  settleFor (3 * machine.submitted.length) machine

/-- Every call that was submitted and has no result. -/
def unresolved (machine : Machine) : List SubmittedCall :=
  machine.submitted.filter fun call =>
    machine.results.all fun (number, _) => number ≠ call.number

end Machine

namespace Clock

/-- A new multiplexer with a script for its transport, and a clock up to a last instant. -/
def new (config : BatchConfig) (last : Nat) (script : List ScriptedReply) : Clock :=
  { machine := .new config last, script }

/-- The timers for the requests that were sent after the first `known`. -/
def newTimers (clock : Clock) (known : Nat) : List Timer :=
  ((clock.machine.requests.zipIdx).drop known).map fun ((batch, _), number) =>
    let reply := (clock.script[number]?).getD {}
    ⟨clock.machine.now + reply.delay, batch, reply.outcome⟩

/-- The event that a timer stands for. -/
def timerEvent (timer : Timer) : MachineEvent :=
  match timer.outcome with
  | .answer answer => .answer timer.batch answer
  | .abort => .abort timer.batch

/-- Everything that can happen now, happens. -/
def settle (clock : Clock) : Clock :=
  let known := clock.machine.requests.length
  let clock := { clock with machine := clock.machine.settle }
  let timers := clock.timers ++ clock.newTimers known
  let (now, later) := timers.partition fun timer => timer.due ≤ clock.machine.now
  let machine := (now.map timerEvent).foldl Machine.step clock.machine
  { clock with machine, timers := later }

/-- The next time at which something is due. -/
def nextDue? (clock : Clock) : Option Nat :=
  let deadline := clock.machine.collecting?.toList.map OpenBatch.deadline
  (deadline ++ clock.timers.map Timer.due).min?

/-- Lets time pass until `target`, with at most so many stops on the way. -/
def passUntil (target : Nat) : (stops : Nat) → Clock → Clock
  | 0, clock => clock
  | stops + 1, clock =>
    let due := (clock.nextDue?.getD target).min target
    let clock := settle { clock with
      machine := clock.machine.step (.wait (due - clock.machine.now)) }
    if due = target then clock else passUntil target stops clock

/--
Lets time pass.  Every stop on the way flushes a batch or ends a request, so there are at
most two for each call that was ever submitted, and one at the end.
-/
def sleep (clock : Clock) (duration : Nat) : Clock :=
  passUntil (clock.machine.now + duration) (2 * clock.machine.submitted.length + 1) clock

/-- What a caller does, and everything that happens because of it. -/
def step (clock : Clock) : CallerStep → Clock
  | .query query values =>
    settle { clock with machine := clock.machine.step (.submit query values) }
  | .clone => settle { clock with machine := clock.machine.step .clone }
  | .drop => settle { clock with machine := clock.machine.step .drop }
  | .sleep duration => sleep clock duration

/-- Drops every handle there is, then lets a long time pass. -/
def finish (clock : Clock) (duration : Nat) : Clock :=
  sleep ((List.range clock.machine.handles).foldl (fun clock _ => clock.step .drop) clock)
    duration

end Clock

end QueryBatching
