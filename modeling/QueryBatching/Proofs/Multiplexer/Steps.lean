/-
What a multiplexer does, event by event.

`Machine.Steps` has one case for each thing that can happen, with what must hold for it and what
becomes of the machine.  `step?_eq_some_iff` says that these are the steps of the machine, and no
later module opens the step function again.

All that a flush does is one case: the batch comes to another stage, results are delivered and
perhaps a request is sent.  Which stage follows which is `FlushStage.Moves`, where no other batch
and no queue is in sight.

`run_induction` is the way to every statement about runs: what holds at the start and is kept by
each step, given the events so far, holds after all events.
-/
import Mathlib.Data.List.Induction
import QueryBatching.Multiplexer.Machine

namespace QueryBatching

/-! ### The flush of one batch -/

/-- Something that happens to the flush of a batch. -/
inductive FlushEvent where
  | start
  | answer (answer : Except String TransportResponse)
  | abort

/-- What happens to the flush of the batch with a number, as an event of the whole machine. -/
def FlushEvent.toMachine (number : Nat) : FlushEvent → MachineEvent
  | .start => .start number
  | .answer response => .answer number response
  | .abort => .abort number

open Machine (droppedResults) in
/--
How the flush of a batch goes on from one stage to another with an event, the results it delivers,
and the requests it sends.
-/
inductive FlushStage.Moves (calls : List SubmittedCall) :
    FlushStage → FlushEvent → FlushStage → List (Nat × CallResult) → List Request → Prop
  /-- Nothing is to be sent, and all calls are resolved at once. -/
  | settle (hplan : (FlushPlan.ofCalls calls).sent? = none) :
      Moves calls .ready .start .over (FlushPlan.ofCalls calls).resolved []
  /-- The request is sent, and the calls that are not in it are resolved. -/
  | send {sent : SentBatch} (hplan : (FlushPlan.ofCalls calls).sent? = some sent) :
      Moves calls .ready .start (.waiting sent) (FlushPlan.ofCalls calls).resolved [sent.request]
  /-- The request is answered, or has failed. -/
  | answer (sent : SentBatch) (answer : Except String TransportResponse) :
      Moves calls (.waiting sent) (.answer answer) .over (sent.resolve answer) []
  /-- The flush is aborted before it began. -/
  | abortReady :
      Moves calls .ready .abort .over (droppedResults (calls.map SubmittedCall.number)) []
  /-- The flush is aborted while its request is out. -/
  | abortWaiting (sent : SentBatch) :
      Moves calls (.waiting sent) .abort .over
        (droppedResults (sent.calls.map AcceptedCall.number)) []

namespace Machine

/-! ### The steps of a machine -/

/-- The call that is submitted next. -/
def nextCall (machine : Machine) (query : String) (values : List (String × Json)) :
    SubmittedCall :=
  ⟨machine.submitted.length, machine.now, query, values⟩

/-- The machine after the flush of a batch came to another stage. -/
def advance (machine : Machine) (number : Nat) (stage : FlushStage)
    (delivered : List (Nat × CallResult)) (requests : List Request) : Machine :=
  { machine with
    flushed := machine.flushed.modify number fun batch => { batch with stage }
    results := machine.results ++ delivered
    requests := machine.requests ++ requests.map fun request => (number, request) }

/-- What an event that can happen does to a machine. -/
inductive Steps (machine : Machine) : MachineEvent → Machine → Prop
  | submit (query : String) (values : List (String × Json)) (hopen : machine.handles ≠ 0)
      (hlost : machine.lost? = none) :
      Steps machine (.submit query values)
        { machine with
          submitted := machine.submitted ++ [machine.nextCall query values]
          queue := machine.queue ++ [machine.nextCall query values] }
  /-- A query is submitted after the collector has stopped. -/
  | refuse (query : String) (values : List (String × Json)) (hopen : machine.handles ≠ 0)
      {lost : List SubmittedCall} (hlost : machine.lost? = some lost) :
      Steps machine (.submit query values)
        { machine with
          submitted := machine.submitted ++ [machine.nextCall query values]
          lost? := some (lost ++ [machine.nextCall query values])
          results := machine.results ++
            droppedResults [(machine.nextCall query values).number] }
  | clone (hopen : machine.handles ≠ 0) :
      Steps machine .clone { machine with handles := machine.handles + 1 }
  /-- The last handle is dropped. -/
  | close (hone : machine.handles = 1) :
      Steps machine .drop { machine with handles := 0, closed? := some machine.now }
  /-- A handle is dropped, and there is another one. -/
  | drop {handles : Nat} (hmany : machine.handles = handles + 2) :
      Steps machine .drop { machine with handles := handles + 1 }
  | wait (duration : Nat) :
      Steps machine (.wait duration) { machine with now := machine.now + duration }
  /-- The call taken from the queue opens a batch. -/
  | openBatch {call : SubmittedCall} {queue : List SubmittedCall}
      (hqueue : machine.queue = call :: queue) (hcollecting : machine.collecting? = none)
      (hends : machine.now + machine.config.window ≤ machine.last) :
      Steps machine .receive
        { machine with
          queue, collecting? := some ⟨[call], machine.now + machine.config.window⟩ }
  /-- The batch that the call would open has no deadline, and the collector stops. -/
  | stop {call : SubmittedCall} {queue : List SubmittedCall}
      (hqueue : machine.queue = call :: queue) (hcollecting : machine.collecting? = none)
      (hends : machine.last < machine.now + machine.config.window) :
      Steps machine .receive (machine.stop (call :: queue))
  /-- The call taken from the queue joins the batch, which is not full. -/
  | join {call : SubmittedCall} {queue : List SubmittedCall} {batch : OpenBatch}
      (hqueue : machine.queue = call :: queue) (hcollecting : machine.collecting? = some batch)
      (hroom : machine.config.isFull batch.calls.length = false) :
      Steps machine .receive
        { machine with
          queue, collecting? := some { batch with calls := batch.calls ++ [call] } }
  | handOver {batch : OpenBatch} (hcollecting : machine.collecting? = some batch)
      (hdue : machine.isDue batch = true) :
      Steps machine .flush
        { machine with
          collecting? := none
          flushed := machine.flushed ++ [⟨batch.calls, machine.now, .ready⟩] }
  /-- The flush of a batch goes on. -/
  | flush {number : Nat} {batch : FlushedBatch} {event : FlushEvent} {stage : FlushStage}
      {delivered : List (Nat × CallResult)} {requests : List Request}
      (hbatch : machine.flushed[number]? = some batch)
      (hmoves : batch.stage.Moves batch.calls event stage delivered requests) :
      Steps machine (event.toMachine number) (machine.advance number stage delivered requests)

theorem setStage_deliver (machine : Machine) (number : Nat) (stage : FlushStage)
    (delivered : List (Nat × CallResult)) :
    (machine.deliver delivered).setStage number stage =
      machine.advance number stage delivered [] := by
  simp [deliver, setStage, advance]

theorem begin_of_none {machine : Machine} {number : Nat} {calls : List SubmittedCall}
    (hplan : (FlushPlan.ofCalls calls).sent? = none) :
    machine.begin number calls =
      machine.advance number .over (FlushPlan.ofCalls calls).resolved [] := by
  simp only [begin, hplan, setStage_deliver]

theorem begin_of_some {machine : Machine} {number : Nat} {calls : List SubmittedCall}
    {sent : SentBatch} (hplan : (FlushPlan.ofCalls calls).sent? = some sent) :
    machine.begin number calls =
      machine.advance number (.waiting sent) (FlushPlan.ofCalls calls).resolved
        [sent.request] := by
  simp only [begin, hplan]
  rfl

theorem steps_begin {machine : Machine} {number time : Nat} {calls : List SubmittedCall}
    (hbatch : machine.flushed[number]? = some ⟨calls, time, .ready⟩) :
    Steps machine (.start number) (machine.begin number calls) := by
  cases hplan : (FlushPlan.ofCalls calls).sent? with
  | none => exact begin_of_none hplan ▸ .flush hbatch (.settle hplan)
  | some sent => exact begin_of_some hplan ▸ .flush hbatch (.send hplan)

theorem enqueue_of_none {machine : Machine} (hlost : machine.lost? = none) (call : SubmittedCall) :
    machine.enqueue call =
      { machine with
        submitted := machine.submitted ++ [call], queue := machine.queue ++ [call] } := by
  simp only [enqueue, hlost]

theorem enqueue_of_some {machine : Machine} {lost : List SubmittedCall}
    (hlost : machine.lost? = some lost) (call : SubmittedCall) :
    machine.enqueue call =
      { machine with
        submitted := machine.submitted ++ [call]
        lost? := some (lost ++ [call])
        results := machine.results ++ droppedResults [call.number] } := by
  simp only [enqueue, hlost]
  rfl

theorem steps_enqueue {machine : Machine} (hopen : machine.handles ≠ 0) (query : String)
    (values : List (String × Json)) :
    Steps machine (.submit query values) (machine.enqueue (machine.nextCall query values)) := by
  cases hlost : machine.lost? with
  | none => exact enqueue_of_none hlost _ ▸ .submit query values hopen hlost
  | some lost => exact enqueue_of_some hlost _ ▸ .refuse query values hopen hlost

/-- A step of the machine is one of its steps. -/
theorem steps_of_step? {machine next : Machine} {event : MachineEvent}
    (h : machine.step? event = some next) : Steps machine event next := by
  cases event with
  | submit query values =>
      simp only [step?, Option.ite_none_left_eq_some, Option.some.injEq] at h
      obtain ⟨hopen, rfl⟩ := h
      exact steps_enqueue hopen query values
  | clone =>
      simp only [step?, Option.ite_none_left_eq_some, Option.some.injEq] at h
      obtain ⟨hopen, rfl⟩ := h
      exact .clone hopen
  | drop =>
      rcases hhandles : machine.handles with _ | _ | handles
      · simp only [step?, hhandles, reduceCtorEq] at h
      · simp only [step?, hhandles, Option.some.injEq] at h
        exact h ▸ .close hhandles
      · simp only [step?, hhandles, Option.some.injEq] at h
        exact h ▸ .drop hhandles
  | wait duration => exact Option.some.inj h ▸ .wait duration
  | receive =>
      simp only [step?] at h
      split at h
      · simp at h
      · rename_i call queue hqueue
        unfold take at h
        split at h
        · rename_i hcollecting
          dsimp only at h
          split at h
          · rename_i hends
            exact Option.some.inj h ▸ .openBatch hqueue hcollecting hends
          · rename_i hends
            exact Option.some.inj h ▸ .stop hqueue hcollecting (Nat.lt_of_not_le hends)
        · rename_i batch hcollecting
          simp only [Option.ite_none_left_eq_some, Bool.not_eq_true, Option.some.injEq] at h
          obtain ⟨hroom, rfl⟩ := h
          exact .join hqueue hcollecting hroom
  | flush =>
      simp only [step?] at h
      split at h
      · simp at h
      · rename_i batch hcollecting
        simp only [Option.ite_none_right_eq_some, Option.some.injEq] at h
        obtain ⟨hdue, rfl⟩ := h
        exact .handOver hcollecting hdue
  | start number =>
      simp only [step?] at h
      split at h
      · rename_i calls time hbatch
        exact Option.some.inj h ▸ steps_begin hbatch
      · simp at h
  | answer number answer =>
      simp only [step?] at h
      split at h
      · rename_i calls time sent hbatch
        rw [setStage_deliver, Option.some.injEq] at h
        exact h ▸ .flush hbatch (.answer sent answer)
      · simp at h
  | abort number =>
      simp only [step?] at h
      split at h
      · rename_i calls time hbatch
        rw [setStage_deliver, Option.some.injEq] at h
        exact h ▸ .flush hbatch .abortReady
      · rename_i calls time sent hbatch
        rw [setStage_deliver, Option.some.injEq] at h
        exact h ▸ .flush hbatch (.abortWaiting sent)
      · simp at h

theorem step?_of_moves {machine : Machine} {number : Nat} {batch : FlushedBatch}
    {event : FlushEvent} {stage : FlushStage} {delivered : List (Nat × CallResult)}
    {requests : List Request} (hbatch : machine.flushed[number]? = some batch)
    (hmoves : batch.stage.Moves batch.calls event stage delivered requests) :
    machine.step? (event.toMachine number) =
      some (machine.advance number stage delivered requests) := by
  obtain ⟨calls, time, old⟩ := batch
  cases hmoves with
  | settle hplan => simp only [FlushEvent.toMachine, step?, hbatch, begin_of_none hplan]
  | send hplan => simp only [FlushEvent.toMachine, step?, hbatch, begin_of_some hplan]
  | answer sent answer => simp only [FlushEvent.toMachine, step?, hbatch, setStage_deliver]
  | abortReady => simp only [FlushEvent.toMachine, step?, hbatch, setStage_deliver]
  | abortWaiting sent => simp only [FlushEvent.toMachine, step?, hbatch, setStage_deliver]

/-- **The steps are those of the machine**: all of them, and no others. -/
theorem step?_eq_some_iff {machine next : Machine} {event : MachineEvent} :
    machine.step? event = some next ↔ Steps machine event next := by
  refine ⟨steps_of_step?, fun h => ?_⟩
  cases h with
  | submit query values hopen hlost =>
      simp only [step?, if_neg hopen, enqueue_of_none hlost, nextCall]
  | refuse query values hopen hlost =>
      simp only [step?, if_neg hopen, enqueue_of_some hlost, nextCall]
  | clone hopen => simp only [step?, if_neg hopen]
  | close hone => simp only [step?, hone]
  | drop hmany => simp only [step?, hmany]
  | wait duration => rfl
  | openBatch hqueue hcollecting hends =>
      simp only [step?, hqueue, take, hcollecting, if_pos hends]
  | stop hqueue hcollecting hends =>
      simp only [step?, hqueue, take, hcollecting, if_neg (Nat.not_le.mpr hends)]
  | join hqueue hcollecting hroom =>
      simp only [step?, hqueue, take, hcollecting, hroom, Bool.false_eq_true, if_false]
  | handOver hcollecting hdue => simp only [step?, hcollecting, hdue, if_true]
  | flush hbatch hmoves => exact step?_of_moves hbatch hmoves

/-! ### The batches after a flush went on -/

/-- A flush that goes on changes the stage of its batch, and no other batch. -/
theorem exists_flushed_advance {machine : Machine} {number : Nat} {batch : FlushedBatch}
    (hbatch : machine.flushed[number]? = some batch) (stage : FlushStage)
    (delivered : List (Nat × CallResult)) (requests : List Request) :
    ∃ front back, front.length = number ∧ machine.flushed = front ++ batch :: back ∧
      (machine.advance number stage delivered requests).flushed =
        front ++ { batch with stage } :: back := by
  obtain ⟨hlength, hget⟩ := List.getElem?_eq_some_iff.mp hbatch
  obtain ⟨front, found, back, hsplit, hfront, hmodify⟩ :=
    List.exists_of_modify (fun batch : FlushedBatch => { batch with stage }) hlength
  obtain rfl : found = batch := by
    rw [← hget, List.getElem_of_eq hsplit, List.getElem_append_right (Nat.le_of_eq hfront)]
    simp [hfront]
  exact ⟨front, back, hfront, hsplit, hmodify⟩

theorem flushed_advance_self {machine : Machine} {number : Nat} {batch : FlushedBatch}
    (hbatch : machine.flushed[number]? = some batch) (stage : FlushStage)
    (delivered : List (Nat × CallResult)) (requests : List Request) :
    (machine.advance number stage delivered requests).flushed[number]? =
      some { batch with stage } := by
  simp [advance, hbatch]

theorem flushed_advance_of_ne (machine : Machine) {number other : Nat} (hne : number ≠ other)
    (stage : FlushStage) (delivered : List (Nat × CallResult)) (requests : List Request) :
    (machine.advance number stage delivered requests).flushed[other]? =
      machine.flushed[other]? := by
  simp [advance, hne]

/-! ### Runs -/

theorem run?_append {start final : Machine} {events more : List MachineEvent} :
    start.run? (events ++ more) = some final ↔
      ∃ machine, start.run? events = some machine ∧ machine.run? more = some final := by
  simp only [run?, List.foldlM_append, Option.bind_eq_bind, Option.bind_eq_some_iff]

theorem run?_cons {start final : Machine} {event : MachineEvent} {more : List MachineEvent} :
    start.run? (event :: more) = some final ↔
      ∃ machine, Steps start event machine ∧ machine.run? more = some final := by
  simp only [run?, List.foldlM_cons, Option.bind_eq_bind, Option.bind_eq_some_iff,
    step?_eq_some_iff]

theorem run?_concat {start final : Machine} {events : List MachineEvent} {event : MachineEvent} :
    start.run? (events ++ [event]) = some final ↔
      ∃ machine, start.run? events = some machine ∧ Steps machine event final := by
  rw [run?_append]
  refine exists_congr fun machine => and_congr_right fun _ => ?_
  rw [run?_cons]
  constructor
  · rintro ⟨next, hsteps, hdone⟩
    exact Option.some.inj hdone ▸ hsteps
  · intro hsteps
    exact ⟨final, hsteps, rfl⟩

/-- What holds at the start and is kept by each step holds after every run. -/
theorem run_induction {start : Machine} {motive : List MachineEvent → Machine → Prop}
    (hstart : motive [] start)
    (hstep : ∀ {events machine event next}, start.run? events = some machine →
      motive events machine → Steps machine event next → motive (events ++ [event]) next)
    {events : List MachineEvent} {machine : Machine} (hrun : start.run? events = some machine) :
    motive events machine := by
  induction events using List.reverseRecOn generalizing machine with
  | nil => exact Option.some.inj hrun ▸ hstart
  | append_singleton events event ih =>
      obtain ⟨middle, hmiddle, hsteps⟩ := run?_concat.mp hrun
      exact hstep hmiddle (ih hmiddle) hsteps

end Machine

end QueryBatching
