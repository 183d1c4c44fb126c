/-
Collecting keeps every call, once and in order.

The calls of the batches that were handed over, then those of the batch that is collecting, then
those in the queue: together they are the calls that were submitted, in the order in which they
were.  A step of the collector moves the border between two of the three, and no call past
another.  `Collects` is that invariant, with the sizes of the batches beside it.

Behind them come the calls that are lost because the collector has stopped.  It only does so when
it opens a batch whose window ends behind the last instant of the clock, so there are none as long
as the clock lasts for another window.

What happens in the end does not follow from an invariant, because a machine may stop at any time.
It follows from two facts about a machine without handles: its collector is not stuck while a call
waits, and it has only so much work left, whatever else happens meanwhile.
-/
import QueryBatching.Proofs.Multiplexer.Steps

namespace QueryBatching

namespace BatchConfig

/-- A batch of so many calls can be handed over.  A limit of zero allows one call, as one does. -/
def Allows (config : BatchConfig) (count : Nat) : Prop :=
  0 < count ∧ ∀ limit, config.maxBatchSize? = some limit → count ≤ max 1 limit

theorem allows_one (config : BatchConfig) : config.Allows 1 :=
  ⟨Nat.one_pos, fun limit _ => Nat.le_max_left 1 limit⟩

/-- A batch that is not full may take one call more. -/
theorem allows_succ {config : BatchConfig} {count : Nat} (hroom : config.isFull count = false) :
    config.Allows (count + 1) := by
  refine ⟨Nat.succ_pos count, fun limit hlimit => ?_⟩
  simp only [isFull, hlimit, Option.any_some, decide_eq_false_iff_not] at hroom
  omega

theorem word?_le {value : Json} {word : Nat} (h : word? value = some word) : word ≤ maxWord := by
  cases value with
  | number text =>
      obtain ⟨-, hle⟩ := Option.filter_eq_some_iff.mp h
      simpa using hle
  | _ => exact absurd h (by simp [word?])

/-- A setting that is read has its default or a value that is in the text. -/
theorem setting?_cases {α : Type} {read : Json → Option α} {default setting : α} {key : String}
    {members : List (String × Json)} (h : setting? read default key members = some setting) :
    setting = default ∨ ∃ value, read value = some setting := by
  unfold setting? at h
  split at h
  · exact .inl (Option.some.inj h).symm
  · exact .inr ⟨_, h⟩
  · exact absurd h (by simp)

/-- **A window that is read is a number of 64 bits.** -/
theorem window_le_of_read? {text : String} {config : BatchConfig} (h : read? text = some config) :
    config.window ≤ maxWord := by
  obtain ⟨json, -, hjson⟩ := Option.bind_eq_some_iff.mp h
  unfold ofJson? at hjson
  split at hjson
  · simp only [Option.bind_eq_bind, Option.bind_eq_some_iff, Option.pure_def,
      Option.some.injEq] at hjson
    obtain ⟨window, hwindow, -, -, rfl⟩ := hjson
    rcases setting?_cases hwindow with rfl | ⟨value, hvalue⟩
    · exact (by decide : 10 ≤ maxWord)
    · exact word?_le hvalue
  · obtain rfl := Option.some.inj hjson
    exact (by decide : 10 ≤ maxWord)
  · simp only [Option.bind_eq_bind, Option.bind_eq_some_iff, Option.pure_def,
      Option.some.injEq] at hjson
    obtain ⟨window, hwindow, rfl⟩ := hjson
    exact word?_le hwindow
  · simp only [Option.bind_eq_bind, Option.bind_eq_some_iff, Option.pure_def,
      Option.some.injEq] at hjson
    obtain ⟨window, hwindow, -, -, rfl⟩ := hjson
    exact word?_le hwindow
  · exact absurd hjson (by simp)

end BatchConfig

/-- What a call asks for: its query and the values of its variables. -/
def SubmittedCall.asked (call : SubmittedCall) : String × List (String × Json) :=
  (call.query, call.values)

namespace MachineEvent

/-- What the call asks for that is submitted, if one is. -/
def asked? : MachineEvent → Option (String × List (String × Json))
  | .submit query values => some (query, values)
  | _ => none

/-- Whether the collector does something. -/
def isCollecting : MachineEvent → Bool
  | .receive | .flush => true
  | _ => false
end MachineEvent

namespace FlushEvent

/-- A flush that goes on submits nothing. -/
theorem asked?_toMachine (event : FlushEvent) (number : Nat) :
    (event.toMachine number).asked? = none := by
  cases event <;> rfl

/-- A flush goes on without the collector. -/
theorem isCollecting_toMachine (event : FlushEvent) (number : Nat) :
    (event.toMachine number).isCollecting = false := by
  cases event <;> rfl

end FlushEvent

namespace Machine

/-! ### What was submitted -/

/-- The settings never change. -/
theorem Steps.config_eq {machine next : Machine} {event : MachineEvent}
    (h : Steps machine event next) : next.config = machine.config := by
  cases h <;> rfl

theorem config_eq_of_run {start machine : Machine} {events : List MachineEvent}
    (hrun : start.run? events = some machine) : machine.config = start.config :=
  run_induction (motive := fun _ machine => machine.config = start.config) rfl
    (fun _ hconfig hsteps => hsteps.config_eq.trans hconfig) hrun

/-- A step leaves the clock as it is, and does not turn it back. -/
theorem Steps.clock {machine next : Machine} {event : MachineEvent}
    (h : Steps machine event next) : next.last = machine.last ∧ machine.now ≤ next.now := by
  cases h with
  | wait duration => exact ⟨rfl, Nat.le_add_right _ _⟩
  | _ => exact ⟨rfl, Nat.le_refl _⟩

theorem last_eq_of_run {start machine : Machine} {events : List MachineEvent}
    (hrun : start.run? events = some machine) : machine.last = start.last :=
  run_induction (motive := fun _ machine => machine.last = start.last) rfl
    (fun _ hlast hsteps => hsteps.clock.1.trans hlast) hrun

/-- The calls submitted are what the events ask for, numbered in their order. -/
structure Records (events : List MachineEvent) (machine : Machine) : Prop where
  asked : machine.submitted.map SubmittedCall.asked = events.filterMap MachineEvent.asked?
  numbers : machine.submitted.map SubmittedCall.number = List.range machine.submitted.length

theorem Records.append_none {events : List MachineEvent} {machine next : Machine}
    {event : MachineEvent} (h : Records events machine) (hevent : event.asked? = none)
    (hsubmitted : next.submitted = machine.submitted) : Records (events ++ [event]) next := by
  refine ⟨?_, ?_⟩
  · rw [hsubmitted, List.filterMap_append, List.filterMap_cons_none hevent, List.filterMap_nil,
      List.append_nil, h.asked]
  · rw [hsubmitted, h.numbers]

theorem Records.submit {events : List MachineEvent} {machine next : Machine}
    (h : Records events machine) (query : String) (values : List (String × Json))
    (hsubmitted : next.submitted = machine.submitted ++ [machine.nextCall query values]) :
    Records (events ++ [.submit query values]) next := by
  refine ⟨?_, ?_⟩
  · rw [hsubmitted, List.map_append, List.filterMap_append, h.asked]
    rfl
  · rw [hsubmitted, List.map_append, h.numbers, List.length_append, List.length_singleton,
      List.range_succ]
    rfl

theorem Records.step {events : List MachineEvent} {machine next : Machine} {event : MachineEvent}
    (h : Records events machine) (hsteps : Steps machine event next) :
    Records (events ++ [event]) next := by
  cases hsteps with
  | submit query values hopen hlost => exact h.submit query values rfl
  | refuse query values hopen hlost => exact h.submit query values rfl
  | flush hbatch hmoves => exact h.append_none (FlushEvent.asked?_toMachine ..) rfl
  | _ => exact h.append_none rfl rfl

theorem records_of_run {config : BatchConfig} {last : Nat} {events : List MachineEvent}
    {machine : Machine} (hrun : (new config last).run? events = some machine) :
    Records events machine :=
  run_induction (motive := Records) ⟨rfl, rfl⟩ (fun _ h hsteps => h.step hsteps) hrun

/-! ### Where the calls are -/

/-- The calls of the batches that were handed over, batch by batch. -/
def handedOver (machine : Machine) : List SubmittedCall :=
  machine.flushed.flatMap FlushedBatch.calls

/-- The calls of the batch that is collecting. -/
def collected (machine : Machine) : List SubmittedCall :=
  machine.collecting?.elim [] OpenBatch.calls

/-- Every call is where it belongs, and every batch is one that can be handed over. -/
structure Collects (machine : Machine) : Prop where
  /-- The calls are handed over, collected, queued and lost in the order they were submitted. -/
  inOrder : machine.handedOver ++ machine.collected ++ machine.queue ++ machine.lost =
    machine.submitted
  /-- A collector that has stopped has lost a call, and holds nothing any more. -/
  stopped : ∀ lost ∈ machine.lost?,
    lost ≠ [] ∧ machine.queue = [] ∧ machine.collecting? = none
  flushed : ∀ calls ∈ machine.flushed.map FlushedBatch.calls,
    machine.config.Allows calls.length
  collecting : ∀ batch ∈ machine.collecting?, machine.config.Allows batch.calls.length

theorem lost_of_none {machine : Machine} (hlost : machine.lost? = none) : machine.lost = [] := by
  rw [lost, hlost, Option.getD_none]

/-- Nothing is lost while there is something in the queue. -/
theorem Collects.lost?_of_queue {machine : Machine} (h : machine.Collects) {call : SubmittedCall}
    {queue : List SubmittedCall} (hqueue : machine.queue = call :: queue) :
    machine.lost? = none := by
  by_contra hlost
  obtain ⟨lost, hlost⟩ := Option.ne_none_iff_exists'.mp hlost
  exact List.cons_ne_nil call queue (hqueue.symm.trans (h.stopped lost hlost).2.1)

/-- Nothing is lost while a batch is collecting. -/
theorem Collects.lost?_of_collecting {machine : Machine} (h : machine.Collects) {batch : OpenBatch}
    (hcollecting : machine.collecting? = some batch) : machine.lost? = none := by
  by_contra hlost
  obtain ⟨lost, hlost⟩ := Option.ne_none_iff_exists'.mp hlost
  exact Option.some_ne_none batch (hcollecting.symm.trans (h.stopped lost hlost).2.2)

/-- A flush that goes on leaves all batches with their calls. -/
theorem map_calls_advance (machine : Machine) (number : Nat) (stage : FlushStage)
    (delivered : List (Nat × CallResult)) (requests : List Request) :
    (machine.advance number stage delivered requests).flushed.map FlushedBatch.calls =
      machine.flushed.map FlushedBatch.calls := by
  refine List.ext_getElem? fun place => ?_
  by_cases hplace : number = place
  · cases hbatch : machine.flushed[place]? <;> simp [advance, hplace, hbatch]
  · simp [advance, hplace]

theorem handedOver_advance (machine : Machine) (number : Nat) (stage : FlushStage)
    (delivered : List (Nat × CallResult)) (requests : List Request) :
    (machine.advance number stage delivered requests).handedOver = machine.handedOver := by
  rw [handedOver, handedOver, List.flatMap_def, List.flatMap_def, map_calls_advance]

theorem collects_new (config : BatchConfig) (last : Nat) : (new config last).Collects where
  inOrder := rfl
  stopped := fun _ hlost => absurd hlost (by simp [new])
  flushed := fun _ hmem => absurd hmem List.not_mem_nil
  collecting := fun _ hmem => absurd hmem (by simp [new])

/-- **Each step keeps every call in its place.** -/
theorem Collects.step {machine next : Machine} {event : MachineEvent} (h : machine.Collects)
    (hsteps : Steps machine event next) : next.Collects := by
  obtain ⟨inOrder, stopped, flushed, collecting⟩ := h
  cases hsteps with
  | submit query values hopen hlost =>
      refine ⟨?_, fun _ hstopped => absurd hstopped (by simp [hlost]), flushed, collecting⟩
      show _ ++ (machine.queue ++ [machine.nextCall query values]) ++ machine.lost = _
      rw [lost_of_none hlost, List.append_nil] at inOrder ⊢
      rw [← List.append_assoc, ← inOrder]
      rfl
  | @refuse query values hopen lost hlost =>
      refine ⟨?_, fun more hmore => ?_, flushed, collecting⟩
      · show _ ++ (lost ++ [machine.nextCall query values]) = _
        rw [Machine.lost, hlost, Option.getD_some] at inOrder
        rw [← List.append_assoc, ← inOrder]
        rfl
      · obtain rfl := Option.mem_some.mp hmore
        exact ⟨by simp, (stopped lost hlost).2⟩
  | openBatch hqueue hcollecting hends =>
      refine ⟨?_, fun lost hlost => ?_, flushed, fun batch hmem => ?_⟩
      · rw [← inOrder, hqueue, collected, hcollecting]
        simp [collected, handedOver, Machine.lost]
      · exact absurd (stopped lost hlost).2.1 (by simp [hqueue])
      · obtain rfl := Option.mem_some.mp hmem
        exact machine.config.allows_one
  | stop hqueue hcollecting hends =>
      have hnone := Collects.lost?_of_queue ⟨inOrder, stopped, flushed, collecting⟩ hqueue
      refine ⟨?_, fun lost hlost => ⟨?_, rfl, hcollecting⟩, flushed, collecting⟩
      · rw [lost_of_none hnone, List.append_nil, hqueue] at inOrder
        show machine.handedOver ++ machine.collected ++ [] ++ (_ :: _) = machine.submitted
        rw [List.append_nil, inOrder]
      · exact Option.mem_some.mp hlost ▸ List.cons_ne_nil _ _
  | @join call queue batch hqueue hcollecting hroom =>
      refine ⟨?_, fun lost hlost => ?_, flushed, fun batch hmem => ?_⟩
      · rw [← inOrder, hqueue, collected, hcollecting]
        simp [collected, handedOver, Machine.lost]
      · exact absurd (stopped lost hlost).2.1 (by simp [hqueue])
      · obtain rfl := Option.mem_some.mp hmem
        rw [List.length_append, List.length_singleton]
        exact BatchConfig.allows_succ hroom
  | @handOver batch hcollecting hdue =>
      refine ⟨?_, fun lost hlost => ?_, fun calls hmem => ?_,
        fun batch hmem => absurd hmem (by simp)⟩
      · rw [← inOrder, collected, collected, hcollecting]
        simp [handedOver, Machine.lost]
      · exact ⟨(stopped lost hlost).1, (stopped lost hlost).2.1, rfl⟩
      · rw [List.map_append, List.mem_append, List.map_singleton, List.mem_singleton] at hmem
        rcases hmem with hmem | rfl
        · exact flushed calls hmem
        · exact collecting batch hcollecting
  | @flush number batch event stage delivered requests hbatch hmoves =>
      refine ⟨?_, stopped, ?_, collecting⟩
      · rw [handedOver_advance]
        exact inOrder
      · rw [map_calls_advance]
        exact flushed
  | _ => exact ⟨inOrder, stopped, flushed, collecting⟩

theorem collects_of_run {config : BatchConfig} {last : Nat} {events : List MachineEvent}
    {machine : Machine} (hrun : (new config last).run? events = some machine) : machine.Collects :=
  run_induction (motive := fun _ machine => machine.Collects) (collects_new config last)
    (fun _ h hsteps => h.step hsteps) hrun

/-! ### When the collector stops -/

/-- A window that opens now, or has been opened before, ends at an instant of the clock. -/
def ClockLasts (machine : Machine) : Prop := machine.now + machine.config.window ≤ machine.last

/-- One of the events stopped the collector: it took a call while no batch was collecting, and the
window of the batch that the call would have opened ends behind the last instant. -/
def StoppedIn (config : BatchConfig) (last : Nat) (events : List MachineEvent) : Prop :=
  ∃ before after machine, events = before ++ .receive :: after ∧
    (new config last).run? before = some machine ∧ machine.collecting? = none ∧
    machine.queue ≠ [] ∧ ¬ machine.ClockLasts

theorem StoppedIn.append {config : BatchConfig} {last : Nat} {events : List MachineEvent}
    (h : StoppedIn config last events) (event : MachineEvent) :
    StoppedIn config last (events ++ [event]) := by
  obtain ⟨before, after, machine, rfl, hstops⟩ := h
  exact ⟨before, after ++ [event], machine, by simp, hstops⟩

/-- What is lost stays lost. -/
theorem Steps.lost_prefix {machine next : Machine} {event : MachineEvent}
    (hsteps : Steps machine event next) (h : machine.Collects) : machine.lost <+: next.lost := by
  cases hsteps with
  | @refuse query values hopen lost hlost =>
      rw [Machine.lost, hlost]
      exact List.prefix_append ..
  | stop hqueue hcollecting hends =>
      rw [lost_of_none (h.lost?_of_queue hqueue)]
      exact List.nil_prefix
  | _ => exact List.prefix_rfl

section Stopping

variable {config : BatchConfig} {last : Nat} {events : List MachineEvent} {machine : Machine}

theorem stoppedIn_of_run (hrun : (new config last).run? events = some machine)
    (hlost : machine.lost? ≠ none) : StoppedIn config last events := by
  revert hlost
  refine run_induction (motive := fun events machine => machine.lost? ≠ none →
    StoppedIn config last events) (fun hlost => absurd rfl hlost)
    (fun {events machine event next} hrun ih hsteps hlost => ?_) hrun
  cases hsteps with
  | submit query values hopen hnone => exact absurd hnone hlost
  | refuse query values hopen hsome => exact (ih (by simp [hsome])).append _
  | stop hqueue hcollecting hends =>
      refine ⟨events, [], machine, rfl, hrun, hcollecting, by simp [hqueue], ?_⟩
      exact Nat.not_le.mpr hends
  | _ => exact (ih hlost).append _

/-- **Calls are lost exactly if the collector has stopped.** -/
theorem lost_ne_nil_iff (hrun : (new config last).run? events = some machine) :
    machine.lost ≠ [] ↔ StoppedIn config last events := by
  constructor
  · intro hlost
    exact stoppedIn_of_run hrun fun hnone => hlost (lost_of_none hnone)
  · rintro ⟨before, after, earlier, rfl, hbefore, hcollecting, hqueue, hends⟩
    obtain ⟨middle, hmiddle, hreceive⟩ := run?_append.mp hrun
    obtain rfl := Option.some.inj (hbefore.symm.trans hmiddle)
    obtain ⟨next, hsteps, hafter⟩ := run?_cons.mp hreceive
    obtain ⟨call, queue, hcons⟩ := List.exists_cons_of_ne_nil hqueue
    have hstop := Steps.stop hcons hcollecting (Nat.lt_of_not_le hends)
    obtain rfl : next = earlier.stop (call :: queue) := Option.some.inj
      ((step?_eq_some_iff.mpr hsteps).symm.trans (step?_eq_some_iff.mpr hstop))
    obtain ⟨-, hmore⟩ := run_induction (motive := fun _ machine => machine.Collects ∧
      call :: queue <+: machine.lost) ⟨(collects_of_run hbefore).step hstop, List.prefix_rfl⟩
      (fun _ h hsteps => ⟨h.1.step hsteps, h.2.trans (hsteps.lost_prefix h.1)⟩) hafter
    exact fun hnil => List.cons_ne_nil call queue (List.prefix_nil.mp (hnil ▸ hmore))

/-- **As long as the clock lasts for another window, nothing is lost.** -/
theorem lost_eq_nil_of_run (hrun : (new config last).run? events = some machine)
    (hclock : machine.ClockLasts) : machine.lost = [] := by
  by_contra hlost
  obtain ⟨before, after, earlier, rfl, hbefore, -, -, hends⟩ := (lost_ne_nil_iff hrun).mp hlost
  obtain ⟨middle, hmiddle, hlater⟩ := run?_append.mp hrun
  obtain rfl := Option.some.inj (hbefore.symm.trans hmiddle)
  have hnow : earlier.now ≤ machine.now :=
    run_induction (motive := fun _ machine => earlier.now ≤ machine.now) (Nat.le_refl _)
      (fun _ hle hsteps => Nat.le_trans hle hsteps.clock.2) hlater
  refine hends ?_
  rw [ClockLasts, config_eq_of_run hrun, last_eq_of_run hrun] at hclock
  rw [ClockLasts, config_eq_of_run hbefore, last_eq_of_run hbefore]
  exact Nat.le_trans (Nat.add_le_add_right hnow _) hclock

/-- With settings that were read, nothing is lost before the last 64 bits of milliseconds. -/
theorem lost_eq_nil_of_read? {text : String} (hread : BatchConfig.read? text = some config)
    (hrun : (new config last).run? events = some machine)
    (hclock : machine.now + BatchConfig.maxWord ≤ last) : machine.lost = [] := by
  refine lost_eq_nil_of_run hrun ?_
  rw [ClockLasts, config_eq_of_run hrun, last_eq_of_run hrun]
  exact Nat.le_trans (Nat.add_le_add_left (BatchConfig.window_le_of_read? hread) _) hclock

/-- With a window longer than the clock no batch is ever opened, and so none is handed over. -/
theorem no_batch_of_run (hrun : (new config last).run? events = some machine)
    (hwide : last < config.window) : machine.flushed = [] ∧ machine.collecting? = none := by
  refine run_induction (motive := fun _ machine => machine.flushed = [] ∧
    machine.collecting? = none) ⟨rfl, rfl⟩
    (fun {events machine event next} hrun ih hsteps => ?_) hrun
  obtain ⟨hflushed, hcollecting⟩ := ih
  cases hsteps with
  | openBatch hqueue hnone hends =>
      rw [config_eq_of_run hrun, last_eq_of_run hrun] at hends
      exact absurd hends (Nat.not_le.mpr (Nat.lt_add_left _ hwide))
  | join hqueue hsome hroom => exact absurd (hcollecting.symm.trans hsome) (by simp)
  | handOver hsome hdue => exact absurd (hcollecting.symm.trans hsome) (by simp)
  | flush hbatch hmoves =>
      rw [hflushed, List.getElem?_nil] at hbatch
      exact absurd hbatch (by simp)
  | _ => exact ⟨hflushed, hcollecting⟩

end Stopping

/-! ### The end of collecting -/

/-- What cannot happen is not a step. -/
theorem not_steps {machine next : Machine} {event : MachineEvent}
    (h : machine.step? event = none) : ¬ Steps machine event next := by
  intro hsteps
  rw [step?_eq_some_iff.mpr hsteps] at h
  exact Option.some_ne_none next h

/-- A batch that cannot be handed over is not due. -/
theorem isDue_eq_false {machine : Machine} (hflush : machine.step? .flush = none)
    {batch : OpenBatch} (hcollecting : machine.collecting? = some batch) :
    machine.isDue batch = false := by
  by_contra hdue
  exact not_steps hflush (.handOver hcollecting (by simpa using hdue))

/-- A collector that can do nothing has taken every call. -/
theorem queue_eq_nil {machine : Machine} (hreceive : machine.step? .receive = none)
    (hflush : machine.step? .flush = none) : machine.queue = [] := by
  cases hqueue : machine.queue with
  | nil => rfl
  | cons call queue =>
      cases hcollecting : machine.collecting? with
      | none =>
          -- Whether the clock lasts or not, the call does not stay in the queue.
          rcases Nat.lt_or_ge machine.last (machine.now + machine.config.window) with hends | hends
          · exact absurd (.stop hqueue hcollecting hends) (not_steps hreceive)
          · exact absurd (.openBatch hqueue hcollecting hends) (not_steps hreceive)
      | some batch =>
          -- A batch that cannot be handed over is not full, so it can take the call.
          have hdue := isDue_eq_false hflush hcollecting
          simp only [isDue, Bool.or_eq_false_iff] at hdue
          exact absurd (.join hqueue hcollecting hdue.1.1) (not_steps hreceive)

end Machine

end QueryBatching
