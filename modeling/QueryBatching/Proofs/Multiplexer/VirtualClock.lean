/-
The virtual clock runs a multiplexer on time.

At each stop the clock lets the machine work on its own, which comes to an end: there is only so
much to take, to hand over and to begin, and each step takes something away from it.  Replies that
come in then change nothing about the collector, so it is idle when time passes again, and the
clock never passes the end of a window because that is one of the things that are due.  So whatever
the callers do and whenever the transport answers, what the clock makes is a run on time.
-/
import Mathlib.Algebra.BigOperators.Group.List.Basic
import QueryBatching.Multiplexer.Clock
import QueryBatching.Proofs.Multiplexer.Timing

namespace QueryBatching

/-- Whether the flush of a batch has not begun. -/
def FlushedBatch.isReady (batch : FlushedBatch) : Bool :=
  match batch.stage with
  | .ready => true
  | _ => false

namespace Machine

/-! ### Working without time -/

/-- How much the machine can do on its own: to take, to hand over and to begin. -/
def pending (machine : Machine) : Nat :=
  3 * machine.queue.length + 2 * machine.collecting?.toList.length +
    machine.flushed.countP FlushedBatch.isReady

/-- Taking a call and handing a batch over leave less to do. -/
theorem Steps.pending_lt {machine next : Machine} {event : MachineEvent}
    (hsteps : Steps machine event next) (hcollecting : event.isCollecting = true) :
    next.pending < machine.pending := by
  cases hsteps with
  | openBatch hqueue hnone hends =>
      simp only [pending, hqueue, hnone, Option.toList, List.length_cons, List.length_nil]
      omega
  | stop hqueue hnone hends =>
      simp only [pending, Machine.stop, deliver, hqueue, hnone, Option.toList, List.length_cons,
        List.length_nil]
      omega
  | join hqueue hsome hroom =>
      simp only [pending, hqueue, hsome, Option.toList, List.length_cons, List.length_nil]
      omega
  | handOver hsome hdue =>
      simp only [pending, hsome, Option.toList, List.length_cons, List.length_nil,
        List.countP_append, FlushedBatch.isReady, List.countP_singleton, if_true]
      omega
  | flush hbatch hmoves =>
      rw [FlushEvent.isCollecting_toMachine] at hcollecting
      exact absurd hcollecting Bool.false_ne_true
  | _ => exact absurd hcollecting Bool.false_ne_true

/-- The flush of a batch that is ready can begin. -/
theorem exists_moves_of_isReady {batch : FlushedBatch} (h : batch.isReady = true) :
    ∃ stage delivered requests, batch.stage.Moves batch.calls .start stage delivered requests ∧
      FlushedBatch.isReady { batch with stage } = false := by
  obtain ⟨calls, time, stage⟩ := batch
  cases stage with
  | ready =>
      cases hplan : (FlushPlan.ofCalls calls).sent? with
      | none => exact ⟨_, _, _, .settle hplan, rfl⟩
      | some sent => exact ⟨_, _, _, .send hplan, rfl⟩
  | _ => exact absurd h Bool.false_ne_true

/-- A flush that has begun is one less to begin. -/
theorem pending_advance_lt {machine : Machine} {number : Nat} {batch : FlushedBatch}
    (hbatch : machine.flushed[number]? = some batch) (hready : batch.isReady = true)
    {stage : FlushStage} (hbegun : FlushedBatch.isReady { batch with stage } = false)
    (delivered : List (Nat × CallResult)) (requests : List Request) :
    (machine.advance number stage delivered requests).pending < machine.pending := by
  obtain ⟨front, back, -, hsplit, hadvance⟩ :=
    exists_flushed_advance hbatch stage delivered requests
  unfold pending
  rw [hadvance, hsplit, List.countP_append, List.countP_append,
    List.countP_cons_of_pos hready, List.countP_cons_of_neg (by simp [hbegun])]
  simp only [advance]
  omega

/-- **What the machine does on its own takes no time and leaves less to do.** -/
theorem exists_step_of_ready? {machine : Machine} {event : MachineEvent}
    (h : machine.ready? = some event) : machine.OnTime event ∧
      ∃ next, machine.step? event = some next ∧ next.pending < machine.pending := by
  unfold ready? at h
  split at h
  · rename_i hreceive
    obtain rfl := Option.some.inj h
    obtain ⟨next, hnext⟩ := Option.isSome_iff_exists.mp hreceive
    exact ⟨trivial, next, hnext, (step?_eq_some_iff.mp hnext).pending_lt rfl⟩
  · split at h
    · rename_i hflush
      obtain rfl := Option.some.inj h
      obtain ⟨next, hnext⟩ := Option.isSome_iff_exists.mp hflush
      exact ⟨trivial, next, hnext, (step?_eq_some_iff.mp hnext).pending_lt rfl⟩
    · obtain ⟨number, hnumber, rfl⟩ := Option.map_eq_some_iff.mp h
      obtain ⟨hlength, hready, -⟩ := List.findIdx?_eq_some_iff_getElem.mp hnumber
      have hbatch := List.getElem?_eq_getElem hlength
      obtain ⟨stage, delivered, requests, hmoves, hbegun⟩ := exists_moves_of_isReady hready
      exact ⟨trivial, _, step?_of_moves hbatch hmoves,
        pending_advance_lt hbatch hready hbegun delivered requests⟩

/-- A machine that does nothing on its own has an idle collector. -/
theorem idle_of_ready? {machine : Machine} (h : machine.ready? = none) : machine.Idle := by
  unfold ready? at h
  split at h
  · exact absurd h (by simp)
  · rename_i hreceive
    split at h
    · exact absurd h (by simp)
    · rename_i hflush
      exact ⟨by simpa using hreceive, by simpa using hflush⟩

/-- There is never more to do than three things for each call. -/
theorem Collects.pending_le {machine : Machine} (h : machine.Collects) :
    machine.pending ≤ 3 * machine.submitted.length := by
  have hready : machine.flushed.countP FlushedBatch.isReady ≤ machine.handedOver.length := by
    refine List.countP_le_length.trans ?_
    have hpos : ∀ calls ∈ machine.flushed.map FlushedBatch.calls, 1 ≤ calls.length :=
      fun calls hmem => (h.flushed calls hmem).1
    rw [handedOver, List.flatMap_def, List.length_flatten]
    have := List.length_le_sum_of_one_le
      ((machine.flushed.map FlushedBatch.calls).map List.length) (by simpa using hpos)
    simpa using this
  have hopen : machine.collecting?.toList.length ≤ machine.collected.length := by
    rw [collected]
    cases hcollecting : machine.collecting? with
    | none => exact Nat.le_refl _
    | some batch => exact (h.collecting batch hcollecting).1
  have hlength := congrArg List.length h.inOrder
  rw [List.length_append, List.length_append, List.length_append] at hlength
  unfold pending
  omega

section Settling

variable {config : BatchConfig} {last : Nat}

/-- A machine that works on its own for long enough comes to an end with it. -/
theorem RunsOnTime.settleFor {steps : Nat} {events : List MachineEvent} {machine : Machine}
    (hrun : RunsOnTime config last events machine) (hsteps : machine.pending ≤ steps) :
    ∃ events, RunsOnTime config last events (settleFor steps machine) ∧
      (settleFor steps machine).ready? = none := by
  induction steps generalizing events machine with
  | zero =>
      refine ⟨events, hrun, ?_⟩
      cases hready : machine.ready? with
      | none => exact hready
      | some event =>
          obtain ⟨-, next, -, hless⟩ := exists_step_of_ready? hready
          omega
  | succ steps ih =>
      rw [Machine.settleFor]
      cases hready : machine.ready? with
      | none => exact ⟨events, hrun, hready⟩
      | some event =>
          obtain ⟨htime, next, hnext, hless⟩ := exists_step_of_ready? hready
          have hstep : machine.step event = next := by rw [Machine.step, hnext, Option.getD_some]
          dsimp only
          rw [hstep]
          exact ih (hrun.step htime hnext) (by omega)

/-- A machine that works on its own for as long as it can has an idle collector then. -/
theorem RunsOnTime.settle {events : List MachineEvent} {machine : Machine}
    (hrun : RunsOnTime config last events machine) :
    ∃ events, RunsOnTime config last events machine.settle ∧ machine.settle.Idle := by
  obtain ⟨events, hsettled, hready⟩ := hrun.settleFor (collects_of_run hrun.run?_eq).pending_le
  exact ⟨events, hsettled, idle_of_ready? hready⟩

/-- An event that takes no time can be tried at any time. -/
theorem RunsOnTime.attempt {events : List MachineEvent} {machine : Machine}
    (hrun : RunsOnTime config last events machine) {event : MachineEvent}
    (htime : machine.OnTime event) :
    ∃ events, RunsOnTime config last events (machine.step event) := by
  unfold Machine.step
  cases hstep : machine.step? event with
  | none => exact ⟨events, hrun⟩
  | some next => exact ⟨_, hrun.step htime hstep⟩

/-- An idle collector stays idle while the flush of a batch goes on. -/
theorem Idle.attempt {machine : Machine} (h : machine.Idle) (event : FlushEvent) (number : Nat) :
    (machine.step (event.toMachine number)).Idle := by
  unfold Machine.step
  cases hstep : machine.step? (event.toMachine number) with
  | none => exact h
  | some next =>
      generalize hevent : event.toMachine number = whole at hstep
      cases steps_of_step? hstep with
      | flush hbatch hmoves =>
          obtain ⟨hqueue, hdue⟩ := idle_iff.mp h
          exact idle_iff.mpr ⟨hqueue, hdue⟩
      | _ => cases event <;> cases hevent

end Settling

end Machine

/-! ### The clock -/

namespace Clock

variable {config : BatchConfig} {last : Nat}

open Machine (RunsOnTime)

/-- The clock has run its machine on time. -/
def RanOnTime (config : BatchConfig) (last : Nat) (clock : Clock) : Prop :=
  ∃ events, RunsOnTime config last events clock.machine

/-- A reply is the end of a flush. -/
theorem exists_timerEvent_eq (timer : Timer) :
    ∃ event : FlushEvent, timerEvent timer = event.toMachine timer.batch := by
  obtain ⟨due, batch, outcome⟩ := timer
  cases outcome with
  | answer answer => exact ⟨.answer answer, rfl⟩
  | abort => exact ⟨.abort, rfl⟩

theorem onTime_toMachine (machine : Machine) (event : FlushEvent) (number : Nat) :
    machine.OnTime (event.toMachine number) := by
  cases event <;> exact trivial

/-- Replies that come in leave an idle collector idle. -/
theorem ranOnTime_replies {events : List MachineEvent} {machine : Machine}
    (hrun : RunsOnTime config last events machine) (hidle : machine.Idle) (timers : List Timer) :
    (∃ events, RunsOnTime config last events ((timers.map timerEvent).foldl Machine.step machine)) ∧
      ((timers.map timerEvent).foldl Machine.step machine).Idle := by
  induction timers generalizing events machine with
  | nil => exact ⟨⟨events, hrun⟩, hidle⟩
  | cons timer rest ih =>
      obtain ⟨event, hevent⟩ := exists_timerEvent_eq timer
      rw [List.map_cons, List.foldl_cons, hevent]
      obtain ⟨later, hlater⟩ := hrun.attempt (onTime_toMachine machine event timer.batch)
      exact ih hlater (hidle.attempt event timer.batch)

/-- When everything that can happen has happened, the collector is idle. -/
theorem RanOnTime.settle {clock : Clock} (h : clock.RanOnTime config last) :
    clock.settle.RanOnTime config last ∧ clock.settle.machine.Idle := by
  obtain ⟨events, hrun⟩ := h
  obtain ⟨settled, hsettled, hidle⟩ := hrun.settle
  exact ranOnTime_replies hsettled hidle _

/-- The end of the window that is open is one of the things that are due. -/
theorem exists_nextDue? {clock : Clock} {batch : OpenBatch}
    (h : batch ∈ clock.machine.collecting?) :
    ∃ due, clock.nextDue? = some due ∧ due ≤ batch.deadline := by
  have hmem : batch.deadline ∈ clock.machine.collecting?.toList.map OpenBatch.deadline ++
      clock.timers.map Timer.due :=
    List.mem_append_left _ (List.mem_map_of_mem (Option.mem_toList.mpr h))
  obtain ⟨due, hdue⟩ := Option.isSome_iff_exists.mp (List.isSome_min?_of_mem hmem)
  exact ⟨due, hdue, (List.min?_eq_some_iff.mp hdue).2 _ hmem⟩

/-- Letting time pass until something is due is on time. -/
theorem onTime_wait {clock : Clock} {events : List MachineEvent}
    (hrun : RunsOnTime config last events clock.machine) (hidle : clock.machine.Idle)
    (target : Nat) :
    clock.machine.OnTime
      (.wait ((clock.nextDue?.getD target).min target - clock.machine.now)) := by
  refine ⟨hidle, fun batch hbatch => ?_⟩
  have hallows := (Machine.collects_of_run hrun.run?_eq).collecting batch hbatch
  obtain ⟨first, rest, hcalls⟩ := List.exists_cons_of_length_pos hallows.1
  have hnow := ((Machine.punctual_of_run hrun).window batch hbatch first (by rw [hcalls]; rfl)).2
  obtain ⟨due, hdue, hle⟩ := exists_nextDue? hbatch
  have hmin : (clock.nextDue?.getD target).min target ≤ due := by
    rw [hdue]
    exact Nat.min_le_left due target
  omega

/-- **The clock lets time pass on time.** -/
theorem RanOnTime.passUntil {clock : Clock} (h : clock.RanOnTime config last)
    (hidle : clock.machine.Idle) (target stops : Nat) :
    (Clock.passUntil target stops clock).RanOnTime config last ∧
      (Clock.passUntil target stops clock).machine.Idle := by
  induction stops generalizing clock with
  | zero => exact ⟨h, hidle⟩
  | succ stops ih =>
      obtain ⟨events, hrun⟩ := h
      have hpassed : ∀ duration, clock.machine.OnTime (.wait duration) →
          RanOnTime config last { clock with machine := clock.machine.step (.wait duration) } :=
        fun duration htime => hrun.attempt htime
      obtain ⟨hran, hsettled⟩ := (hpassed _ (onTime_wait hrun hidle target)).settle
      rw [Clock.passUntil]
      split
      · exact ⟨hran, hsettled⟩
      · exact ih hran hsettled

/-- **Whatever a caller does, the clock runs its machine on time.** -/
theorem RanOnTime.step {clock : Clock} (h : clock.RanOnTime config last)
    (hidle : clock.machine.Idle) (caller : CallerStep) :
    (clock.step caller).RanOnTime config last ∧ (clock.step caller).machine.Idle := by
  have hattempt : ∀ event, clock.machine.OnTime event →
      RanOnTime config last { clock with machine := clock.machine.step event } := by
    intro event htime
    obtain ⟨events, hrun⟩ := h
    exact hrun.attempt htime
  cases caller with
  | query query values => exact (hattempt (.submit query values) trivial).settle
  | clone => exact (hattempt .clone trivial).settle
  | drop => exact (hattempt .drop trivial).settle
  | sleep duration => exact h.passUntil hidle _ _

end Clock

end QueryBatching
