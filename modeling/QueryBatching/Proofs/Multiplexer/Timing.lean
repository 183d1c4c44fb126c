/-
When batches are flushed.

On a virtual clock the collector does at each instant whatever it can, and time passes only when
nothing is left, no further than to the end of the window that is open.  So what is queued has
just arrived, a batch is opened when its first call arrives, and a window that ends, a batch that
fills and a last handle that is dropped are seen at once.  `Punctual` says so of a state and of
each of its batches, and every step on time keeps it.  If a window has no end on the clock, its
batch is not opened, and the call that came first for it is the first one that is lost.

The steps of a flush may come at any time, early or late, and nothing here looks at how far one
has come: when batches are flushed does not depend on the transport.
-/
import Mathlib.Data.List.Nodup
import Mathlib.Order.Bounds.Basic
import QueryBatching.Proofs.Multiplexer.Collection

namespace QueryBatching

section Numbers

variable {calls front batch back : List SubmittedCall}
  (hnumbers : calls.map SubmittedCall.number = List.range calls.length)

include hnumbers

theorem SubmittedCall.eq_of_number_eq {a b : SubmittedCall} (ha : a ∈ calls) (hb : b ∈ calls)
    (h : a.number = b.number) : a = b :=
  List.inj_on_of_nodup_map (hnumbers ▸ List.nodup_range) ha hb h

theorem SubmittedCall.number_lt_length {call : SubmittedCall} (h : call ∈ calls) :
    call.number < calls.length :=
  List.mem_range.mp (hnumbers ▸ List.mem_map_of_mem h)

/-- Calls that were submitted one after another have numbers one after another. -/
theorem SubmittedCall.numbers_of_append (hsplit : calls = front ++ batch ++ back) :
    batch.map SubmittedCall.number = List.range' front.length batch.length := by
  rw [hsplit, List.map_append, List.map_append, List.length_append, List.length_append,
    List.range_eq_range', ← List.range'_append_1, ← List.range'_append_1, Nat.zero_add] at hnumbers
  obtain ⟨hfront, -⟩ := List.append_inj hnumbers (by simp)
  exact (List.append_inj hfront (by simp)).2

/-- Calls that were submitted one after another are all that have numbers from the first of theirs
to the last. -/
theorem SubmittedCall.mem_iff_number (hsplit : calls = front ++ batch ++ back)
    {call : SubmittedCall} (hmem : call ∈ calls) :
    call ∈ batch ↔ front.length ≤ call.number ∧ call.number < front.length + batch.length := by
  rw [← List.mem_range'_1, ← numbers_of_append hnumbers hsplit, List.mem_map]
  constructor
  · intro h
    exact ⟨call, h, rfl⟩
  · rintro ⟨other, hother, hsame⟩
    have hin : other ∈ calls := hsplit ▸ List.mem_append_left _ (List.mem_append_right _ hother)
    exact eq_of_number_eq hnumbers hin hmem hsame ▸ hother

end Numbers

namespace Machine

/-! ### Running on time -/

/-- The collector can do nothing until something else happens. -/
def Idle (machine : Machine) : Prop :=
  machine.step? .receive = none ∧ machine.step? .flush = none

/-- An idle collector has taken every call, and its batch is not due. -/
theorem idle_iff {machine : Machine} : machine.Idle ↔
    machine.queue = [] ∧ ∀ batch ∈ machine.collecting?, machine.isDue batch = false := by
  constructor
  · rintro ⟨hreceive, hflush⟩
    exact ⟨queue_eq_nil hreceive hflush, fun batch hbatch => isDue_eq_false hflush hbatch⟩
  · rintro ⟨hqueue, hdue⟩
    refine ⟨by simp only [step?, hqueue], ?_⟩
    cases hcollecting : machine.collecting? with
    | none => simp only [step?, hcollecting]
    | some batch =>
        simp only [step?, hcollecting, hdue batch hcollecting, Bool.false_eq_true, if_false]

/-- Time passes only while the collector is idle, and not beyond the end of a window. -/
def OnTime (machine : Machine) : MachineEvent → Prop
  | .wait duration =>
    machine.Idle ∧ ∀ batch ∈ machine.collecting?, machine.now + duration ≤ batch.deadline
  | _ => True

/-- What a new multiplexer comes to after events on a virtual clock. -/
inductive RunsOnTime (config : BatchConfig) (last : Nat) : List MachineEvent → Machine → Prop
  | start : RunsOnTime config last [] (new config last)
  | step {events : List MachineEvent} {machine next : Machine} {event : MachineEvent}
      (hrun : RunsOnTime config last events machine) (htime : machine.OnTime event)
      (hstep : machine.step? event = some next) : RunsOnTime config last (events ++ [event]) next

theorem RunsOnTime.run?_eq {config : BatchConfig} {last : Nat} {events : List MachineEvent}
    {machine : Machine} (h : RunsOnTime config last events machine) :
    (new config last).run? events = some machine := by
  induction h with
  | start => rfl
  | step hrun htime hstep ih => exact run?_concat.mpr ⟨_, ih, step?_eq_some_iff.mp hstep⟩

/-! ### Where the calls of a batch stand -/

/-- The calls of all batches ever opened, batch by batch. -/
def opened (machine : Machine) : List (List SubmittedCall) :=
  machine.flushed.map FlushedBatch.calls ++ machine.collecting?.toList.map OpenBatch.calls

/-- The calls of a batch: those submitted from its first one on, without a gap. -/
structure Spans (machine : Machine) (calls : List SubmittedCall) (first : SubmittedCall) :
    Prop where
  head : calls.head? = some first
  allows : machine.config.Allows calls.length
  submitted : ∀ call ∈ calls, call ∈ machine.submitted
  mem_iff : ∀ call ∈ machine.submitted, call ∈ calls ↔
    first.number ≤ call.number ∧ call.number < first.number + calls.length
  exists_last : ∃ last, calls.getLast? = some last ∧
    last.number + 1 = first.number + calls.length

theorem flatten_opened {machine : Machine} (h : machine.Collects) :
    machine.opened.flatten ++ machine.queue ++ machine.lost = machine.submitted := by
  rw [← h.inOrder, opened, List.flatten_append, handedOver, List.flatMap_def, collected]
  cases machine.collecting? <;> simp

theorem allows_of_mem_opened {machine : Machine} (h : machine.Collects)
    {calls : List SubmittedCall} (hmem : calls ∈ machine.opened) :
    machine.config.Allows calls.length := by
  rcases List.mem_append.mp hmem with hmem | hmem
  · exact h.flushed calls hmem
  · obtain ⟨batch, hbatch, rfl⟩ := List.mem_map.mp hmem
    exact h.collecting batch (Option.mem_toList.mp hbatch)

section Spans

variable {machine : Machine} (hcollects : machine.Collects)
  (hnumbers : machine.submitted.map SubmittedCall.number = List.range machine.submitted.length)

include hcollects hnumbers

/-- A batch has the calls submitted from its first one on, which has as number how many calls the
batches before it have. -/
theorem exists_spans {front back : List (List SubmittedCall)} {calls : List SubmittedCall}
    (hsplit : machine.opened = front ++ calls :: back) :
    ∃ first, machine.Spans calls first ∧ first.number = front.flatten.length := by
  have hmem : calls ∈ machine.opened := hsplit ▸ List.mem_append_right _ List.mem_cons_self
  have hallows := allows_of_mem_opened hcollects hmem
  have hsubmitted : machine.submitted =
      front.flatten ++ calls ++ (back.flatten ++ machine.queue ++ machine.lost) := by
    rw [← flatten_opened hcollects, hsplit]
    simp
  have hrange := SubmittedCall.numbers_of_append hnumbers hsubmitted
  obtain ⟨first, rest, rfl⟩ := List.exists_cons_of_length_pos hallows.1
  obtain ⟨hfirst, -⟩ : first.number = front.flatten.length ∧ _ := List.cons.inj hrange
  refine ⟨first, ⟨rfl, hallows, fun call hcall => ?_, fun call hcall => ?_, ?_⟩, hfirst⟩
  · exact hsubmitted ▸ List.mem_append_left _ (List.mem_append_right _ hcall)
  · rw [hfirst]
    exact SubmittedCall.mem_iff_number hnumbers hsubmitted hcall
  · refine ⟨_, List.getLast?_eq_some_getLast (List.cons_ne_nil first rest), ?_⟩
    have hlast := congrArg List.getLast? hrange
    rw [List.getLast?_map, List.getLast?_eq_some_getLast (List.cons_ne_nil first rest),
      List.length_cons, List.getLast?_range'] at hlast
    rw [if_neg (Nat.succ_ne_zero _), Option.map_some, Option.some.injEq] at hlast
    rw [hlast, hfirst, List.length_cons]
    omega

/-- What comes behind the batch that is collecting is queued. -/
theorem mem_queue_of_behind {batch : OpenBatch} (hcollecting : machine.collecting? = some batch)
    {call : SubmittedCall} (hmem : call ∈ machine.submitted)
    (hbehind : ∀ other ∈ batch.calls, other.number < call.number) : call ∈ machine.queue := by
  have hopened : machine.opened = machine.flushed.map FlushedBatch.calls ++ [batch.calls] := by
    rw [opened, hcollecting]
    rfl
  obtain ⟨first, hspans, hfirst⟩ := exists_spans hcollects hnumbers hopened
  obtain ⟨last, hlast, hnumber⟩ := hspans.exists_last
  have hsplit : machine.submitted = machine.opened.flatten ++ machine.queue ++ [] := by
    rw [← flatten_opened hcollects, lost_of_none (hcollects.lost?_of_collecting hcollecting)]
  have hlength : machine.opened.flatten.length = first.number + batch.calls.length := by
    rw [hopened, hfirst]
    simp
  rw [SubmittedCall.mem_iff_number hnumbers hsplit hmem, ← List.length_append,
    ← List.append_nil (machine.opened.flatten ++ machine.queue), ← hsplit]
  have := hbehind last (List.mem_of_getLast? hlast)
  exact ⟨by omega, SubmittedCall.number_lt_length hnumbers hmem⟩

end Spans

/-! ### Being on time -/

/-- What can be said of a batch that was flushed at a time. -/
structure FlushedOnTime (machine : Machine) (calls : List SubmittedCall) (time : Nat) : Prop where
  past : time ≤ machine.now
  window : ∀ first ∈ calls.head?, time ≤ first.time + machine.config.window
  /-- The clock lasts to the end of its window. -/
  fits : ∀ first ∈ calls.head?, first.time + machine.config.window ≤ machine.last
  arrived : ∀ call ∈ calls, call.time ≤ time
  /-- What comes behind the batch does not come before it is flushed. -/
  behind : ∀ call ∈ machine.submitted, (∀ other ∈ calls, other.number < call.number) →
    time ≤ call.time
  closed : ∀ closed ∈ machine.closed?, time ≤ closed
  /-- A full batch is flushed when its last call arrives. -/
  full : machine.config.isFull calls.length = true → ∀ last ∈ calls.getLast?, last.time = time
  /-- A batch is flushed because its window ended, or it was full, or all handles were gone and all
  calls in it. -/
  cause : (∀ first ∈ calls.head?, time = first.time + machine.config.window) ∨
    machine.config.isFull calls.length = true ∨
    (time ∈ machine.closed? ∧
      ∀ call ∈ machine.submitted, ¬ ∀ other ∈ calls, other.number < call.number)

/-- Nothing that is due has been missed. -/
structure Punctual (machine : Machine) : Prop where
  past : ∀ call ∈ machine.submitted, call.time ≤ machine.now
  inOrder : ∀ a ∈ machine.submitted, ∀ b ∈ machine.submitted, a.number ≤ b.number → a.time ≤ b.time
  /-- What is queued has just arrived. -/
  queue : ∀ call ∈ machine.queue, call.time = machine.now
  closed_isSome : machine.closed?.isSome = true ↔ machine.handles = 0
  closed_le : ∀ closed ∈ machine.closed?, closed ≤ machine.now
  /-- No call arrives once the last handle is dropped. -/
  le_closed : ∀ closed ∈ machine.closed?, ∀ call ∈ machine.submitted, call.time ≤ closed
  /-- While a batch is collecting, the last handle can only just have been dropped. -/
  closing : ∀ closed ∈ machine.closed?, machine.collecting? ≠ none → closed = machine.now
  window : ∀ batch ∈ machine.collecting?, ∀ first ∈ batch.calls.head?,
    batch.deadline = first.time + machine.config.window ∧ machine.now ≤ batch.deadline
  /-- The clock lasts to the end of the window. -/
  fits : ∀ batch ∈ machine.collecting?, batch.deadline ≤ machine.last
  /-- The window of the first call that is lost has no end on the clock. -/
  lost : ∀ first ∈ machine.lost.head?, machine.last < first.time + machine.config.window
  /-- A full batch has just become full. -/
  full : ∀ batch ∈ machine.collecting?, machine.config.isFull batch.calls.length = true →
    ∀ last ∈ batch.calls.getLast?, last.time = machine.now
  flushed : ∀ batch ∈ machine.flushed, machine.FlushedOnTime batch.calls batch.time

theorem punctual_new (config : BatchConfig) (last : Nat) : (new config last).Punctual where
  past := fun _ hmem => absurd hmem List.not_mem_nil
  inOrder := fun _ hmem => absurd hmem List.not_mem_nil
  queue := fun _ hmem => absurd hmem List.not_mem_nil
  closed_isSome := by simp [new]
  closed_le := fun _ hmem => absurd hmem (by simp [new])
  le_closed := fun _ hmem => absurd hmem (by simp [new])
  closing := fun _ hmem => absurd hmem (by simp [new])
  window := fun _ hmem => absurd hmem (by simp [new])
  fits := fun _ hmem => absurd hmem (by simp [new])
  lost := fun _ hmem => absurd hmem (by simp [new, Machine.lost])
  full := fun _ hmem => absurd hmem (by simp [new])
  flushed := fun _ hmem => absurd hmem List.not_mem_nil

/-! ### Steps on time -/

/-- A flush that goes on leaves the calls of all batches, and when they were flushed. -/
theorem exists_of_mem_flushed_advance {machine : Machine} {number : Nat} {stage : FlushStage}
    {delivered : List (Nat × CallResult)} {requests : List Request} {batch : FlushedBatch}
    (hmem : batch ∈ (machine.advance number stage delivered requests).flushed) :
    ∃ old ∈ machine.flushed, batch.calls = old.calls ∧ batch.time = old.time := by
  obtain ⟨place, hplace⟩ := List.mem_iff_getElem?.mp hmem
  rw [advance, List.getElem?_modify, Option.map_eq_map, Option.map_eq_some_iff] at hplace
  obtain ⟨old, hold, rfl⟩ := hplace
  refine ⟨old, List.mem_of_getElem? hold, ?_⟩
  split
  · exact ⟨rfl, rfl⟩
  · exact ⟨rfl, rfl⟩

/-- What is said of a flushed batch stays true while nothing is submitted and no handle dropped. -/
theorem FlushedOnTime.keep {machine next : Machine} {calls : List SubmittedCall} {time : Nat}
    (h : machine.FlushedOnTime calls time) (hconfig : next.config = machine.config)
    (hlast : next.last = machine.last) (hnow : machine.now ≤ next.now)
    (hsubmitted : next.submitted = machine.submitted) (hclosed : next.closed? = machine.closed?) :
    next.FlushedOnTime calls time where
  past := h.past.trans hnow
  window := hconfig ▸ h.window
  fits := by
    rw [hconfig, hlast]
    exact h.fits
  arrived := h.arrived
  behind := hsubmitted ▸ h.behind
  closed := hclosed ▸ h.closed
  full := hconfig ▸ h.full
  cause := by
    rw [hconfig, hsubmitted, hclosed]
    exact h.cause

/-- A call that arrives now comes behind all flushed batches, and no handle is gone for good. -/
theorem FlushedOnTime.submit {machine : Machine} {calls : List SubmittedCall} {time : Nat}
    (h : machine.FlushedOnTime calls time) (hopen : machine.closed? = none) (query : String)
    (values : List (String × Json)) (queue : List SubmittedCall)
    (lost? : Option (List SubmittedCall)) (results : List (Nat × CallResult)) :
    FlushedOnTime { machine with
      submitted := machine.submitted ++ [machine.nextCall query values], queue, lost?, results }
      calls time where
  past := h.past
  window := h.window
  fits := h.fits
  arrived := h.arrived
  behind := by
    intro call hmem hbehind
    rcases List.mem_append.mp hmem with hmem | hmem
    · exact h.behind call hmem hbehind
    · obtain rfl := List.mem_singleton.mp hmem
      exact h.past
  closed := h.closed
  full := h.full
  cause := by
    rcases h.cause with hwindow | hfull | ⟨hclosed, -⟩
    · exact .inl hwindow
    · exact .inr (.inl hfull)
    · rw [hopen] at hclosed
      exact absurd hclosed (by simp)

/-- The last handle is dropped after all batches so far were flushed. -/
theorem FlushedOnTime.close {machine : Machine} {calls : List SubmittedCall} {time : Nat}
    (h : machine.FlushedOnTime calls time) (hopen : machine.closed? = none) :
    FlushedOnTime { machine with handles := 0, closed? := some machine.now } calls time where
  past := h.past
  window := h.window
  fits := h.fits
  arrived := h.arrived
  behind := h.behind
  closed := by
    intro closed hclosed
    obtain rfl := Option.mem_some.mp hclosed
    exact h.past
  full := h.full
  cause := by
    rcases h.cause with hwindow | hfull | ⟨hclosed, -⟩
    · exact .inl hwindow
    · exact .inr (.inl hfull)
    · rw [hopen] at hclosed
      exact absurd hclosed (by simp)

section Step

variable {machine : Machine} (h : machine.Punctual)

include h

theorem Punctual.closed_eq_none (hopen : machine.handles ≠ 0) : machine.closed? = none := by
  rw [← Option.not_isSome_iff_eq_none, h.closed_isSome]
  exact hopen

/-- A batch that is due is flushed on time. -/
theorem Punctual.flushedOnTime (hcollects : machine.Collects)
    (hnumbers : machine.submitted.map SubmittedCall.number =
      List.range machine.submitted.length) {batch : OpenBatch}
    (hcollecting : machine.collecting? = some batch) (hdue : machine.isDue batch = true) :
    machine.FlushedOnTime batch.calls machine.now where
  past := Nat.le_refl _
  window := by
    intro first hfirst
    obtain ⟨hdeadline, hnow⟩ := h.window batch hcollecting first hfirst
    exact hdeadline ▸ hnow
  fits := by
    intro first hfirst
    rw [← (h.window batch hcollecting first hfirst).1]
    exact h.fits batch hcollecting
  arrived := by
    intro call hmem
    refine h.past call ?_
    rw [← hcollects.inOrder, collected, hcollecting, List.append_assoc]
    exact List.mem_append_left _ (List.mem_append_right _ hmem)
  behind := by
    intro call hmem hbehind
    exact Nat.le_of_eq
      (h.queue call (mem_queue_of_behind hcollects hnumbers hcollecting hmem hbehind)).symm
  closed := by
    intro closed hclosed
    exact Nat.le_of_eq (h.closing closed hclosed (by simp [hcollecting])).symm
  full := h.full batch hcollecting
  cause := by
    simp only [isDue, Bool.or_eq_true, Bool.and_eq_true, decide_eq_true_eq, beq_iff_eq,
      List.isEmpty_iff] at hdue
    rcases hdue with (hfull | hdeadline) | ⟨hqueue, hhandles⟩
    · exact .inr (.inl hfull)
    · refine .inl fun first hfirst => ?_
      obtain ⟨heq, hnow⟩ := h.window batch hcollecting first hfirst
      rw [← heq]
      exact Nat.le_antisymm hnow hdeadline
    · refine .inr (.inr ⟨?_, fun call hmem hbehind => ?_⟩)
      · obtain ⟨closed, hclosed⟩ := Option.isSome_iff_exists.mp (h.closed_isSome.mpr hhandles)
        have hnow := h.closing closed hclosed (by simp [hcollecting])
        rw [hclosed, hnow]
        rfl
      · have hqueued := mem_queue_of_behind hcollects hnumbers hcollecting hmem hbehind
        rw [hqueue] at hqueued
        exact absurd hqueued List.not_mem_nil

/-- A call arrives behind all others.  It is queued, or it is not the first one that is lost. -/
theorem Punctual.submit
    (hnumbers : machine.submitted.map SubmittedCall.number = List.range machine.submitted.length)
    (hopen : machine.handles ≠ 0) (query : String) (values : List (String × Json))
    {queue : List SubmittedCall} {lost? : Option (List SubmittedCall)}
    (hqueue : ∀ call ∈ queue, call ∈ machine.queue ∨ call = machine.nextCall query values)
    (hlost : (lost?.getD []).head? = machine.lost.head?) (results : List (Nat × CallResult)) :
    Punctual { machine with
      submitted := machine.submitted ++ [machine.nextCall query values], queue, lost?, results } :=
  { h with
    past := by
      intro call hmem
      rcases List.mem_append.mp hmem with hmem | hmem
      · exact h.past call hmem
      · obtain rfl := List.mem_singleton.mp hmem
        exact Nat.le_refl _
    inOrder := by
      intro a ha b hb hle
      rcases List.mem_append.mp hb with hb | hb
      · rcases List.mem_append.mp ha with ha | ha
        · exact h.inOrder a ha b hb hle
        · obtain rfl := List.mem_singleton.mp ha
          exact absurd (SubmittedCall.number_lt_length hnumbers hb) (Nat.not_lt.mpr hle)
      · obtain rfl := List.mem_singleton.mp hb
        rcases List.mem_append.mp ha with ha | ha
        · exact h.past a ha
        · obtain rfl := List.mem_singleton.mp ha
          exact Nat.le_refl _
    queue := by
      intro call hmem
      rcases hqueue call hmem with hmem | rfl
      · exact h.queue call hmem
      · rfl
    lost := by
      intro first hfirst
      exact h.lost first (hlost ▸ hfirst)
    le_closed := by
      intro closed hclosed
      rw [h.closed_eq_none hopen] at hclosed
      exact absurd hclosed (by simp)
    flushed := fun batch hmem =>
      (h.flushed batch hmem).submit (h.closed_eq_none hopen) query values _ _ _ }

/-- The last handle is dropped now. -/
theorem Punctual.close (hone : machine.handles = 1) :
    Punctual { machine with handles := 0, closed? := some machine.now } :=
  { h with
    closed_isSome := ⟨fun _ => rfl, fun _ => rfl⟩
    closed_le := by
      intro closed hclosed
      obtain rfl := Option.mem_some.mp hclosed
      exact Nat.le_refl _
    le_closed := by
      intro closed hclosed
      obtain rfl := Option.mem_some.mp hclosed
      exact h.past
    closing := by
      intro closed hclosed _
      exact (Option.mem_some.mp hclosed).symm
    flushed := fun batch hmem => (h.flushed batch hmem).close (h.closed_eq_none (by omega)) }

/-- The collector that has nothing to do lets time pass, until its window ends at the latest. -/
theorem Punctual.wait {duration : Nat} (htime : machine.OnTime (.wait duration)) :
    Punctual { machine with now := machine.now + duration } := by
  obtain ⟨hidle, hdeadline⟩ := htime
  obtain ⟨hqueue, hdue⟩ := idle_iff.mp hidle
  simp only [isDue, Bool.or_eq_false_iff, hqueue, List.isEmpty_nil, Bool.true_and,
    beq_eq_false_iff_ne] at hdue
  refine { h with
    past := fun call hmem => (h.past call hmem).trans (Nat.le_add_right _ _)
    queue := ?_
    closed_le := fun closed hclosed => (h.closed_le closed hclosed).trans (Nat.le_add_right _ _)
    closing := ?_
    window := fun batch hbatch first hfirst =>
      ⟨(h.window batch hbatch first hfirst).1, hdeadline batch hbatch⟩
    full := ?_
    flushed := fun batch hmem =>
      (h.flushed batch hmem).keep rfl rfl (Nat.le_add_right _ _) rfl rfl }
  · intro call hmem
    rw [hqueue] at hmem
    exact absurd hmem List.not_mem_nil
  · intro closed hclosed hcollecting
    obtain ⟨batch, hbatch⟩ := Option.ne_none_iff_exists'.mp hcollecting
    have hgone : machine.handles = 0 := h.closed_isSome.mp (by rw [hclosed]; rfl)
    exact absurd hgone (hdue batch hbatch).2
  · intro batch hbatch hfull
    rw [(hdue batch hbatch).1.1] at hfull
    exact absurd hfull Bool.false_ne_true

/-- A call that arrives while no batch is collecting opens one. -/
theorem Punctual.openBatch (hcollects : machine.Collects) {call : SubmittedCall}
    {queue : List SubmittedCall} (hqueue : machine.queue = call :: queue)
    (hends : machine.now + machine.config.window ≤ machine.last) :
    Punctual { machine with
      queue, collecting? := some ⟨[call], machine.now + machine.config.window⟩ } := by
  have harrives : call.time = machine.now := h.queue call (hqueue ▸ List.mem_cons_self)
  refine { h with
    queue := fun other hmem => h.queue other (hqueue ▸ List.mem_cons_of_mem _ hmem)
    closing := ?_
    window := ?_
    fits := ?_
    full := ?_
    flushed := fun batch hmem => (h.flushed batch hmem).keep rfl rfl (Nat.le_refl _) rfl rfl }
  · intro closed hclosed _
    have hmem : call ∈ machine.submitted := by
      rw [← hcollects.inOrder, hqueue]
      exact List.mem_append_left _ (List.mem_append_right _ List.mem_cons_self)
    exact Nat.le_antisymm (h.closed_le closed hclosed)
      (harrives ▸ h.le_closed closed hclosed call hmem)
  · intro batch hbatch first hfirst
    obtain rfl := Option.mem_some.mp hbatch
    obtain rfl := Option.some.inj hfirst
    exact ⟨by rw [harrives], Nat.le_add_right _ _⟩
  · intro batch hbatch
    obtain rfl := Option.mem_some.mp hbatch
    exact hends
  · intro batch hbatch _ last hlast
    obtain rfl := Option.mem_some.mp hbatch
    obtain rfl := Option.some.inj hlast
    exact harrives

/-- A call that arrives when the clock does not last for its window is the first one lost. -/
theorem Punctual.stop {call : SubmittedCall} {queue : List SubmittedCall}
    (hqueue : machine.queue = call :: queue)
    (hends : machine.last < machine.now + machine.config.window) :
    (machine.stop (call :: queue)).Punctual := by
  have harrives : call.time = machine.now := h.queue call (hqueue ▸ List.mem_cons_self)
  refine { h with
    queue := fun _ hmem => absurd hmem List.not_mem_nil
    lost := ?_
    flushed := fun batch hmem => (h.flushed batch hmem).keep rfl rfl (Nat.le_refl _) rfl rfl }
  intro first hfirst
  obtain rfl := Option.some.inj hfirst
  rw [harrives]
  exact hends

/-- A call joins the batch when it arrives. -/
theorem Punctual.join {call : SubmittedCall} {queue : List SubmittedCall} {batch : OpenBatch}
    (hqueue : machine.queue = call :: queue) (hcollecting : machine.collecting? = some batch)
    (hne : batch.calls ≠ []) :
    Punctual { machine with
      queue, collecting? := some { batch with calls := batch.calls ++ [call] } } := by
  have harrives : call.time = machine.now := h.queue call (hqueue ▸ List.mem_cons_self)
  refine { h with
    queue := fun other hmem => h.queue other (hqueue ▸ List.mem_cons_of_mem _ hmem)
    closing := fun closed hclosed _ => h.closing closed hclosed (by simp [hcollecting])
    window := ?_
    fits := ?_
    full := ?_
    flushed := fun batch hmem => (h.flushed batch hmem).keep rfl rfl (Nat.le_refl _) rfl rfl }
  · intro longer hlonger first hfirst
    obtain rfl := Option.mem_some.mp hlonger
    rw [List.head?_append_of_ne_nil _ hne] at hfirst
    exact h.window batch hcollecting first hfirst
  · intro longer hlonger
    obtain rfl := Option.mem_some.mp hlonger
    exact h.fits batch hcollecting
  · intro longer hlonger _ last hlast
    obtain rfl := Option.mem_some.mp hlonger
    rw [List.getLast?_concat] at hlast
    obtain rfl := Option.mem_some.mp hlast
    exact harrives

/-- **Steps on time miss nothing that is due.** -/
theorem Punctual.step (hcollects : machine.Collects)
    (hnumbers : machine.submitted.map SubmittedCall.number = List.range machine.submitted.length)
    {next : Machine} {event : MachineEvent} (htime : machine.OnTime event)
    (hsteps : Steps machine event next) : next.Punctual := by
  cases hsteps with
  | submit query values hopen hlost =>
      refine h.submit hnumbers hopen query values (fun call hmem => ?_) rfl machine.results
      exact (List.mem_append.mp hmem).imp_right List.mem_singleton.mp
  | @refuse query values hopen lost hlost =>
      refine h.submit hnumbers hopen query values (fun call hmem => .inl hmem) ?_ _
      rw [Option.getD_some, Machine.lost, hlost, Option.getD_some,
        List.head?_append_of_ne_nil _ (hcollects.stopped lost hlost).1]
  | clone hopen =>
      exact { h with
        closed_isSome := by simp [h.closed_eq_none hopen]
        flushed := fun batch hmem =>
          (h.flushed batch hmem).keep rfl rfl (Nat.le_refl _) rfl rfl }
  | close hone => exact h.close hone
  | drop hmany =>
      exact { h with
        closed_isSome := by simp [h.closed_eq_none (by omega)]
        flushed := fun batch hmem =>
          (h.flushed batch hmem).keep rfl rfl (Nat.le_refl _) rfl rfl }
  | wait duration => exact h.wait htime
  | openBatch hqueue hcollecting hends => exact h.openBatch hcollects hqueue hends
  | stop hqueue hcollecting hends => exact h.stop hqueue hends
  | @join call queue batch hqueue hcollecting hroom =>
      have hallows := hcollects.collecting batch hcollecting
      exact h.join hqueue hcollecting (List.ne_nil_of_length_pos hallows.1)
  | @handOver batch hcollecting hdue =>
      refine { h with
        closing := fun _ _ hne => absurd rfl hne
        window := fun _ hmem => absurd hmem (by simp)
        fits := fun _ hmem => absurd hmem (by simp)
        full := fun _ hmem => absurd hmem (by simp)
        flushed := fun flushed hmem => ?_ }
      rcases List.mem_append.mp hmem with hmem | hmem
      · exact (h.flushed flushed hmem).keep rfl rfl (Nat.le_refl _) rfl rfl
      · obtain rfl := List.mem_singleton.mp hmem
        exact (h.flushedOnTime hcollects hnumbers hcollecting hdue).keep rfl rfl (Nat.le_refl _)
          rfl rfl
  | @flush number batch event stage delivered requests hbatch hmoves =>
      refine { h with flushed := fun flushed hmem => ?_ }
      obtain ⟨old, hold, hcalls, hat⟩ := exists_of_mem_flushed_advance hmem
      rw [hcalls, hat]
      exact (h.flushed old hold).keep rfl rfl (Nat.le_refl _) rfl rfl

end Step

theorem punctual_of_run {config : BatchConfig} {last : Nat} {events : List MachineEvent}
    {machine : Machine} (hrun : RunsOnTime config last events machine) : machine.Punctual := by
  induction hrun with
  | start => exact punctual_new config last
  | step hrun htime hstep ih =>
      exact ih.step (collects_of_run hrun.run?_eq) (records_of_run hrun.run?_eq).numbers htime
        (step?_eq_some_iff.mp hstep)

/-! ### When batches are flushed -/

section Timely

variable {machine : Machine}

variable (hnumbers : machine.submitted.map SubmittedCall.number =
  List.range machine.submitted.length)

include hnumbers

variable (hpunctual : machine.Punctual)

include hpunctual

variable (hcollects : machine.Collects) {batch : OpenBatch}
  (hcollecting : machine.collecting? = some batch) {first : SubmittedCall}
  (hspans : machine.Spans batch.calls first)

include hcollects hcollecting hspans

variable (hidle : machine.Idle)

include hidle

end Timely

end Machine

end QueryBatching
