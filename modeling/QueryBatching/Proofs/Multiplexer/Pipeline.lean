/-
A flush computes the pure pipeline.

What becomes of a batch depends on its calls and on what happens to its flush, and on nothing
else: not on when it happens, nor on the batches and calls around it.  `Course` has the six ways
that the flush of a batch can have gone so far, and `outcome?` says what a call has got by then.
That every batch of a machine is on one of these courses is the invariant `Follows`.

So the flush of a batch can be compared with that of any other batch, in the same run or another:
if they went the same way, and the batches differ only in calls that cannot be read, they send the
same request, and all other calls get the same.
-/
import QueryBatching.Proofs.Multiplexer.Resolution

namespace QueryBatching

/-! ### What a batch comes to -/

/-- What an event of the flush means for a call whose request is out, at its place in the batch. -/
def FlushEvent.result? (mapping : PathMapping) (place : Nat) : FlushEvent → Option CallResult
  | .start => none
  | .answer (.ok response) =>
    some (.ok ⟨Response.demultiplex mapping place response.data, response.errors?⟩)
  | .answer (.error reason) => some (.error (.transport reason))
  | .abort => some (.error .dropped)

namespace FlushPlan

/-- The request of a batch, if there is one. -/
def request? (calls : List SubmittedCall) : Option Request :=
  match MergedBatch.ofCalls (documents calls) with
  | .ok merged => some (Request.ofBatch merged (supplied calls))
  | .error _ => none

/-- What the call at a place of a batch gets from a flush that begins, and then goes on. -/
def started? (calls : List SubmittedCall) (place : Nat) (query : String)
    (later : List FlushEvent) : Option CallResult :=
  match CallDocument.parse place query with
  | .error error => some (.error (.ofSyntax error))
  | .ok _ =>
    match MergedBatch.ofCalls (documents calls) with
    | .error error => some (.error (.merge error))
    | .ok merged => later.head?.bind (FlushEvent.result? merged.mapping place)

/-- What the call at a place of a batch has got, after all that happened to the flush. -/
def outcome? (calls : List SubmittedCall) (place : Nat) (query : String) :
    List FlushEvent → Option CallResult
  | .start :: later => started? calls place query later
  | .abort :: _ => some (.error .dropped)
  | _ => none

/-- The requests that were sent for a batch, after all that happened to the flush. -/
def sentRequests (calls : List SubmittedCall) : List FlushEvent → List Request
  | .start :: _ => (request? calls).toList
  | _ => []

theorem request?_eq_none {calls : List SubmittedCall} (hplan : (ofCalls calls).sent? = none) :
    request? calls = none := by
  obtain ⟨error, hmerge⟩ := sent?_eq_none_iff.mp hplan
  simp only [request?, hmerge]

theorem request?_eq_some {calls : List SubmittedCall} {sent : SentBatch}
    (hplan : (ofCalls calls).sent? = some sent) : request? calls = some sent.request := by
  obtain ⟨merged, hmerge, rfl⟩ := sent?_eq_some_iff.mp hplan
  simp only [request?, hmerge]

theorem length_sentRequests_le (calls : List SubmittedCall) (events : List FlushEvent) :
    (sentRequests calls events).length ≤ 1 := by
  unfold sentRequests
  split
  · cases request? calls <;> simp
  · exact Nat.zero_le 1

theorem sentRequests_of_not_mem {calls : List SubmittedCall} {events : List FlushEvent}
    (hmem : .start ∉ events) : sentRequests calls events = [] := by
  unfold sentRequests
  split
  · exact absurd List.mem_cons_self hmem
  · rfl

/-- A flush that begins sends a request exactly if there are calls to send, and they merge. -/
theorem length_sentRequests_start (calls : List SubmittedCall) (later : List FlushEvent) :
    (sentRequests calls (.start :: later)).length = 1 ↔
      documents calls ≠ [] ∧ ∃ merged, MergedBatch.ofCalls (documents calls) = .ok merged := by
  cases hmerge : MergedBatch.ofCalls (documents calls) with
  | error error => simp [sentRequests, request?, hmerge]
  | ok merged =>
      have hsome : documents calls ≠ [] := by
        intro hnone
        simp [hnone, MergedBatch.ofCalls] at hmerge
      simp [sentRequests, request?, hmerge, hsome]

/-- Without a request, every call is resolved at once. -/
theorem mem_resolved_of_none {calls : List SubmittedCall} {place : Nat} {call : SubmittedCall}
    (hplan : (ofCalls calls).sent? = none) (hcall : calls[place]? = some call)
    (later : List FlushEvent) :
    ∃ result, started? calls place call.query later = some result ∧
      (call.number, result) ∈ (ofCalls calls).resolved := by
  obtain ⟨error, hmerge⟩ := sent?_eq_none_iff.mp hplan
  rw [ofCalls_of_error hmerge]
  cases hparse : CallDocument.parse place call.query with
  | error reason =>
      refine ⟨.error (.ofSyntax reason), by simp only [started?, hparse], ?_⟩
      exact List.mem_append_left _ (mem_rejected hcall hparse)
  | ok document =>
      refine ⟨.error (.merge error), by simp only [started?, hparse, hmerge], ?_⟩
      exact List.mem_append_right _ 
        (List.mem_map.mpr ⟨_, mem_accepted hcall hparse, rfl⟩)

/-- With a request, a call is resolved at once, or it waits with the others. -/
theorem mem_resolved_or_sent {calls : List SubmittedCall} {place : Nat} {call : SubmittedCall}
    {sent : SentBatch} (hplan : (ofCalls calls).sent? = some sent)
    (hcall : calls[place]? = some call) :
    (∃ result, (∀ later, started? calls place call.query later = some result) ∧
      (call.number, result) ∈ (ofCalls calls).resolved) ∨
    ∃ accepted ∈ sent.calls, accepted.number = call.number ∧ accepted.document.index = place ∧
      ∀ later, started? calls place call.query later =
        later.head?.bind (FlushEvent.result? sent.mapping place) := by
  obtain ⟨merged, hmerge, rfl⟩ := sent?_eq_some_iff.mp hplan
  rw [ofCalls_of_ok hmerge]
  cases hparse : CallDocument.parse place call.query with
  | error reason =>
      exact .inl ⟨.error (.ofSyntax reason), fun later => by simp only [started?, hparse],
        mem_rejected hcall hparse⟩
  | ok document =>
      exact .inr ⟨_, mem_accepted hcall hparse, rfl, CallDocument.index_of_parse hparse,
        fun later => by simp only [started?, hparse, hmerge]⟩

end FlushPlan

/-! ### The course of one flush -/

open Machine (droppedResults) in
/--
How the flush of a batch can have gone: what happened to it, where it is, the results it has
delivered, and the requests it has sent.
-/
inductive Course (calls : List SubmittedCall) :
    List FlushEvent → FlushStage → List (Nat × CallResult) → List Request → Prop
  | handedOver : Course calls [] .ready [] []
  | dropped : Course calls [.abort] .over (droppedResults (calls.map SubmittedCall.number)) []
  | settled (hplan : (FlushPlan.ofCalls calls).sent? = none) :
      Course calls [.start] .over (FlushPlan.ofCalls calls).resolved []
  | sent {sent : SentBatch} (hplan : (FlushPlan.ofCalls calls).sent? = some sent) :
      Course calls [.start] (.waiting sent) (FlushPlan.ofCalls calls).resolved [sent.request]
  | answered {sent : SentBatch} (hplan : (FlushPlan.ofCalls calls).sent? = some sent)
      (answer : Except String TransportResponse) :
      Course calls [.start, .answer answer] .over
        ((FlushPlan.ofCalls calls).resolved ++ sent.resolve answer) [sent.request]
  | cutOff {sent : SentBatch} (hplan : (FlushPlan.ofCalls calls).sent? = some sent) :
      Course calls [.start, .abort] .over
        ((FlushPlan.ofCalls calls).resolved ++
          droppedResults (sent.calls.map AcceptedCall.number)) [sent.request]

namespace Course

variable {calls : List SubmittedCall} {events : List FlushEvent} {stage : FlushStage}
  {delivered : List (Nat × CallResult)} {requests : List Request}

/-- **A flush that goes on stays on one of its courses.** -/
theorem move {event : FlushEvent} {stage' : FlushStage} {more : List (Nat × CallResult)}
    {further : List Request} (h : Course calls events stage delivered requests)
    (hmoves : stage.Moves calls event stage' more further) :
    Course calls (events ++ [event]) stage' (delivered ++ more) (requests ++ further) := by
  cases h with
  | handedOver =>
      cases hmoves with
      | settle hplan => exact settled hplan
      | send hplan => exact sent hplan
      | abortReady => exact dropped
  | sent hplan =>
      cases hmoves with
      | answer sent answer => exact answered hplan answer
      | abortWaiting sent => exact cutOff hplan
  | _ => cases hmoves

theorem requests_eq (h : Course calls events stage delivered requests) :
    requests = FlushPlan.sentRequests calls events := by
  cases h with
  | handedOver => rfl
  | dropped => rfl
  | settled hplan => rw [FlushPlan.sentRequests, FlushPlan.request?_eq_none hplan, Option.toList]
  | sent hplan | answered hplan | cutOff hplan =>
      rw [FlushPlan.sentRequests, FlushPlan.request?_eq_some hplan, Option.toList]

/-- **Every call of the batch has got what it should, or is owed a result.** -/
theorem delivers (h : Course calls events stage delivered requests) {place : Nat}
    {call : SubmittedCall} (hcall : calls[place]? = some call) :
    (∃ result, FlushPlan.outcome? calls place call.query events = some result ∧
      (call.number, result) ∈ delivered) ∨
    FlushPlan.outcome? calls place call.query events = none ∧ call.number ∈ stage.owed calls := by
  have hnumber : call.number ∈ calls.map SubmittedCall.number :=
    List.mem_map_of_mem (List.mem_of_getElem? hcall)
  cases h with
  | handedOver => exact .inr ⟨rfl, hnumber⟩
  | dropped => exact .inl ⟨_, rfl, List.mem_map_of_mem hnumber⟩
  | settled hplan => exact .inl (FlushPlan.mem_resolved_of_none hplan hcall [])
  | sent hplan =>
      obtain ⟨result, hstarted, hmem⟩ | ⟨accepted, hmem, hsame, -, hstarted⟩ :=
        FlushPlan.mem_resolved_or_sent hplan hcall
      · exact .inl ⟨result, hstarted [], hmem⟩
      · exact .inr ⟨hstarted [], List.mem_map.mpr ⟨accepted, hmem, hsame⟩⟩
  | answered hplan answer =>
      obtain ⟨result, hstarted, hmem⟩ | ⟨accepted, hmem, hsame, hindex, hstarted⟩ :=
        FlushPlan.mem_resolved_or_sent hplan hcall
      · exact .inl ⟨result, hstarted _, List.mem_append_left _ hmem⟩
      · refine .inl ⟨_, (hstarted [.answer answer]).trans ?_, List.mem_append_right _
          (List.mem_map.mpr ⟨accepted, hmem, Prod.ext hsame rfl⟩)⟩
        cases answer <;> simp only [List.head?_cons, Option.bind_some, FlushEvent.result?, hindex]
  | cutOff hplan =>
      obtain ⟨result, hstarted, hmem⟩ | ⟨accepted, hmem, hsame, -, hstarted⟩ :=
        FlushPlan.mem_resolved_or_sent hplan hcall
      · exact .inl ⟨result, hstarted _, List.mem_append_left _ hmem⟩
      · exact .inl ⟨_, hstarted [.abort], List.mem_append_right _ (List.mem_map_of_mem
          (List.mem_map.mpr ⟨accepted, hmem, hsame⟩))⟩

/-- A flush that has begun began before anything else happened to it. -/
theorem eq_start_cons (h : Course calls events stage delivered requests) (hmem : .start ∈ events) :
    ∃ later, events = .start :: later := by
  cases h <;> simp at hmem ⊢

/-- A flush is answered once, and only if its calls were merged. -/
theorem eq_of_answer_mem (h : Course calls events stage delivered requests)
    {answer : Except String TransportResponse} (hmem : .answer answer ∈ events) :
    events = [.start, .answer answer] ∧
      ∃ merged, MergedBatch.ofCalls (FlushPlan.documents calls) = .ok merged := by
  cases h with
  | answered hplan other =>
      obtain rfl : answer = other := by simpa using hmem
      obtain ⟨merged, hmerge, -⟩ := FlushPlan.sent?_eq_some_iff.mp hplan
      exact ⟨rfl, merged, hmerge⟩
  | _ => simp at hmem

end Course

/-! ### The flushes of a machine -/

/-- What an event means for the flush of the batch with a number. -/
def MachineEvent.flushEvent? (number : Nat) : MachineEvent → Option FlushEvent
  | .start batch => if batch = number then some .start else none
  | .answer batch response => if batch = number then some (.answer response) else none
  | .abort batch => if batch = number then some .abort else none
  | _ => none

theorem MachineEvent.flushEvent?_eq_some_iff {number : Nat} {event : MachineEvent}
    {flushEvent : FlushEvent} :
    event.flushEvent? number = some flushEvent ↔ event = flushEvent.toMachine number := by
  cases flushEvent <;> cases event <;> simp [flushEvent?, FlushEvent.toMachine]

/-- All that happened to the flush of the batch with a number. -/
def flushEvents (number : Nat) (events : List MachineEvent) : List FlushEvent :=
  events.filterMap (MachineEvent.flushEvent? number)

theorem mem_flushEvents {number : Nat} {events : List MachineEvent} {event : FlushEvent} :
    event ∈ flushEvents number events ↔ event.toMachine number ∈ events := by
  simp [flushEvents, List.mem_filterMap, MachineEvent.flushEvent?_eq_some_iff]

theorem flushEvents_concat_self (number : Nat) (events : List MachineEvent) (event : FlushEvent) :
    flushEvents number (events ++ [event.toMachine number]) =
      flushEvents number events ++ [event] := by
  have hevent := MachineEvent.flushEvent?_eq_some_iff.mpr (rfl : event.toMachine number = _)
  rw [flushEvents, List.filterMap_append, List.filterMap_cons_some hevent, List.filterMap_nil]
  rfl

theorem flushEvents_concat_none {number : Nat} {event : MachineEvent}
    (hevent : event.flushEvent? number = none) (events : List MachineEvent) :
    flushEvents number (events ++ [event]) = flushEvents number events := by
  rw [flushEvents, List.filterMap_append, List.filterMap_cons_none hevent, List.filterMap_nil,
    List.append_nil]
  rfl

/-- What happens to the flush of one batch does not happen to that of another. -/
theorem FlushEvent.flushEvent?_toMachine_of_ne {number other : Nat} (hne : number ≠ other)
    (event : FlushEvent) : (event.toMachine number).flushEvent? other = none := by
  cases event <;> simp [toMachine, MachineEvent.flushEvent?, hne]

namespace Machine

/-- The requests that were sent for the batch with a number. -/
def requestsOf (machine : Machine) (number : Nat) : List Request :=
  (machine.requests.filter (·.1 == number)).map Prod.snd

theorem requestsOf_advance_self (machine : Machine) (number : Nat) (stage : FlushStage)
    (delivered : List (Nat × CallResult)) (requests : List Request) :
    (machine.advance number stage delivered requests).requestsOf number =
      machine.requestsOf number ++ requests := by
  simp [requestsOf, advance, List.filter_map, Function.comp_def]

theorem requestsOf_advance_of_ne (machine : Machine) {number other : Nat} (hne : number ≠ other)
    (stage : FlushStage) (delivered : List (Nat × CallResult)) (requests : List Request) :
    (machine.advance number stage delivered requests).requestsOf other =
      machine.requestsOf other := by
  simp [requestsOf, advance, List.filter_map, Function.comp_def, hne]

/-- Every batch that was handed over is on its course, and nothing has happened to any other. -/
structure Follows (events : List MachineEvent) (machine : Machine) : Prop where
  course : ∀ number batch, machine.flushed[number]? = some batch →
    ∃ delivered ⊆ machine.results,
      Course batch.calls (flushEvents number events) batch.stage delivered
        (machine.requestsOf number)
  fresh : ∀ number, machine.flushed.length ≤ number →
    flushEvents number events = [] ∧ machine.requestsOf number = []

/-- An event that concerns no flush leaves all flushes where they are. -/
theorem Follows.append_none {events : List MachineEvent} {machine next : Machine}
    {event : MachineEvent} (h : Follows events machine)
    (hevent : ∀ number, event.flushEvent? number = none)
    (hflushed : next.flushed = machine.flushed) (hresults : machine.results ⊆ next.results)
    (hrequests : next.requests = machine.requests) : Follows (events ++ [event]) next := by
  refine ⟨fun number batch hbatch => ?_, fun number hnumber => ?_⟩
  · rw [flushEvents_concat_none (hevent number), requestsOf, hrequests]
    obtain ⟨delivered, hdelivered, hcourse⟩ := h.course number batch (hflushed ▸ hbatch)
    exact ⟨delivered, List.Subset.trans hdelivered hresults, hcourse⟩
  · rw [flushEvents_concat_none (hevent number), requestsOf, hrequests]
    exact h.fresh number (hflushed ▸ hnumber)

/-- A batch that is handed over is at the beginning of its course. -/
theorem Follows.handOver {events : List MachineEvent} {machine : Machine} {batch : OpenBatch}
    (h : Follows events machine) :
    Follows (events ++ [.flush]) { machine with
      collecting? := none
      flushed := machine.flushed ++ [⟨batch.calls, machine.now, .ready⟩] } := by
  refine ⟨fun number found hfound => ?_, fun number hnumber => ?_⟩
  · rw [flushEvents_concat_none rfl]
    by_cases hold : number < machine.flushed.length
    · rw [List.getElem?_append_left hold] at hfound
      exact h.course number found hfound
    · rw [List.getElem?_append_right (Nat.le_of_not_lt hold), List.getElem?_singleton,
        Option.ite_none_right_eq_some, Option.some.injEq] at hfound
      obtain ⟨-, rfl⟩ := hfound
      obtain ⟨hevents, hrequests⟩ := h.fresh number (Nat.le_of_not_lt hold)
      refine ⟨[], List.nil_subset _, ?_⟩
      show Course _ _ _ _ (machine.requestsOf number)
      rw [hevents, hrequests]
      exact .handedOver
  · rw [flushEvents_concat_none rfl]
    rw [List.length_append, List.length_singleton] at hnumber
    exact h.fresh number (by omega)

/-- A flush that goes on stays on its course, and so do all others. -/
theorem Follows.advance {events : List MachineEvent} {machine : Machine} {number : Nat}
    {batch : FlushedBatch} {event : FlushEvent} {stage : FlushStage}
    {delivered : List (Nat × CallResult)} {requests : List Request} (h : Follows events machine)
    (hbatch : machine.flushed[number]? = some batch)
    (hmoves : batch.stage.Moves batch.calls event stage delivered requests) :
    Follows (events ++ [event.toMachine number])
      (machine.advance number stage delivered requests) := by
  refine ⟨fun other found hfound => ?_, fun other hother => ?_⟩
  · by_cases hsame : number = other
    · subst hsame
      rw [flushed_advance_self hbatch, Option.some.injEq] at hfound
      obtain ⟨before, hbefore, hcourse⟩ := h.course number batch hbatch
      rw [flushEvents_concat_self, requestsOf_advance_self]
      refine ⟨before ++ delivered, ?_, hfound ▸ hcourse.move hmoves⟩
      exact List.append_subset.mpr ⟨List.subset_append_of_subset_left _ hbefore,
        List.subset_append_right ..⟩
    · rw [flushed_advance_of_ne _ hsame] at hfound
      obtain ⟨before, hbefore, hcourse⟩ := h.course other found hfound
      rw [flushEvents_concat_none (event.flushEvent?_toMachine_of_ne hsame),
        requestsOf_advance_of_ne _ hsame]
      exact ⟨before, List.subset_append_of_subset_left _ hbefore, hcourse⟩
  · have hlength : machine.flushed.length ≤ other := by simpa [Machine.advance] using hother
    have hne : number ≠ other := by
      have hlt := (List.getElem?_eq_some_iff.mp hbatch).1
      omega
    rw [flushEvents_concat_none (event.flushEvent?_toMachine_of_ne hne),
      requestsOf_advance_of_ne _ hne]
    exact h.fresh other hlength

/-- **Each step keeps every flush on its course.** -/
theorem Follows.step {events : List MachineEvent} {machine next : Machine} {event : MachineEvent}
    (h : Follows events machine) (hsteps : Steps machine event next) :
    Follows (events ++ [event]) next := by
  have hresults := hsteps.results_subset
  cases hsteps with
  | handOver hcollecting hdue => exact h.handOver
  | flush hbatch hmoves => exact h.advance hbatch hmoves
  | _ => exact h.append_none (fun _ => rfl) rfl hresults rfl

theorem follows_new (config : BatchConfig) (last : Nat) : Follows [] (new config last) :=
  ⟨fun _ _ hbatch => by simp [new] at hbatch, fun _ _ => ⟨rfl, rfl⟩⟩

theorem follows_of_run {config : BatchConfig} {last : Nat} {events : List MachineEvent}
    {machine : Machine} (hrun : (new config last).run? events = some machine) :
    Follows events machine :=
  run_induction (motive := Follows) (follows_new config last) (fun _ h hsteps => h.step hsteps) hrun

section

variable {config : BatchConfig} {last : Nat} {events : List MachineEvent} {machine : Machine}
  {number : Nat} {batch : FlushedBatch}

/-- **The requests sent for a batch are those of its calls.** -/
theorem requestsOf_eq (hrun : (new config last).run? events = some machine)
    (hbatch : machine.flushed[number]? = some batch) :
    machine.requestsOf number =
      FlushPlan.sentRequests batch.calls (flushEvents number events) := by
  obtain ⟨delivered, -, hcourse⟩ := (follows_of_run hrun).course number batch hbatch
  exact hcourse.requests_eq

/-- **The result of a call is that of the pipeline**, and there is none where it has none. -/
theorem resultsOf_eq_outcome {place : Nat} {call : SubmittedCall}
    (hrun : (new config last).run? events = some machine)
    (hbatch : machine.flushed[number]? = some batch) (hcall : batch.calls[place]? = some call) :
    machine.resultsOf call.number =
      (FlushPlan.outcome? batch.calls place call.query (flushEvents number events)).toList := by
  obtain ⟨delivered, hdelivered, hcourse⟩ := (follows_of_run hrun).course number batch hbatch
  rcases hcourse.delivers hcall with ⟨result, houtcome, hmem⟩ | ⟨houtcome, howed⟩
  · rw [houtcome]
    exact resultsOf_eq hrun (hdelivered hmem)
  · rw [houtcome]
    exact resultsOf_eq_nil hrun (List.mem_append_left _
      (List.mem_flatMap_of_mem (List.mem_of_getElem? hbatch) howed))

end

end Machine

/-! ### Calls that cannot be read -/

namespace FlushPlan

/-- Two batches differ only in calls that cannot be read. -/
structure SameReadable (calls calls' : List SubmittedCall) : Prop where
  length_eq : calls.length = calls'.length
  same : ∀ {place call call'}, calls[place]? = some call → calls'[place]? = some call' →
    call.asked = call'.asked ∨
      (∃ error, CallDocument.parse place call.query = .error error) ∧
        ∃ error, CallDocument.parse place call'.query = .error error

/-- What is read off the calls and their places is the same where each call gives the same. -/
theorem filterMap_zipIdx_congr {α : Type} {calls calls' : List SubmittedCall}
    {read : SubmittedCall × Nat → Option α} (hlength : calls.length = calls'.length)
    (hread : ∀ {place call call'}, calls[place]? = some call → calls'[place]? = some call' →
      read (call, place) = read (call', place)) :
    calls.zipIdx.filterMap read = calls'.zipIdx.filterMap read := by
  have hmap : calls.zipIdx.map read = calls'.zipIdx.map read := by
    refine List.ext_getElem (by simp [hlength]) fun place hplace hplace' => ?_
    simp only [List.length_map, List.length_zipIdx] at hplace hplace'
    simpa using hread (List.getElem?_eq_getElem hplace) (List.getElem?_eq_getElem hplace')
  rw [← Function.id_comp read, ← List.filterMap_map, hmap, List.filterMap_map]

theorem SameReadable.documents_eq {calls calls' : List SubmittedCall}
    (h : SameReadable calls calls') : documents calls = documents calls' :=
  filterMap_zipIdx_congr h.length_eq fun {place call call'} hcall hcall' => by
    rcases h.same hcall hcall' with hasked | ⟨⟨error, herror⟩, error', herror'⟩
    · simp only [(Prod.mk.inj hasked).1]
    · simp only [herror, herror', Except.toOption]

theorem SameReadable.supplied_eq {calls calls' : List SubmittedCall}
    (h : SameReadable calls calls') : supplied calls = supplied calls' :=
  filterMap_zipIdx_congr h.length_eq fun {place call call'} hcall hcall' => by
    rcases h.same hcall hcall' with hasked | ⟨⟨error, herror⟩, error', herror'⟩
    · simp only [(Prod.mk.inj hasked).1, (Prod.mk.inj hasked).2]
    · simp only [herror, herror', Except.toOption, Option.map_none]

/-- **Calls that cannot be read leave no trace in the request.** -/
theorem SameReadable.sentRequests_eq {calls calls' : List SubmittedCall}
    (h : SameReadable calls calls') (history : List FlushEvent) :
    sentRequests calls history = sentRequests calls' history := by
  have hrequest : request? calls = request? calls' := by
    simp only [request?, h.documents_eq, h.supplied_eq]
  unfold sentRequests
  rw [hrequest]

/-- **Calls that cannot be read leave no trace in what other calls get.** -/
theorem SameReadable.outcome?_eq {calls calls' : List SubmittedCall}
    (h : SameReadable calls calls') (place : Nat) (query : String) (history : List FlushEvent) :
    outcome? calls place query history = outcome? calls' place query history := by
  have hstarted : started? calls place query = started? calls' place query :=
    funext fun later => by simp only [started?, h.documents_eq]
  unfold outcome?
  rw [hstarted]

end FlushPlan

namespace Machine

open FlushPlan (documents supplied SameReadable)

/-- What the flush of a batch has done is what the pure pipeline makes of its calls. -/
structure Pipeline (events : List MachineEvent) (machine : Machine) (number : Nat)
    (calls : List SubmittedCall) : Prop where
  /-- A call that cannot be read gets precisely its error. -/
  rejected : .start number ∈ events → ∀ {place call error}, calls[place]? = some call →
    CallDocument.parse place call.query = .error error →
    machine.resultsOf call.number = [.error (.ofSyntax error)]
  /-- The transport is called at most once, and not before the flush begins. -/
  once : (machine.requestsOf number).length ≤ 1
  unsent : .start number ∉ events → machine.requestsOf number = []
  /-- The transport is called exactly if some call can be read and all that can be merge. -/
  sent_iff : .start number ∈ events → ((machine.requestsOf number).length = 1 ↔
    documents calls ≠ [] ∧ ∃ merged, MergedBatch.ofCalls (documents calls) = .ok merged)
  /-- The transport is called with the request of the merge. -/
  request : .start number ∈ events → ∀ {merged},
    MergedBatch.ofCalls (documents calls) = .ok merged →
    machine.requestsOf number = [Request.ofBatch merged (supplied calls)]
  /-- If the calls do not merge, each that can be read gets that error. -/
  unmerged : .start number ∈ events → ∀ {error},
    MergedBatch.ofCalls (documents calls) = .error error →
    ∀ {place call document}, calls[place]? = some call →
      CallDocument.parse place call.query = .ok document →
      machine.resultsOf call.number = [.error (.merge error)]
  /-- If the transport fails, each call that can be read gets that error. -/
  failed : ∀ {reason}, .answer number (.error reason) ∈ events →
    ∀ {place call document}, calls[place]? = some call →
      CallDocument.parse place call.query = .ok document →
      machine.resultsOf call.number = [.error (.transport reason)]
  /-- If it answers, each call that can be read gets its own part of the data, and all errors. -/
  answered : ∀ {response}, .answer number (.ok response) ∈ events →
    ∃ merged, MergedBatch.ofCalls (documents calls) = .ok merged ∧
      ∀ {place call document}, calls[place]? = some call →
        CallDocument.parse place call.query = .ok document →
        machine.resultsOf call.number =
          [.ok ⟨Response.demultiplex merged.mapping place response.data, response.errors?⟩]

theorem pipeline_of_run {config : BatchConfig} {last : Nat} {events : List MachineEvent}
    {machine : Machine} {number : Nat} {batch : FlushedBatch}
    (hrun : (new config last).run? events = some machine)
    (hbatch : machine.flushed[number]? = some batch) :
    Pipeline events machine number batch.calls := by
  obtain ⟨delivered, -, hcourse⟩ := (follows_of_run hrun).course number batch hbatch
  have hrequests := requestsOf_eq hrun hbatch
  have hstart : .start number ∈ events → ∃ later, flushEvents number events = .start :: later :=
    fun hmem => hcourse.eq_start_cons (mem_flushEvents.mpr hmem)
  have hanswer : ∀ {answer}, .answer number answer ∈ events →
      flushEvents number events = [.start, .answer answer] ∧
        ∃ merged, MergedBatch.ofCalls (documents batch.calls) = .ok merged :=
    fun hmem => hcourse.eq_of_answer_mem (mem_flushEvents.mpr hmem)
  constructor
  case rejected =>
    intro hmem place call error hcall hparse
    obtain ⟨later, hevents⟩ := hstart hmem
    rw [resultsOf_eq_outcome hrun hbatch hcall, hevents]
    simp only [FlushPlan.outcome?, FlushPlan.started?, hparse, Option.toList]
  case once =>
    rw [hrequests]
    exact FlushPlan.length_sentRequests_le ..
  case unsent =>
    intro hmem
    rw [hrequests]
    exact FlushPlan.sentRequests_of_not_mem fun hstarted => hmem (mem_flushEvents.mp hstarted)
  case sent_iff =>
    intro hmem
    obtain ⟨later, hevents⟩ := hstart hmem
    rw [hrequests, hevents]
    exact FlushPlan.length_sentRequests_start ..
  case request =>
    intro hmem merged hmerge
    obtain ⟨later, hevents⟩ := hstart hmem
    rw [hrequests, hevents]
    simp only [FlushPlan.sentRequests, FlushPlan.request?, hmerge, Option.toList]
  case unmerged =>
    intro hmem error hmerge place call document hcall hparse
    obtain ⟨later, hevents⟩ := hstart hmem
    rw [resultsOf_eq_outcome hrun hbatch hcall, hevents]
    simp only [FlushPlan.outcome?, FlushPlan.started?, hparse, hmerge, Option.toList]
  case failed =>
    intro reason hmem place call document hcall hparse
    obtain ⟨hevents, merged, hmerge⟩ := hanswer hmem
    rw [resultsOf_eq_outcome hrun hbatch hcall, hevents]
    simp only [FlushPlan.outcome?, FlushPlan.started?, hparse, hmerge, List.head?_cons,
      Option.bind_some, FlushEvent.result?, Option.toList]
  case answered =>
    intro response hmem
    obtain ⟨hevents, merged, hmerge⟩ := hanswer hmem
    refine ⟨merged, hmerge, fun {place call document} hcall hparse => ?_⟩
    rw [resultsOf_eq_outcome hrun hbatch hcall, hevents]
    simp only [FlushPlan.outcome?, FlushPlan.started?, hparse, hmerge, List.head?_cons,
      Option.bind_some, FlushEvent.result?, Option.toList]

/--
**A flush computes exactly the pure pipeline.**  In every run, the flush of a batch calls the
transport and resolves the calls of the batch as `Pipeline` says, whatever the transport does.  And
it depends on nothing but the calls that can be read: if the flush of any other batch, in this run
or another, went the same way, and the other batch differs only in calls that neither batch can
read, then the two sent the same request, and every call that is in both got the same.
-/
theorem flush_pipeline {config : BatchConfig} {last : Nat} {events : List MachineEvent}
    {machine : Machine} {number : Nat} {batch : FlushedBatch}
    (hrun : (new config last).run? events = some machine)
    (hbatch : machine.flushed[number]? = some batch) :
    Pipeline events machine number batch.calls ∧
      ∀ {config' : BatchConfig} {last' : Nat} {events' : List MachineEvent} {machine' : Machine}
        {number' : Nat} {batch' : FlushedBatch},
        (new config' last').run? events' = some machine' →
        machine'.flushed[number']? = some batch' →
        flushEvents number' events' = flushEvents number events →
        SameReadable batch.calls batch'.calls →
        machine'.requestsOf number' = machine.requestsOf number ∧
          ∀ {place : Nat} {call call' : SubmittedCall}, batch.calls[place]? = some call →
            batch'.calls[place]? = some call' → call.asked = call'.asked →
            machine'.resultsOf call'.number = machine.resultsOf call.number := by
  refine ⟨pipeline_of_run hrun hbatch, ?_⟩
  intro config' last' events' machine' number' batch' hrun' hbatch' hevents hsame
  refine ⟨?_, fun {place call call'} hcall hcall' hasked => ?_⟩
  · rw [requestsOf_eq hrun hbatch, requestsOf_eq hrun' hbatch', hevents, hsame.sentRequests_eq]
  · rw [resultsOf_eq_outcome hrun hbatch hcall, resultsOf_eq_outcome hrun' hbatch' hcall', hevents,
      hsame.outcome?_eq, (Prod.mk.inj hasked).1]

/-- A batch of a call that can be read and one that perhaps cannot, and its flush. -/
def pairRun (text : String) : List MachineEvent :=
  [.submit "\x7b a \x7d" [], .submit text [], .receive, .receive, .wait 10, .flush] ++ [.start 0] ++
    [.answer 0 (.ok { data := .object [("a", .null)] })]

theorem exists_batch_of_pairRun {text : String} {machine : Machine}
    (hrun : (new {} lastInstant).run? (pairRun text) = some machine) :
    ∃ batch, machine.flushed[0]? = some batch ∧
      batch.calls = [⟨0, 0, "\x7b a \x7d", []⟩, ⟨1, 0, text, []⟩] := by
  obtain ⟨middle, hmiddle, hanswer⟩ := run?_concat.mp hrun
  obtain ⟨early, hearly, hstart⟩ := run?_concat.mp hmiddle
  obtain rfl : _ = early := Option.some.inj hearly
  obtain ⟨rest, hcalls⟩ := hstart.calls_prefix.trans hanswer.calls_prefix
  have hfirst : (machine.flushed.map FlushedBatch.calls)[0]? =
      some [⟨0, 0, "\x7b a \x7d", []⟩, ⟨1, 0, text, []⟩] := by
    rw [← hcalls]
    rfl
  rwa [List.getElem?_map, Option.map_eq_some_iff] at hfirst

/-- A call that cannot be read is replaced by another one. -/
theorem flush_pipeline_replaced :
    ∃ machine machine' error, (new {} lastInstant).run? (pairRun "\x7b") = some machine ∧
      (new {} lastInstant).run? (pairRun "?") = some machine' ∧
      (machine.requestsOf 0).length = 1 ∧ machine.resultsOf 1 = [.error (.ofSyntax error)] ∧
      machine'.requestsOf 0 = machine.requestsOf 0 ∧
      machine'.resultsOf 0 = machine.resultsOf 0 := by
  have hruns : ((new {} lastInstant).run? (pairRun "\x7b")).isSome = true ∧
      ((new {} lastInstant).run? (pairRun "?")).isSome = true := by decide +kernel
  obtain ⟨machine, hrun⟩ := Option.isSome_iff_exists.mp hruns.1
  obtain ⟨machine', hrun'⟩ := Option.isSome_iff_exists.mp hruns.2
  obtain ⟨batch, hbatch, hcalls⟩ := exists_batch_of_pairRun hrun
  obtain ⟨batch', hbatch', hcalls'⟩ := exists_batch_of_pairRun hrun'
  have hfirst : batch.calls[0]? = some ⟨0, 0, "\x7b a \x7d", []⟩ := by rw [hcalls]; rfl
  have hfirst' : batch'.calls[0]? = some ⟨0, 0, "\x7b a \x7d", []⟩ := by rw [hcalls']; rfl
  have hsecond : batch.calls[1]? = some ⟨1, 0, "\x7b", []⟩ := by rw [hcalls]; rfl
  obtain ⟨error, hparse⟩ : ∃ error, CallDocument.parse 1 "\x7b" = .error error :=
    Outcomes.exists_error_of_isOk (by decide +kernel)
  obtain ⟨error', hparse'⟩ : ∃ error, CallDocument.parse 1 "?" = .error error :=
    Outcomes.exists_error_of_isOk (by decide +kernel)
  obtain ⟨merged, hmerge⟩ : ∃ merged, MergedBatch.ofCalls (documents batch.calls) = .ok merged :=
    Outcomes.exists_of_isOk (by rw [hcalls]; decide +kernel)
  have hsame : SameReadable batch.calls batch'.calls := by
    rw [hcalls, hcalls']
    refine ⟨rfl, fun {place call call'} hcall hcall' => ?_⟩
    rcases place with _ | _ | place
    · exact .inl (congrArg SubmittedCall.asked (Option.some.inj (hcall.symm.trans hcall')))
    · obtain rfl := Option.some.inj hcall
      obtain rfl := Option.some.inj hcall'
      exact .inr ⟨⟨error, hparse⟩, error', hparse'⟩
    · simp at hcall
  obtain ⟨hpipeline, hother⟩ := flush_pipeline hrun hbatch
  obtain ⟨hrequests, hresults⟩ := hother hrun' hbatch' rfl hsame
  have hstart : .start 0 ∈ pairRun "\x7b" := by simp [pairRun]
  refine ⟨machine, machine', error, hrun, hrun', ?_, hpipeline.rejected hstart hsecond hparse,
    hrequests, hresults hfirst hfirst' rfl⟩
  rw [hpipeline.request hstart hmerge, List.length_singleton]

end Machine

end QueryBatching
