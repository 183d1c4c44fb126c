/-
Every call is answered once.

A call that has been submitted has a result, or somebody owes it one: the queue and the collector
for the calls they hold, and the flush of a batch for those it has not resolved yet.  `owed` lists
the calls of the second kind.  Each step moves calls from one debtor to the next, or pays them, so
the results delivered and the debts together are the calls submitted, each of them once: that is
`Accounts`, and it is all that is needed to see that no call is answered twice, and that none goes
without an answer when nobody owes anything.

A result that says that the batch was dropped comes only from a flush that is aborted, and it goes
to the calls that this flush still owed a result; or from a collector that stops, and then it goes
to the calls that are lost by it.
-/
import QueryBatching.Proofs.Multiplexer.Collection
import QueryBatching.Proofs.Multiplexer.Flush

namespace QueryBatching

open scoped List

/-! ### What a flush owes -/

/-- The calls of a batch that have no result yet, by their numbers. -/
def FlushStage.owed (calls : List SubmittedCall) : FlushStage → List Nat
  | .ready => calls.map SubmittedCall.number
  | .waiting sent => sent.calls.map AcceptedCall.number
  | .over => []

/-- The calls of a batch that have no result yet, by their numbers. -/
def FlushedBatch.owed (batch : FlushedBatch) : List Nat := batch.stage.owed batch.calls

theorem FlushPlan.perm_resolved {calls : List SubmittedCall}
    (hplan : (FlushPlan.ofCalls calls).sent? = none) :
    calls.map SubmittedCall.number ~ (FlushPlan.ofCalls calls).resolved.map Prod.fst := by
  obtain ⟨error, hmerge⟩ := sent?_eq_none_iff.mp hplan
  rw [ofCalls_of_error hmerge, List.map_append, List.map_map]
  exact perm_numbers calls

theorem FlushPlan.perm_resolved_sent {calls : List SubmittedCall} {sent : SentBatch}
    (hplan : (FlushPlan.ofCalls calls).sent? = some sent) :
    calls.map SubmittedCall.number ~ (FlushPlan.ofCalls calls).resolved.map Prod.fst ++
      sent.calls.map AcceptedCall.number := by
  obtain ⟨merged, hmerge, rfl⟩ := sent?_eq_some_iff.mp hplan
  rw [ofCalls_of_ok hmerge]
  exact perm_numbers calls

theorem SentBatch.map_fst_resolve (sent : SentBatch) (answer : Except String TransportResponse) :
    (sent.resolve answer).map Prod.fst = sent.calls.map AcceptedCall.number := by
  rw [resolve, List.map_map]
  rfl

theorem Machine.map_fst_droppedResults (numbers : List Nat) :
    (droppedResults numbers).map Prod.fst = numbers := by
  rw [droppedResults, List.map_map]
  exact List.map_id numbers

namespace FlushStage.Moves

variable {calls : List SubmittedCall} {stage stage' : FlushStage} {event : FlushEvent}
  {delivered : List (Nat × CallResult)} {requests : List Request}

/-- **A flush pays what it owes, and no more**: what it owed is what it delivers and still owes. -/
theorem perm_owed (h : Moves calls stage event stage' delivered requests) :
    stage.owed calls ~ delivered.map Prod.fst ++ stage'.owed calls := by
  cases h with
  | settle hplan => simpa only [owed, List.append_nil] using FlushPlan.perm_resolved hplan
  | send hplan => exact FlushPlan.perm_resolved_sent hplan
  | answer sent answer =>
      simp only [owed, SentBatch.map_fst_resolve, List.append_nil, List.Perm.refl]
  | abortReady => simp only [owed, Machine.map_fst_droppedResults, List.append_nil, List.Perm.refl]
  | abortWaiting sent =>
      simp only [owed, Machine.map_fst_droppedResults, List.append_nil, List.Perm.refl]

theorem owed_subset (h : Moves calls stage event stage' delivered requests) :
    stage'.owed calls ⊆ stage.owed calls :=
  fun _ hmem => h.perm_owed.mem_iff.mpr (List.mem_append_right _ hmem)

end FlushStage.Moves

namespace Machine

/-! ### The accounts of a machine -/

/-- The results that the call with a number was delivered. -/
def resultsOf (machine : Machine) (number : Nat) : List CallResult :=
  (machine.results.filter (·.1 == number)).map Prod.snd

theorem mem_resultsOf {machine : Machine} {number : Nat} {result : CallResult} :
    result ∈ machine.resultsOf number ↔ (number, result) ∈ machine.results := by
  simp [resultsOf]

/-- The calls that have no result yet, by their numbers. -/
def owed (machine : Machine) : List Nat :=
  machine.flushed.flatMap FlushedBatch.owed ++
    (machine.collected ++ machine.queue).map SubmittedCall.number

/-- Every call has been answered or will be, and not both; and a batch owes only its own calls. -/
structure Accounts (machine : Machine) : Prop where
  balance : machine.submitted.map SubmittedCall.number ~
    machine.results.map Prod.fst ++ machine.owed
  own : ∀ batch ∈ machine.flushed, batch.owed ⊆ batch.calls.map SubmittedCall.number

/-- A flush that goes on takes what it delivers from what is owed. -/
theorem perm_owed_advance {machine : Machine} {number : Nat} {batch : FlushedBatch}
    {event : FlushEvent} {stage : FlushStage} {delivered : List (Nat × CallResult)}
    {requests : List Request} (hbatch : machine.flushed[number]? = some batch)
    (hmoves : batch.stage.Moves batch.calls event stage delivered requests) :
    machine.owed ~
      delivered.map Prod.fst ++ (machine.advance number stage delivered requests).owed := by
  obtain ⟨front, back, -, hsplit, hnext⟩ :=
    exists_flushed_advance hbatch stage delivered requests
  unfold owed
  rw [hsplit, hnext, ← List.append_assoc]
  refine List.Perm.append_right _ ?_
  simp only [List.flatMap_append, List.flatMap_cons]
  calc front.flatMap FlushedBatch.owed ++ (batch.owed ++ back.flatMap FlushedBatch.owed)
      ~ front.flatMap FlushedBatch.owed ++ ((delivered.map Prod.fst ++
          stage.owed batch.calls) ++ back.flatMap FlushedBatch.owed) :=
        (hmoves.perm_owed.append_right _).append_left _
    _ ~ _ := by
        rw [List.append_assoc]
        exact List.perm_append_comm_assoc ..

theorem accounts_new (config : BatchConfig) (last : Nat) : (new config last).Accounts :=
  ⟨.nil, fun _ hmem => absurd hmem List.not_mem_nil⟩

/-- A flush that goes on keeps the accounts in balance. -/
theorem Accounts.advance {machine : Machine} {number : Nat} {batch : FlushedBatch}
    {event : FlushEvent} {stage : FlushStage} {delivered : List (Nat × CallResult)}
    {requests : List Request} (h : machine.Accounts)
    (hbatch : machine.flushed[number]? = some batch)
    (hmoves : batch.stage.Moves batch.calls event stage delivered requests) :
    (machine.advance number stage delivered requests).Accounts := by
  refine ⟨?_, fun flushed hmem => ?_⟩
  · show _ ~ (machine.results ++ delivered).map Prod.fst ++ _
    rw [List.map_append, List.append_assoc]
    exact h.balance.trans ((perm_owed_advance hbatch hmoves).append_left _)
  · obtain ⟨front, back, -, hsplit, hnext⟩ :=
      exists_flushed_advance hbatch stage delivered requests
    rw [hnext, List.mem_append, List.mem_cons] at hmem
    rcases hmem with hmem | rfl | hmem
    · exact h.own flushed (by simp [hsplit, hmem])
    · exact List.Subset.trans hmoves.owed_subset (h.own batch (by simp [hsplit]))
    · exact h.own flushed (by simp [hsplit, hmem])

/-- **Each step keeps the accounts in balance.** -/
theorem Accounts.step {machine next : Machine} {event : MachineEvent} (h : machine.Accounts)
    (hsteps : Steps machine event next) : next.Accounts := by
  obtain ⟨balance, own⟩ := h
  cases hsteps with
  | submit query values hopen hlost =>
      refine ⟨?_, own⟩
      show _ ~ machine.results.map Prod.fst ++ (machine.flushed.flatMap FlushedBatch.owed ++
        (machine.collected ++ (machine.queue ++ [machine.nextCall query values])).map _)
      rw [← List.append_assoc machine.collected, List.map_append, List.map_append,
        ← List.append_assoc, ← List.append_assoc]
      exact (balance.append_right _).trans (by rw [owed, ← List.append_assoc])
  | refuse query values hopen hlost =>
      refine ⟨?_, own⟩
      show (machine.submitted ++ [machine.nextCall query values]).map SubmittedCall.number ~
        (machine.results ++ droppedResults [(machine.nextCall query values).number]).map Prod.fst ++
          machine.owed
      rw [List.map_append, List.map_append, map_fst_droppedResults, List.map_singleton]
      refine (balance.append_right _).trans ?_
      rw [List.append_assoc, List.append_assoc]
      exact List.perm_append_comm.append_left _
  | openBatch hqueue hcollecting hends =>
      refine ⟨?_, own⟩
      simpa [owed, collected, hqueue, hcollecting] using balance
  | @stop call queue hqueue hcollecting hends =>
      refine ⟨?_, own⟩
      have hbefore : machine.owed = machine.flushed.flatMap FlushedBatch.owed ++
          (call :: queue).map SubmittedCall.number := by
        simp [owed, collected, hcollecting, hqueue]
      have hafter : (machine.stop (call :: queue)).owed =
          machine.flushed.flatMap FlushedBatch.owed := by
        simp [owed, collected, Machine.stop, deliver, hcollecting]
      show _ ~ (machine.results ++ droppedResults ((call :: queue).map _)).map Prod.fst ++ _
      rw [hafter, List.map_append, map_fst_droppedResults, List.append_assoc]
      rw [hbefore] at balance
      exact balance.trans (List.perm_append_comm.append_left _)
  | join hqueue hcollecting hroom =>
      refine ⟨?_, own⟩
      simpa [owed, collected, hqueue, hcollecting] using balance
  | @handOver batch hcollecting hdue =>
      refine ⟨?_, fun flushed hmem => ?_⟩
      · simpa [owed, collected, hcollecting, FlushedBatch.owed, FlushStage.owed] using balance
      · rcases List.mem_append.mp hmem with hmem | hmem
        · exact own flushed hmem
        · rw [List.mem_singleton.mp hmem]
          exact List.Subset.refl _
  | flush hbatch hmoves => exact Accounts.advance ⟨balance, own⟩ hbatch hmoves
  | _ => exact ⟨balance, own⟩

theorem accounts_of_run {config : BatchConfig} {last : Nat} {events : List MachineEvent}
    {machine : Machine} (hrun : (new config last).run? events = some machine) : machine.Accounts :=
  run_induction (motive := fun _ machine => machine.Accounts) (accounts_new config last)
    (fun _ h hsteps => h.step hsteps) hrun

/-! ### One result a call -/

section

variable {config : BatchConfig} {last : Nat} {events : List MachineEvent} {machine : Machine}

/-- No two calls are submitted under one number. -/
theorem nodup_numbers_of_run (hrun : (new config last).run? events = some machine) :
    (machine.submitted.map SubmittedCall.number).Nodup :=
  (records_of_run hrun).numbers ▸ List.nodup_range

/-- **No call has two results, and none that has one is still owed one.** -/
theorem nodup_results_of_run (hrun : (new config last).run? events = some machine) :
    (machine.results.map Prod.fst ++ machine.owed).Nodup :=
  (accounts_of_run hrun).balance.nodup_iff.mp (nodup_numbers_of_run hrun)

theorem length_resultsOf_le (hrun : (new config last).run? events = some machine) (number : Nat) :
    (machine.resultsOf number).length ≤ 1 := by
  have hnodup := (List.nodup_append.mp (nodup_results_of_run hrun)).1
  have hcount := List.nodup_iff_count_le_one.mp hnodup number
  rw [resultsOf, List.length_map, ← List.countP_eq_length_filter]
  rwa [List.count, List.countP_map] at hcount

/-- What a call was delivered is all it was delivered. -/
theorem resultsOf_eq (hrun : (new config last).run? events = some machine) {number : Nat}
    {result : CallResult} (hmem : (number, result) ∈ machine.results) :
    machine.resultsOf number = [result] := by
  have hresult := mem_resultsOf.mpr hmem
  obtain ⟨only, honly⟩ := List.length_eq_one_iff.mp
    (Nat.le_antisymm (length_resultsOf_le hrun number) (List.length_pos_of_mem hresult))
  rw [honly, List.mem_singleton] at hresult
  rw [honly, hresult]

/-- A call that is owed a result has none yet. -/
theorem resultsOf_eq_nil (hrun : (new config last).run? events = some machine) {number : Nat}
    (howed : number ∈ machine.owed) : machine.resultsOf number = [] := by
  refine List.eq_nil_iff_forall_not_mem.mpr fun result hresult => ?_
  have hdisjoint := (List.nodup_append.mp (nodup_results_of_run hrun)).2.2
  exact hdisjoint number (List.mem_map_of_mem (mem_resultsOf.mp hresult)) number howed rfl

end

/-! ### When all is done -/

/-- No handle is left, the collector is done, and so is the flush of each batch. -/
structure Finished (machine : Machine) : Prop where
  closed : machine.handles = 0
  received : machine.step? .receive = none
  handedOver : machine.step? .flush = none
  resolved : ∀ batch ∈ machine.flushed, batch.stage = .over

instance decidableOver : (stage : FlushStage) → Decidable (stage = .over)
  | .ready => isFalse nofun
  | .waiting _ => isFalse nofun
  | .over => isTrue rfl

theorem finished_iff {machine : Machine} :
    machine.Finished ↔ machine.handles = 0 ∧ (machine.step? .receive).isNone ∧
      (machine.step? .flush).isNone ∧ ∀ batch ∈ machine.flushed, batch.stage = .over := by
  simp only [Option.isNone_iff_eq_none]
  exact ⟨fun h => ⟨h.closed, h.received, h.handedOver, h.resolved⟩,
    fun ⟨closed, received, handedOver, resolved⟩ => ⟨closed, received, handedOver, resolved⟩⟩

instance (machine : Machine) : Decidable machine.Finished := decidable_of_iff' _ finished_iff

/-- Batches that were handed over keep their places and their calls. -/
theorem Steps.calls_prefix {machine next : Machine} {event : MachineEvent}
    (hsteps : Steps machine event next) :
    machine.flushed.map FlushedBatch.calls <+: next.flushed.map FlushedBatch.calls := by
  cases hsteps with
  | handOver hcollecting hdue => exact List.map_append ▸ List.prefix_append ..
  | flush hbatch hmoves => exact map_calls_advance .. ▸ List.prefix_rfl
  | _ => exact List.prefix_rfl

/-- Results that were delivered stay. -/
theorem Steps.results_subset {machine next : Machine} {event : MachineEvent}
    (hsteps : Steps machine event next) : machine.results ⊆ next.results := by
  cases hsteps with
  | refuse query values hopen hlost => exact List.subset_append_left ..
  | stop hqueue hcollecting hends => exact List.subset_append_left ..
  | flush hbatch hmoves => exact List.subset_append_left ..
  | _ => exact List.Subset.refl _

/-- A call was dropped by the flush of its batch, which was aborted before the call had a result. -/
def DroppedBy (config : BatchConfig) (last : Nat) (events : List MachineEvent) (machine : Machine)
    (number : Nat) : Prop :=
  ∃ (place : Nat) (calls : List SubmittedCall) (before after : List MachineEvent)
    (earlier : Machine),
    (machine.flushed.map FlushedBatch.calls)[place]? = some calls ∧
      number ∈ calls.map SubmittedCall.number ∧ events = before ++ .abort place :: after ∧
      (new config last).run? before = some earlier ∧ earlier.resultsOf number = []

section Dropped

variable {config : BatchConfig} {last : Nat} {events : List MachineEvent} {machine next : Machine}
  {event : MachineEvent} {number : Nat}

theorem DroppedBy.step (h : DroppedBy config last events machine number)
    (hsteps : Steps machine event next) :
    DroppedBy config last (events ++ [event]) next number := by
  obtain ⟨place, calls, before, after, earlier, hcalls, hnumber, hevents, hearlier, hnone⟩ := h
  refine ⟨place, calls, before, after ++ [event], earlier, ?_, hnumber, ?_, hearlier, hnone⟩
  · obtain ⟨later, hlater⟩ := hsteps.calls_prefix
    rw [← hlater]
    rwa [List.getElem?_append_left (List.getElem?_eq_some_iff.mp hcalls).1]
  · rw [hevents, List.append_assoc, List.cons_append]

end Dropped

end Machine

end QueryBatching
