/-
What the flush of a batch comes to.

A flush reads the calls of its batch under their places in it.  `documents` are the calls that can
be read and `supplied` the values of their variables; the places of the others stay empty.  A
request is sent exactly if the documents merge, and it is then the request of that merge:
`sent?_eq_some_iff`.  Which results are delivered, and when, is read off the same two lists.

Every call is either accepted or rejected, and so is delivered a result or waits for one, but not
both: `perm_numbers`.
-/
import QueryBatching.Multiplexer.Flush
import QueryBatching.Proofs.Merge.CallDocument

namespace QueryBatching.FlushPlan

open scoped List

/-- The calls of a batch that can be read, each under its place in the batch. -/
def documents (calls : List SubmittedCall) : List CallDocument :=
  calls.zipIdx.filterMap fun (call, place) => (CallDocument.parse place call.query).toOption

/-- The values of the variables of the calls that can be read, under the same places. -/
def supplied (calls : List SubmittedCall) : List CallVariables :=
  calls.zipIdx.filterMap fun (call, place) =>
    (CallDocument.parse place call.query).toOption.map fun _ => ⟨place, call.values⟩

/-! ### Accepted and rejected calls -/

theorem map_document_accepted (calls : List SubmittedCall) :
    (accepted calls).map AcceptedCall.document = documents calls := by
  unfold accepted documents
  rw [List.map_filterMap]
  refine List.filterMap_congr fun ⟨call, place⟩ _ => ?_
  cases hparse : CallDocument.parse place call.query <;> simp [hparse, Except.toOption]

theorem map_supplied_accepted (calls : List SubmittedCall) :
    (accepted calls).map AcceptedCall.supplied = supplied calls := by
  unfold accepted supplied
  rw [List.map_filterMap]
  refine List.filterMap_congr fun ⟨call, place⟩ _ => ?_
  cases hparse : CallDocument.parse place call.query with
  | error error => simp [hparse, Except.toOption]
  | ok document =>
      simp [hparse, Except.toOption, AcceptedCall.supplied, CallDocument.index_of_parse hparse]

theorem mem_accepted {calls : List SubmittedCall} {place : Nat} {call : SubmittedCall}
    {document : CallDocument} (hcall : calls[place]? = some call)
    (hparse : CallDocument.parse place call.query = .ok document) :
    ⟨call.number, document, call.values⟩ ∈ accepted calls :=
  List.mem_filterMap.mpr ⟨(call, place), List.mem_zipIdx_iff_getElem?.mpr hcall, by simp [hparse]⟩

theorem mem_rejected {calls : List SubmittedCall} {place : Nat} {call : SubmittedCall}
    {error : SyntaxError} (hcall : calls[place]? = some call)
    (hparse : CallDocument.parse place call.query = .error error) :
    (call.number, .error (.ofSyntax error)) ∈ rejected calls :=
  List.mem_filterMap.mpr ⟨(call, place), List.mem_zipIdx_iff_getElem?.mpr hcall, by simp [hparse]⟩

/-- Items that each go to one of two lists are in the two together. -/
theorem perm_filterMap_append {α β γ : Type} {items : List α} {name : α → Nat}
    {left : α → Option β} {right : α → Option γ} {leftName : β → Nat} {rightName : γ → Nat}
    (hone : ∀ item ∈ items,
      (∃ b, left item = some b ∧ leftName b = name item ∧ right item = none) ∨
        ∃ c, left item = none ∧ right item = some c ∧ rightName c = name item) :
    items.map name ~
      (items.filterMap left).map leftName ++ (items.filterMap right).map rightName := by
  induction items with
  | nil => exact .nil
  | cons item rest ih =>
      have hrest := ih fun other hmem => hone other (List.mem_cons_of_mem _ hmem)
      rcases hone item List.mem_cons_self with ⟨b, hleft, hname, hright⟩ | ⟨c, hleft, hright, hname⟩
      · rw [List.filterMap_cons_some hleft, List.filterMap_cons_none hright, List.map_cons,
          List.map_cons, hname]
        exact hrest.cons (name item)
      · rw [List.filterMap_cons_none hleft, List.filterMap_cons_some hright, List.map_cons,
          List.map_cons, hname]
        exact (hrest.cons (name item)).trans List.perm_middle.symm

/-- **Every call of a batch is either rejected or accepted.** -/
theorem perm_numbers (calls : List SubmittedCall) :
    calls.map SubmittedCall.number ~
      (rejected calls).map Prod.fst ++ (accepted calls).map AcceptedCall.number := by
  have hcalls : calls.zipIdx.map (fun pair => pair.1.number) = calls.map SubmittedCall.number := by
    conv_rhs => rw [← List.zipIdx_map_fst 0 calls, List.map_map]
    rfl
  refine hcalls ▸ perm_filterMap_append fun ⟨call, place⟩ _ => ?_
  cases hparse : CallDocument.parse place call.query with
  | error error => exact .inl ⟨(call.number, .error (.ofSyntax error)), by simp [hparse]⟩
  | ok document => exact .inr ⟨⟨call.number, document, call.values⟩, by simp [hparse]⟩

/-! ### The plan of a flush -/

theorem ofCalls_of_error {calls : List SubmittedCall} {error : MergeError}
    (h : MergedBatch.ofCalls (documents calls) = .error error) :
    ofCalls calls =
      ⟨rejected calls ++ (accepted calls).map fun call => (call.number, .error (.merge error)),
        none⟩ := by
  rw [← map_document_accepted] at h
  unfold ofCalls
  split
  · rename_i hnone
    rw [hnone, List.map_nil, List.append_nil]
  · rename_i first rest hsome
    rw [hsome] at h
    rw [hsome]
    simp only [h]

theorem ofCalls_of_ok {calls : List SubmittedCall} {merged : MergedBatch}
    (h : MergedBatch.ofCalls (documents calls) = .ok merged) :
    ofCalls calls =
      ⟨rejected calls,
        some ⟨Request.ofBatch merged (supplied calls), merged.mapping, accepted calls⟩⟩ := by
  rw [← map_document_accepted] at h
  unfold ofCalls
  split
  · rename_i hnone
    rw [hnone, List.map_nil] at h
    exact absurd h (by simp [MergedBatch.ofCalls])
  · rename_i first rest hsome
    rw [← map_supplied_accepted, hsome]
    rw [hsome] at h
    simp only [h]

/-- **A request is sent exactly if the calls that can be read merge**, and it is theirs. -/
theorem sent?_eq_some_iff {calls : List SubmittedCall} {sent : SentBatch} :
    (ofCalls calls).sent? = some sent ↔
      ∃ merged, MergedBatch.ofCalls (documents calls) = .ok merged ∧
        sent = ⟨Request.ofBatch merged (supplied calls), merged.mapping, accepted calls⟩ := by
  cases hmerge : MergedBatch.ofCalls (documents calls) with
  | error error => simp [ofCalls_of_error hmerge]
  | ok merged => simp [ofCalls_of_ok hmerge, eq_comm]

theorem sent?_eq_none_iff {calls : List SubmittedCall} :
    (ofCalls calls).sent? = none ↔
      ∃ error, MergedBatch.ofCalls (documents calls) = .error error := by
  cases hmerge : MergedBatch.ofCalls (documents calls) with
  | error error => simp [ofCalls_of_error hmerge]
  | ok merged => simp [ofCalls_of_ok hmerge]

end QueryBatching.FlushPlan
