/-
Merging again.

Copies of a call without variables are prepared alike, with their fragments registered once, and
what they select is the same at every place.  So they merge to what one of them merges to alone.
A merged batch is read back as a call whose selections are settled, whose directives are distinct
and whose fragments have names of their own, and merging that call leaves all of it as it is.
-/
import QueryBatching.Proofs.Merge.OwnNames
import QueryBatching.Proofs.Merge.Settled
import QueryBatching.Proofs.Merge.Success

namespace QueryBatching

open Selection (Consistent Settled normalAll union)

/-! ### Copies of a call -/

namespace CallDocument

theorem Closed.copy {call : CallDocument} (h : call.Closed) (index : Nat) :
    (call.copy index).Closed :=
  ⟨h.names, h.operation, h.fragments⟩

/-- A source text is read alike under all numbers. -/
theorem parse_copy {index : Nat} {source : String} {call : CallDocument}
    (h : parse index source = .ok call) (other : Nat) :
    parse other source = .ok (call.copy other) := by
  unfold parse at h ⊢
  split at h
  · simp at h
  · rename_i document hdocument
    cases hcall : ofDocument index document with
    | error error => simp [hcall, Except.mapError] at h
    | ok found =>
        simp only [hcall, Except.mapError, Except.ok.injEq] at h
        subst h
        obtain ⟨-, hoperations, hfragments, hclosed⟩ := ofDocument_eq_ok.mp hcall
        have hother : ofDocument other document = .ok (found.copy other) :=
          ofDocument_eq_ok.mpr ⟨rfl, hoperations, hfragments, hclosed.copy other⟩
        simp only [hother, Except.mapError]

/-- The operation that copies of a call without variables merge to, under the given name. -/
def mergedOperation (call : CallDocument) (name? : Option String) : Operation :=
  { call.operation with
    name?,
    directives := MergedBatch.distinctDirectives call.operation.directives,
    selections := normalAll (union call.operation.selections),
    position := {} }

end CallDocument

/-- Copies of a query make copies of the call it makes. -/
theorem callsFrom_replicate {query : String} {call : CallDocument}
    (h : CallDocument.parse 0 query = .ok call) (index copies : Nat) :
    callsFrom index (List.replicate copies query) =
      .ok ((List.range' index copies).map call.copy) := by
  induction copies generalizing index with
  | zero => rfl
  | succ copies ih =>
      rw [List.replicate_succ, callsFrom, CallDocument.parse_copy h index]
      dsimp only
      rw [ih (index + 1), List.range'_succ, List.map_cons]
      rfl

namespace MergedBatch

section Copies

variable {call : CallDocument} (hvariables : call.variableNames = [])

include hvariables

/-- What can be merged alone asks for one thing under each key. -/
theorem Mergeable.consistent_selections (h : Mergeable [call]) :
    Consistent call.operation.selections := by
  intro path a b composite composite' ha hb hkey
  by_contra hne
  rw [← CallDocument.ownSelections_eq hvariables] at ha hb
  exact h.consistent call List.mem_cons_self b.responseKey
    ⟨path, a, b, composite, composite', hkey, rfl, hne, ha, hb⟩

/-- What can be merged alone can be merged with its copies. -/
theorem Mergeable.copies (h : Mergeable [call]) {indices : List Nat} (hne : indices ≠ []) :
    Mergeable (indices.map call.copy) := by
  have hown : ∀ index, (call.copy index).ownSelections = call.ownSelections := fun index =>
    (@CallDocument.ownSelections_eq (call.copy index) hvariables).trans
      (CallDocument.ownSelections_eq hvariables).symm
  refine ⟨by simpa using hne, ?_, ?_, ?_⟩
  · simp only [List.forall_mem_map]
    exact fun _ _ _ _ => rfl
  · simp only [List.forall_mem_map, CallDocument.Conflicts, hown]
    exact fun _ _ => h.consistent call List.mem_cons_self
  · simp only [List.forall_mem_map, CallDocument.ShapesDiffer, hown]
    exact fun _ _ _ _ => h.shapes call List.mem_cons_self call List.mem_cons_self

/-- **What copies of a call without variables merge to.** -/
theorem Assembled.of_copies (hclosed : call.Closed)
    (hconsistent : Consistent call.operation.selections) {indices : List Nat}
    (hne : indices ≠ []) {batch : MergedBatch} {registry : FragmentRegistry}
    {operations : List (Nat × Operation)} {merged : MergedSelections}
    (h : Assembled (indices.map call.copy) batch registry operations merged) :
    batch.operation.unplaced = call.mergedOperation
        (mergedName? (indices.map fun index => (index, call.operation))) ∧
      batch.fragments = call.fragments := by
  have hempty : FragmentRegistry.NewOrNamed {} call.fragments := .inl rfl
  obtain rfl : operations = indices.map fun index => (index, call.operation) := by
    rw [← operations_prepare_copies hvariables hclosed hempty, h.made]
  have hregistry : registry.fragments = Fragment.named call.fragments := by
    rw [← fragments_prepare_copies hvariables hclosed hempty hne, h.made]
  have hcontributed : contributedSelections (rootContributions
      (indices.map fun index => (index, call.operation))) =
        indices.flatMap fun _ => call.operation.selections := by
    rw [contributedSelections, rootContributions, List.map_map, List.flatMap_map]
    rfl
  constructor
  · show (⟨_, _, _, _, _, _⟩ : Operation) = ⟨_, _, _, _, _, _⟩
    rw [Operation.mk.injEq]
    refine ⟨?_, h.name, ?_, ?_, ?_, rfl⟩
    · obtain ⟨index, hindex⟩ := List.exists_mem_of_ne_nil _ hne
      exact (h.kind _ (List.mem_map_of_mem hindex)).symm
    · obtain ⟨hdeclarations, -, -⟩ := CallDocument.variableNames_eq_nil.mp hvariables
      rw [h.declarations, List.flatMap_map, hdeclarations]
      exact List.flatMap_eq_nil_iff.mpr fun _ _ => hdeclarations
    · rw [h.directives, List.flatMap_map]
      exact keepsFirsts_distinctDirectives.copies hne call.operation.directives
    · rw [h.selections, h.merges.selections_eq, hcontributed, Selection.union_copies hne]
      rw [hcontributed]
      intro path a b composite composite' ha hb hkey
      obtain ⟨_, -, ha⟩ := Selection.selects_flatMap.mp ha
      obtain ⟨_, -, hb⟩ := Selection.selects_flatMap.mp hb
      exact hconsistent path a b composite composite' ha hb hkey
  · rw [h.fragments, hregistry, Fragment.values_named]

/-- What can be merged alone is merged with any number of copies. -/
theorem Mergeable.exists_ofCalls_copies (h : Mergeable [call]) (hclosed : call.Closed)
    {indices : List Nat} (hne : indices ≠ []) (hnodup : indices.Nodup) :
    ∃ batch, ofCalls (indices.map call.copy) = .ok batch ∧
      batch.operation.unplaced = call.mergedOperation
        (mergedName? (indices.map fun index => (index, call.operation))) ∧
      batch.fragments = call.fragments := by
  have hindices : ((indices.map call.copy).map CallDocument.index).Nodup := by
    rw [List.map_map]
    exact (List.map_id indices).symm ▸ hnodup
  obtain ⟨batch, hbatch⟩ := Outcomes.exists_of_isOk
    ((isOk_iff_mergeable hindices).mpr (h.copies hvariables hne))
  obtain ⟨registry, operations, merged, hmade⟩ := exists_assembled hbatch
  exact ⟨batch, hbatch,
    hmade.of_copies hvariables hclosed (h.consistent_selections hvariables) hne⟩

end Copies

/-! ### Texts -/

/-- The merge without a name for its operation. -/
def unnamed (batch : MergedBatch) : MergedBatch :=
  { batch with operation := { batch.operation with name? := none } }

/-- Positions are not written. -/
theorem text_eq_of_unplaced {batch other : MergedBatch}
    (hoperation : batch.operation.unplaced = other.operation.unplaced)
    (hfragments : batch.fragments.map Fragment.unplaced =
      other.fragments.map Fragment.unplaced) : batch.text = other.text := by
  have hfirst : batch.operation.text = other.operation.text := by
    show batch.operation.unplaced.text = other.operation.unplaced.text
    rw [hoperation]
  have hrest : batch.fragments.map Fragment.text = other.fragments.map Fragment.text := by
    have hsame := congrArg (List.map Fragment.text) hfragments
    rw [List.map_map, List.map_map] at hsame
    exact hsame
  rw [text, text, hfirst, hrest]

section Alone

variable {call : CallDocument} {batch : MergedBatch}

/-- A call that is merged alone can be. -/
theorem mergeable_singleton (hmerge : ofCalls [call] = .ok batch) : Mergeable [call] := by
  have hindices : ([call].map CallDocument.index).Nodup := List.nodup_singleton call.index
  rw [← isOk_iff_mergeable hindices, hmerge]
  rfl

/-- **Two and more copies of a query** are merged to what one is, without a name. -/
theorem mergeQueries_replicate {query : String} (hparse : CallDocument.parse 0 query = .ok call)
    (hvariables : call.variableNames = []) (hmerge : ofCalls [call] = .ok batch) (copies : Nat) :
    mergeQueries (List.replicate (copies + 2) query) = .ok batch.unnamed.text := by
  obtain ⟨hclosed, -⟩ := CallDocument.closed_and_legal_of_parse hparse
  have hindex := CallDocument.index_of_parse hparse
  have hmergeable := mergeable_singleton hmerge
  obtain ⟨alone, halone, hoperation, hfragments⟩ :=
    hmergeable.exists_ofCalls_copies hvariables hclosed (List.cons_ne_nil 0 [])
      (List.nodup_singleton 0)
  obtain ⟨all, hall, hoperation', hfragments'⟩ :=
    @Mergeable.exists_ofCalls_copies call hvariables hmergeable hclosed
      (List.range' 0 (copies + 2)) (by simp) List.nodup_range'
  obtain rfl : batch = alone := by
    have hcopy : [0].map call.copy = [call] := by
      rw [← hindex]
      rfl
    rw [hcopy, hmerge] at halone
    exact Except.ok.inj halone
  refine mergeQueries_eq_ok.mpr ⟨_, all, callsFrom_replicate hparse 0 (copies + 2), hall, ?_⟩
  refine text_eq_of_unplaced ?_ (by rw [hfragments', unnamed, hfragments])
  have hunnamed : batch.unnamed.operation.unplaced = call.mergedOperation none :=
    congrArg (fun operation => { operation with name? := none }) hoperation
  rw [hoperation', hunnamed]
  rfl

/-- Nothing in settled selections clashes. -/
theorem mergeable_of_settled (hvariables : call.variableNames = [])
    (h : Settled call.operation.selections) : Mergeable [call] := by
  refine ⟨List.cons_ne_nil _ _, ?_, ?_, ?_⟩
  · simp only [List.forall_mem_singleton]
  · simp only [List.forall_mem_singleton, CallDocument.Conflicts,
      CallDocument.ownSelections_eq hvariables]
    rintro key ⟨path, a, b, composite, composite', rfl, hkey, hne, ha, hb⟩
    exact hne (h.consistent path a b composite composite' ha hb hkey.symm)
  · simp only [List.forall_mem_singleton, CallDocument.ShapesDiffer,
      CallDocument.ownSelections_eq hvariables]
    rintro key ⟨path, signature, -, ha, hb⟩
    exact absurd (h.composite_eq ha hb) (by decide)

/-- **A call that is settled is merged to itself.** -/
theorem ofCalls_of_settled (hvariables : call.variableNames = []) (hclosed : call.Closed)
    (hsettled : Settled call.operation.selections)
    (hdirectives : (call.operation.directives.map Directive.text).Nodup) :
    ∃ batch, ofCalls [call] = .ok batch ∧
      batch.operation.unplaced = call.operation.unplaced ∧ batch.fragments = call.fragments := by
  obtain ⟨batch, hbatch, hoperation, hfragments⟩ :=
    (mergeable_of_settled hvariables hsettled).exists_ofCalls_copies hvariables hclosed
      (List.cons_ne_nil call.index []) (List.nodup_singleton call.index)
  refine ⟨batch, hbatch, ?_, hfragments⟩
  rw [hoperation, CallDocument.mergedOperation, hsettled.union_eq_self,
    hsettled.normalAll_eq_self, keepsFirsts_distinctDirectives.eq_self_of_nodup hdirectives]
  rfl

/-- **What calls without variables are merged to is merged to itself.** -/
theorem MadeOf.mergeQueries_text {calls : List CallDocument} {registry : FragmentRegistry}
    {operations : List (Nat × Operation)} {merged : MergedSelections}
    (h : MadeOf calls batch registry operations merged)
    (hvariables : ∀ call ∈ calls, call.variableNames = []) :
    mergeQueries [batch.text] = .ok batch.text := by
  obtain ⟨call, hparse, hoperation, hfragments⟩ := h.parse_text 0
  obtain ⟨hclosed, -⟩ := CallDocument.closed_and_legal_of_parse hparse
  have hselections : call.operation.selections = merged.selections :=
    (congrArg Operation.selections hoperation).trans h.selections
  have hdirectives : call.operation.directives = batch.operation.directives := by
    show call.operation.unplaced.directives = batch.operation.unplaced.directives
    rw [hoperation]
  have hnames : call.variableNames = [] := by
    obtain ⟨hdeclarations, hreferences, hnone⟩ :=
      CallDocument.variableNames_eq_nil.mp (h.variableNames_eq_nil hvariables 0)
    refine CallDocument.variableNames_eq_nil.mpr
      ⟨(congrArg Operation.declarations hoperation).trans hdeclarations,
        (congrArg Operation.references hoperation).trans hreferences, fun fragment hmem => ?_⟩
    have hunplaced : fragment.unplaced ∈ batch.fragments.map Fragment.unplaced :=
      hfragments ▸ List.mem_map_of_mem hmem
    obtain ⟨same, hsame, heq⟩ := List.mem_map.mp hunplaced
    exact (congrArg Fragment.references heq).symm.trans (hnone same hsame)
  obtain ⟨again, hagain, hoperation', hfragments'⟩ := ofCalls_of_settled hnames hclosed
    (hselections ▸ h.merges.settled)
    (by rw [hdirectives, h.directives]; exact keepsFirsts_distinctDirectives.nodup_map_key _)
  refine mergeQueries_eq_ok.mpr ⟨[call], again, ?_, hagain, ?_⟩
  · exact callsFrom_replicate hparse 0 1 |>.trans (by
      rw [← CallDocument.index_of_parse hparse]
      rfl)
  · exact text_eq_of_unplaced (hoperation'.trans hoperation) (hfragments' ▸ hfragments)

end Alone

/-! ### Queries -/

/-- The query makes a call that declares no variable and refers to none. -/
def IsVariableFree (query : String) : Prop :=
  (CallDocument.parse 0 query).map CallDocument.variableNames = .ok []

instance (query : String) : Decidable (IsVariableFree query) :=
  inferInstanceAs (Decidable (_ = _))

theorem IsVariableFree.variableNames {query : String} (h : IsVariableFree query) {index : Nat}
    {call : CallDocument} (hparse : CallDocument.parse index query = .ok call) :
    call.variableNames = [] := by
  unfold IsVariableFree at h
  rw [CallDocument.parse_copy hparse 0] at h
  exact Except.ok.inj h

/--
**Merging queries without variables is idempotent.**  If one is merged alone, then any number of
copies of it is merged too, to the same text except that the merge of two and more has no
operation name; and what a batch of them is merged to is merged to itself.
-/
theorem mergeQueries_idempotent :
    (∀ query, IsVariableFree query → ∀ text, mergeQueries [query] = .ok text →
      ∃ calls batch, callsFrom 0 [query] = .ok calls ∧ ofCalls calls = .ok batch ∧
        batch.text = text ∧ ∀ copies, 1 ≤ copies → mergeQueries (List.replicate copies query) =
          .ok (if copies = 1 then text else batch.unnamed.text)) ∧
    ∀ queries, (∀ query ∈ queries, IsVariableFree query) → ∀ merged,
      mergeQueries queries = .ok merged → mergeQueries [merged] = .ok merged := by
  constructor
  · intro query hfree text htext
    obtain ⟨calls, batch, hcalls, hbatch, hbatchText⟩ := mergeQueries_eq_ok.mp htext
    refine ⟨calls, batch, hcalls, hbatch, hbatchText, fun copies hcopies => ?_⟩
    match copies with
    | 1 => exact htext
    | copies + 2 =>
        rw [callsFrom] at hcalls
        split at hcalls
        · simp at hcalls
        · rename_i call hparse
          obtain rfl : calls = [call] := (Except.ok.inj hcalls).symm
          exact mergeQueries_replicate hparse (hfree.variableNames hparse) hbatch copies
  · intro queries hfree merged hmerged
    obtain ⟨calls, batch, hcalls, hbatch, rfl⟩ := mergeQueries_eq_ok.mp hmerged
    obtain ⟨registry, operations, selections, hmade⟩ :=
      exists_madeOf (isParsed_of_callsFrom hcalls) hbatch
    refine hmade.mergeQueries_text fun call hmem => ?_
    obtain ⟨query, hquery, hparse⟩ := exists_query_of_callsFrom hcalls hmem
    exact (hfree query hquery).variableNames hparse

/-- Three copies of a query that says some things twice, and the merge of two queries that mean
different things by one key and by one fragment. -/
theorem mergeQueries_idempotent_renamed :
    (∃ batch : MergedBatch,
      batch.text = "query N \x7b a b \x7b ...F c \x7d \x7d fragment F on T \x7b d: d \x7d" ∧
      mergeQueries (List.replicate 3
      "query N \x7b a: a b \x7b ...F \x7d b \x7b ...F c \x7d \x7d fragment F on T \x7b d: d \x7d") =
          .ok batch.unnamed.text) ∧
    ∃ merged, mergeQueries
        ["\x7b k: a ...F \x7d fragment F on T \x7b b \x7d",
          "\x7b k: c ...F \x7d fragment F on T \x7b d \x7d"] = .ok merged ∧
      mergeQueries [merged] = .ok merged := by
  obtain ⟨hcopies, hagain⟩ := mergeQueries_idempotent
  constructor
  · obtain ⟨_, batch, -, -, htext, hall⟩ := hcopies
      "query N \x7b a: a b \x7b ...F \x7d b \x7b ...F c \x7d \x7d fragment F on T \x7b d: d \x7d"
      (by decide +kernel)
      "query N \x7b a b \x7b ...F c \x7d \x7d fragment F on T \x7b d: d \x7d"
      (by decide +kernel)
    exact ⟨batch, htext, hall 3 (by decide)⟩
  · have hmerged : (mergeQueries
        ["\x7b k: a ...F \x7d fragment F on T \x7b b \x7d",
          "\x7b k: c ...F \x7d fragment F on T \x7b d \x7d"]).isOk = true := by
      decide +kernel
    obtain ⟨merged, hok⟩ := Outcomes.exists_of_isOk hmerged
    exact ⟨merged, hok, hagain _ (by decide +kernel) merged hok⟩

end MergedBatch

end QueryBatching
