/-
What the merge of a batch is made of.

The calls are prepared one after another, each against what the registry holds by then, and the
registry only grows: what a call was given stays what it is when later calls are registered.
So for each call there is a registry it was registered in, and the final one extends it.  After
that the merge is the merge of the prepared selection sets, all at the root.
-/
import QueryBatching.Merge.Batch
import QueryBatching.Proofs.Merge.CallDocument
import QueryBatching.Proofs.Merge.Merged
import QueryBatching.Proofs.Merge.Registry

namespace QueryBatching

open Grammar (nestingLimit)

/-! ### Prepared calls -/

namespace CallDocument

theorem map_name_ownFragments (call : CallDocument) :
    call.ownFragments.map Fragment.name = call.fragments.map Fragment.name := by
  unfold ownFragments
  rw [List.map_map]
  rfl

theorem legal_ownFragments {call : CallDocument} (h : call.IsParsed) :
    ∀ fragment ∈ call.ownFragments, fragment.Legal nestingLimit := by
  intro fragment hmem
  obtain ⟨original, horiginal, rfl⟩ := List.mem_map.mp hmem
  exact (h.legal.fragments original horiginal).mapVariables
    fun _ hname => isName_variableName call.index hname

theorem closed_ownFragments {call : CallDocument} (h : call.Closed) :
    ∀ fragment ∈ call.ownFragments, ∀ name ∈ Selection.spreadsOfAll fragment.selections,
      name ∈ call.ownFragments.map Fragment.name := by
  intro fragment hmem name hname
  obtain ⟨original, horiginal, rfl⟩ := List.mem_map.mp hmem
  rw [map_name_ownFragments]
  refine h.fragments original horiginal name ?_
  rw [← Selection.spreadsOfAll_mapVariablesAll (variableName call.index)]
  exact hname

end CallDocument

/-- The names a call's fragments are given by a registry. -/
def FragmentRegistry.renamesOf (registry : FragmentRegistry) (call : CallDocument) :
    FragmentRenames :=
  registry.renamesFor call.index call.ownFragments

/-- What a registry holds after a call's fragments have been registered. -/
def FragmentRegistry.after (registry : FragmentRegistry) (call : CallDocument) :
    FragmentRegistry :=
  (registry.register call.index call.ownFragments).1

namespace MergedBatch

/-- What preparing a batch makes of one of its calls, where `final` is the registry at the end. -/
structure Prepared (final : FragmentRegistry) (call : CallDocument) (prepared : Nat × Operation) :
    Prop where
  parsed : call.IsParsed
  exists_before : ∃ before : FragmentRegistry, before.Valid nestingLimit ∧
    prepared = (call.index, call.ownOperation (before.renamesOf call)) ∧
    (before.after call).fragments <+: final.fragments

/-- Whatever is registered stays where it is. -/
theorem fragments_prepare (registry : FragmentRegistry) (calls : List CallDocument) :
    registry.fragments <+: (prepare registry calls).1.fragments := by
  induction calls generalizing registry with
  | nil => exact List.prefix_rfl
  | cons call rest ih =>
      obtain ⟨⟨added, hadded, -⟩, -, -⟩ := FragmentRegistry.extends_emit
        (registry.renamesOf call) registry call.ownFragments
      exact List.IsPrefix.trans ⟨added, hadded.symm⟩ (ih (registry.after call))

/-- The prepared operations are those of the calls, one after another. -/
theorem forall₂_prepare (registry : FragmentRegistry) (calls : List CallDocument) :
    List.Forall₂ (fun call prepared => ∃ renames,
      prepared = (call.index, call.ownOperation renames)) calls (prepare registry calls).2 := by
  induction calls generalizing registry with
  | nil => exact .nil
  | cons call rest ih => exact .cons ⟨registry.renamesOf call, rfl⟩ (ih (registry.after call))

/-- **Preparing a batch** keeps its registry closed. -/
theorem prepared_prepare {calls : List CallDocument} (hcalls : ∀ call ∈ calls, call.IsParsed)
    {registry : FragmentRegistry} (hvalid : registry.Valid nestingLimit) :
    (prepare registry calls).1.Valid nestingLimit ∧
      List.Forall₂ (Prepared (prepare registry calls).1) calls (prepare registry calls).2 := by
  induction calls generalizing registry with
  | nil => exact ⟨hvalid, .nil⟩
  | cons call rest ih =>
      rw [List.forall_mem_cons] at hcalls
      obtain ⟨hcall, hrest⟩ := hcalls
      have hafter : (registry.after call).Valid nestingLimit :=
        hvalid.register (CallDocument.legal_ownFragments hcall)
          (CallDocument.closed_ownFragments hcall.closed)
      obtain ⟨hfinal, hall⟩ := ih hrest hafter
      exact ⟨hfinal, .cons ⟨hcall, registry, hvalid, rfl, fragments_prepare _ rest⟩ hall⟩

theorem prepare_cons (registry : FragmentRegistry) (call : CallDocument)
    (rest : List CallDocument) : prepare registry (call :: rest) =
      ((prepare (registry.after call) rest).1,
        (call.index, call.ownOperation (registry.renamesOf call)) ::
          (prepare (registry.after call) rest).2) := rfl

theorem prepare_append (registry : FragmentRegistry) (front rest : List CallDocument) :
    prepare registry (front ++ rest) =
      ((prepare (prepare registry front).1 rest).1,
        (prepare registry front).2 ++ (prepare (prepare registry front).1 rest).2) := by
  induction front generalizing registry with
  | nil => rfl
  | cons call front ih =>
      rw [List.cons_append, prepare_cons, prepare_cons, ih]
      rfl

/-! ### The merge of a batch -/

/-- The selection sets that prepared operations contribute at the root. -/
def rootContributions (operations : List (Nat × Operation)) : List Contribution :=
  operations.map fun (call, operation) => ⟨call, FieldPath.root, operation.selections⟩

/-- Whatever is contributed at the root is the selection set of a prepared operation. -/
theorem mem_rootContributions {operations : List (Nat × Operation)} {contribution : Contribution}
    (h : contribution ∈ rootContributions operations) :
    ∃ prepared ∈ operations,
      contribution = ⟨prepared.1, FieldPath.root, prepared.2.selections⟩ := by
  obtain ⟨prepared, hprepared, rfl⟩ := List.mem_map.mp h
  exact ⟨prepared, hprepared, rfl⟩

theorem path_of_mem_rootContributions {operations : List (Nat × Operation)}
    {contribution : Contribution} (h : contribution ∈ rootContributions operations) :
    contribution.path = FieldPath.root := by
  obtain ⟨prepared, -, rfl⟩ := mem_rootContributions h
  rfl

/-- What is contributed at the root is contributed by the calls. -/
theorem exists_call_of_rootContributions {registry : FragmentRegistry} {calls : List CallDocument}
    {contribution : Contribution}
    (h : contribution ∈ rootContributions (prepare registry calls).2) :
    ∃ call ∈ calls, call.index = contribution.call := by
  obtain ⟨prepared, hprepared, rfl⟩ := mem_rootContributions h
  obtain ⟨call, hmem, renames, rfl⟩ :=
    Outcomes.exists_left (forall₂_prepare registry calls) hprepared
  exact ⟨call, hmem, rfl⟩

/-- The number of levels that prepared operations have at most. -/
def depthOf (operations : List (Nat × Operation)) : Nat :=
  operations.foldl (fun depth (_, operation) =>
    max depth (Selection.depthOfAll operation.selections)) 0

theorem withinDepth_rootContributions (operations : List (Nat × Operation)) :
    WithinDepth (depthOf operations) (rootContributions operations) := by
  have hle : ∀ (operations : List (Nat × Operation)) (start : Nat),
      start ≤ operations.foldl (fun depth (_, operation) =>
        max depth (Selection.depthOfAll operation.selections)) start ∧
      ∀ prepared ∈ operations, Selection.depthOfAll prepared.2.selections ≤
        operations.foldl (fun depth (_, operation) =>
          max depth (Selection.depthOfAll operation.selections)) start := by
    intro operations
    induction operations with
    | nil => exact fun start => ⟨le_rfl, fun _ h => absurd h List.not_mem_nil⟩
    | cons prepared rest ih =>
        intro start
        rw [List.foldl_cons]
        obtain ⟨hstart, hrest⟩ := ih (max start (Selection.depthOfAll prepared.2.selections))
        refine ⟨(le_max_left _ _).trans hstart, fun other hother => ?_⟩
        rcases List.mem_cons.mp hother with rfl | hother
        · exact (le_max_right _ _).trans hstart
        · exact hrest other hother
  intro contribution hmem
  obtain ⟨prepared, hprepared, rfl⟩ := List.mem_map.mp hmem
  exact (hle operations 0).2 prepared hprepared

/-- What a merged batch is put together from: what has been registered at the end, the prepared
operations and the merge of their selection sets. -/
structure Assembled (calls : List CallDocument) (batch : MergedBatch)
    (registry : FragmentRegistry) (operations : List (Nat × Operation))
    (merged : MergedSelections) : Prop where
  ne_nil : calls ≠ []
  made : prepare {} calls = (registry, operations)
  merges : MergedSelections.Merges FieldPath.root (rootContributions operations) merged
  kind : ∀ call ∈ calls, call.operation.kind = batch.operation.kind
  name : batch.operation.name? = mergedName? operations
  declarations : batch.operation.declarations =
    operations.flatMap fun prepared => prepared.2.declarations
  directives : batch.operation.directives =
    distinctDirectives (operations.flatMap fun prepared => prepared.2.directives)
  selections : batch.operation.selections = merged.selections
  fragments : batch.fragments = Assoc.values registry.fragments
  mapping : batch.mapping = PathMapping.ofPlacements merged.placements

/-- There are no calls, or they are of different kinds, or their selection sets decide. -/
theorem ofCalls_cases (calls : List CallDocument) :
    (calls = [] ∧ ofCalls calls = .error .emptyBatch) ∨
    (∃ a ∈ calls, ∃ b ∈ calls, a.operation.kind ≠ b.operation.kind ∧
      ofCalls calls = .error (.mixedOperationKinds a.operation.kind b.operation.kind)) ∨
    ∃ kind, calls ≠ [] ∧ (∀ call ∈ calls, call.operation.kind = kind) ∧
      ofCalls calls = ofOperations kind (prepare {} calls).1 (prepare {} calls).2 := by
  cases calls with
  | nil => exact .inl ⟨rfl, rfl⟩
  | cons first rest =>
      right
      rw [ofCalls]
      split
      · rename_i other hother
        have hmem := List.mem_of_find?_eq_some hother
        have hne : other.operation.kind ≠ first.operation.kind := by
          simpa using List.find?_some hother
        exact .inl ⟨first, List.mem_cons_self, other, List.mem_cons_of_mem _ hmem, hne.symm, rfl⟩
      · rename_i hsame
        refine .inr ⟨first.operation.kind, List.cons_ne_nil _ _, ?_, rfl⟩
        rw [List.forall_mem_cons]
        refine ⟨rfl, fun call hmem => ?_⟩
        simpa using List.find?_eq_none.mp hsame call hmem

/-- A merged batch is put together from its prepared calls. -/
theorem exists_assembled {calls : List CallDocument} {batch : MergedBatch}
    (h : ofCalls calls = .ok batch) :
    ∃ registry operations merged, Assembled calls batch registry operations merged := by
  rcases ofCalls_cases calls with ⟨-, hfail⟩ | ⟨a, -, b, -, -, hfail⟩ | ⟨kind, hne, hkind, heq⟩
  · rw [hfail] at h
    simp at h
  · rw [hfail] at h
    simp at h
  · rw [heq] at h
    unfold ofOperations at h
    obtain ⟨merged, hmerged, h⟩ := Outcomes.bind_eq_ok.mp h
    obtain rfl := Except.ok.inj h
    exact ⟨_, _, merged, hne, rfl, ⟨_, withinDepth_rootContributions _, hmerged⟩, hkind, rfl, rfl,
      rfl, rfl, rfl, rfl⟩

/-- Calls of one kind whose selection sets merge make a batch. -/
theorem exists_ofCalls_eq_ok {calls : List CallDocument} (hne : calls ≠ [])
    (hkind : ∀ a ∈ calls, ∀ b ∈ calls, a.operation.kind = b.operation.kind)
    {merged : MergedSelections} (hmerges : MergedSelections.Merges FieldPath.root
      (rootContributions (prepare {} calls).2) merged) :
    ∃ batch, ofCalls calls = .ok batch ∧
      Assembled calls batch (prepare {} calls).1 (prepare {} calls).2 merged := by
  rcases ofCalls_cases calls with ⟨hnil, -⟩ | ⟨a, ha, b, hb, hab, -⟩ | ⟨kind, -, hsame, heq⟩
  · exact absurd hnil hne
  · exact absurd (hkind a ha b hb) hab
  · refine ⟨_, heq.trans (Outcomes.bind_eq_ok.mpr ⟨merged, ?_, rfl⟩), hne, rfl, hmerges, hsame,
      rfl, rfl, rfl, rfl, rfl, rfl⟩
    exact hmerges.eq_ok (withinDepth_rootContributions _)

/-- What a merged batch is made of, for calls that were read: its registry is closed. -/
structure MadeOf (calls : List CallDocument) (batch : MergedBatch) (registry : FragmentRegistry)
    (operations : List (Nat × Operation)) (merged : MergedSelections) : Prop extends
    Assembled calls batch registry operations merged where
  valid : registry.Valid nestingLimit
  prepared : List.Forall₂ (Prepared registry) calls operations

/-- **A merged batch is made of its prepared calls.** -/
theorem exists_madeOf {calls : List CallDocument} {batch : MergedBatch}
    (hcalls : ∀ call ∈ calls, call.IsParsed) (h : ofCalls calls = .ok batch) :
    ∃ registry operations merged, MadeOf calls batch registry operations merged := by
  obtain ⟨hvalid, hprepared⟩ :=
    prepared_prepare hcalls (FragmentRegistry.valid_empty nestingLimit)
  obtain ⟨registry, operations, merged, hassembled⟩ := exists_assembled h
  rw [hassembled.made] at hvalid hprepared
  exact ⟨registry, operations, merged, hassembled, hvalid, hprepared⟩

section Made

variable {calls : List CallDocument} {batch : MergedBatch} {registry : FragmentRegistry}
  {operations : List (Nat × Operation)} {merged : MergedSelections}

theorem MadeOf.parsed (h : MadeOf calls batch registry operations merged) :
    ∀ call ∈ calls, call.IsParsed := by
  intro call hmem
  obtain ⟨prepared, -, hprepared⟩ := Outcomes.exists_right h.prepared hmem
  exact hprepared.parsed

/-- A call is prepared with what the calls before it have registered, and the calls behind it
only add to that. -/
theorem MadeOf.split {front back : List CallDocument} {call : CallDocument}
    (h : MadeOf (front ++ call :: back) batch registry operations merged) :
    (prepare {} front).1.Valid nestingLimit ∧
      ((prepare {} front).1.after call).fragments <+: registry.fragments ∧
      (call.index, call.ownOperation ((prepare {} front).1.renamesOf call)) ∈ operations := by
  have hcalls := h.parsed
  rw [List.forall_mem_append, List.forall_mem_cons] at hcalls
  obtain ⟨hfront, hcall, hback⟩ := hcalls
  obtain ⟨hvalid, -⟩ := prepared_prepare hfront (FragmentRegistry.valid_empty nestingLimit)
  have hprepare := h.made
  rw [prepare_append] at hprepare
  obtain ⟨rfl, rfl⟩ := Prod.mk.inj hprepare
  exact ⟨hvalid, fragments_prepare _ back, List.mem_append_right _ List.mem_cons_self⟩

end Made

end MergedBatch

end QueryBatching
