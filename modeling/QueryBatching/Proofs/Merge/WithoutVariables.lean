/-
Calls without variables.

A call that declares and refers to no variable is prepared as it was read: there is nothing to
give a merged name to.  And a merge of such calls has no variables either, since all that it
declares and refers to comes from them.
-/
import QueryBatching.Proofs.Document.References
import QueryBatching.Proofs.Merge.Signatures
import QueryBatching.Proofs.Merge.WellFormed

namespace QueryBatching

open MergedSelections (Merges)

namespace CallDocument

/-- The variables a call declares and those it refers to, in its operation and its fragments. -/
def variableNames (call : CallDocument) : List String :=
  call.operation.declarations.map VariableDefinition.name ++ call.operation.references ++
    call.fragments.flatMap Fragment.references

/-- What it means that a call has no variables. -/
theorem variableNames_eq_nil {call : CallDocument} : call.variableNames = [] ↔
    call.operation.declarations = [] ∧ call.operation.references = [] ∧
      ∀ fragment ∈ call.fragments, fragment.references = [] := by
  unfold variableNames
  rw [List.append_eq_nil_iff, List.append_eq_nil_iff, List.map_eq_nil_iff,
    List.flatMap_eq_nil_iff, and_assoc]

section Unchanged

variable {call : CallDocument} (h : call.variableNames = [])

include h

/-- A call without variables has nothing to rename in its fragments. -/
theorem ownFragments_eq : call.ownFragments = call.fragments := by
  obtain ⟨-, -, hfragments⟩ := variableNames_eq_nil.mp h
  refine (List.map_congr_left fun fragment hmem => ?_).trans (List.map_id _)
  refine Fragment.mapVariables_eq_self fun name hname => ?_
  rw [hfragments fragment hmem] at hname
  exact absurd hname List.not_mem_nil

/-- A call without variables has nothing to rename in its operation. -/
theorem mapVariables_operation (rename : String → String) :
    call.operation.mapVariables rename = call.operation := by
  obtain ⟨hdeclarations, hreferences, -⟩ := variableNames_eq_nil.mp h
  obtain ⟨hdirectives, hselections⟩ := List.append_eq_nil_iff.mp hreferences
  have hnone : ∀ {names : List String}, names = [] → ∀ name ∈ names, rename name = name := by
    rintro _ rfl name hname
    exact absurd hname List.not_mem_nil
  rw [Operation.mapVariables, hdeclarations, Directive.map_eq_self (hnone hdirectives),
    Selection.mapVariablesAll_eq_self (hnone hselections), List.map_nil, ← hdeclarations]

theorem ownSelections_eq : call.ownSelections = call.operation.selections :=
  congrArg Operation.selections (mapVariables_operation h (variableName call.index))

end Unchanged

end CallDocument

/-! ### Merges -/

/-- Whatever merged selections refer to is referred to in those they were merged from. -/
theorem MergedSelections.Merges.references {merged : FieldPath}
    {contributions : List Contribution} {result : MergedSelections}
    (h : Merges merged contributions result) {name : String}
    (hname : name ∈ Selection.referencesOfAll result.selections) :
    ∃ contribution ∈ contributions,
      name ∈ Selection.referencesOfAll contribution.selections := by
  simp only [Selection.referencesOfAll_eq] at hname ⊢
  refine @mem_of_collected _ _ Field.references (fun _ => rfl) (fun head nested => ?_)
    (fun _ _ => rfl) _ _ _ h _ hname
  rw [Selection.references, Selection.referencesOfAll_eq]

namespace MergedBatch

/-- What is registered for calls was there before, or is a fragment of one of them as it is
emitted. -/
theorem exists_of_mem_prepare {registry : FragmentRegistry} {calls : List CallDocument}
    {entry : String × Fragment} (h : entry ∈ (prepare registry calls).1.fragments) :
    entry ∈ registry.fragments ∨ ∃ call ∈ calls, ∃ fragment ∈ call.ownFragments,
      ∃ renames, entry.2 = fragment.emitted renames := by
  induction calls generalizing registry with
  | nil => exact .inl h
  | cons call rest ih =>
      rcases @ih (registry.after call) h with hafter | ⟨other, hother, hemitted⟩
      · obtain ⟨⟨added, hadded, hentries⟩, -, -⟩ := FragmentRegistry.extends_emit
          (registry.renamesOf call) registry call.ownFragments
        have hmem : entry ∈ registry.fragments ++ added := hadded ▸ hafter
        rcases List.mem_append.mp hmem with hmem | hmem
        · exact .inl hmem
        · obtain ⟨-, fragment, hfragment, rfl⟩ := hentries entry hmem
          exact .inr ⟨call, List.mem_cons_self, fragment, hfragment, _, rfl⟩
      · exact .inr ⟨other, List.mem_cons_of_mem _ hother, hemitted⟩

variable {calls : List CallDocument} {batch : MergedBatch} {registry : FragmentRegistry}
  {operations : List (Nat × Operation)} {merged : MergedSelections}

/-- **A merge of calls without variables has none.** -/
theorem MadeOf.variableNames_eq_nil (h : MadeOf calls batch registry operations merged)
    (hcalls : ∀ call ∈ calls, call.variableNames = []) (index : Nat) :
    CallDocument.variableNames ⟨index, batch.operation, batch.fragments⟩ = [] := by
  have hoperation : ∀ prepared ∈ operations,
      prepared.2.declarations = [] ∧ prepared.2.references = [] := by
    intro prepared hmem
    obtain ⟨call, hcall, hprepared⟩ := Outcomes.exists_left h.prepared hmem
    obtain ⟨-, before, -, rfl, -⟩ := hprepared
    obtain ⟨hdeclarations, hreferences, -⟩ :=
      CallDocument.variableNames_eq_nil.mp (hcalls call hcall)
    rw [CallDocument.ownOperation, CallDocument.mapVariables_operation (hcalls call hcall)]
    refine ⟨hdeclarations, ?_⟩
    rw [← hreferences, Operation.references, Selection.referencesOfAll_mapSpreadsAll]
    rfl
  rw [CallDocument.variableNames_eq_nil]
  refine ⟨?_, List.append_eq_nil_iff.mpr ⟨?_, ?_⟩, fun fragment hmem => ?_⟩
  · show batch.operation.declarations = []
    rw [h.declarations, List.flatMap_eq_nil_iff]
    exact fun prepared hmem => (hoperation prepared hmem).1
  · show batch.operation.directives.flatMap Directive.references = []
    rw [h.directives, List.flatMap_eq_nil_iff]
    intro directive hmem
    obtain ⟨prepared, hprepared, hin⟩ := List.mem_flatMap.mp (mem_of_mem_distinctDirectives hmem)
    have hnone := (List.append_eq_nil_iff.mp (hoperation prepared hprepared).2).1
    exact List.flatMap_eq_nil_iff.mp hnone directive hin
  · show Selection.referencesOfAll batch.operation.selections = []
    rw [h.selections, List.eq_nil_iff_forall_not_mem]
    intro name hname
    obtain ⟨contribution, hcontribution, hreference⟩ := h.merges.references hname
    obtain ⟨prepared, hprepared, rfl⟩ := mem_rootContributions hcontribution
    have hnone := (List.append_eq_nil_iff.mp (hoperation prepared hprepared).2).2
    rw [hnone] at hreference
    exact absurd hreference List.not_mem_nil
  · change fragment ∈ batch.fragments at hmem
    rw [h.fragments] at hmem
    obtain ⟨entry, hentry, rfl⟩ := List.mem_map.mp hmem
    have hregistry : registry = (prepare {} calls).1 := by rw [h.made]
    rw [hregistry] at hentry
    rcases exists_of_mem_prepare hentry with hnone | ⟨call, hcall, own, hown, renames, heq⟩
    · exact absurd hnone List.not_mem_nil
    · obtain ⟨-, -, hfragments⟩ := CallDocument.variableNames_eq_nil.mp (hcalls call hcall)
      rw [CallDocument.ownFragments_eq (hcalls call hcall)] at hown
      have hsame : (own.emitted renames).references = own.references := by
        rw [Fragment.emitted, Fragment.renameSpreads, Fragment.references,
          Selection.referencesOfAll_mapSpreadsAll]
        rfl
      rw [heq, hsame, hfragments own hown]

end MergedBatch

end QueryBatching
