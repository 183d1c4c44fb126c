/-
Plain selections: fields all the way down, without directives.

Plain selections have no spreads, so pointing their spreads at emitted names leaves them alone.
-/
import QueryBatching.Proofs.Response.OwnSelections
import QueryBatching.Proofs.Response.Variables

namespace QueryBatching

open Selection (responseKeys selectionsUnder)

/-! ### Plain selections -/

namespace Selection

mutual

/-- Whether a selection is a field without directives, and everything below it. -/
def isPlain : Selection → Bool
  | .field head none => head.directives.isEmpty
  | .field head (some nested) => head.directives.isEmpty && allPlain nested
  | .spread .. => false
  | .inlineFragment .. => false

/-- Whether several selections are plain. -/
def allPlain : List Selection → Bool
  | [] => true
  | selection :: rest => isPlain selection && allPlain rest

end

theorem allPlain_iff {selections : List Selection} :
    allPlain selections = true ↔ ∀ selection ∈ selections, selection.isPlain = true := by
  induction selections with
  | nil => simp [allPlain]
  | cons selection rest ih => rw [allPlain, Bool.and_eq_true, ih, List.forall_mem_cons]

theorem isPlain_nested {head : Field} {nested : List Selection}
    (h : (Selection.field head (some nested)).isPlain = true) :
    ∀ selection ∈ nested, selection.isPlain = true := by
  rw [isPlain, Bool.and_eq_true] at h
  exact allPlain_iff.mp h.2

/-- Plain selections are fields, so each has a response key. -/
theorem key?_ne_none {selection : Selection} (h : selection.isPlain = true) :
    selection.key? ≠ none := by
  cases selection with
  | field head nested? => exact Option.some_ne_none _
  | spread name directives => simp [isPlain] at h
  | inlineFragment condition? directives nested => simp [isPlain] at h

theorem responseKeys_ne_nil {selections : List Selection} {selection : Selection}
    (hmem : selection ∈ selections) (h : selection.isPlain = true) :
    responseKeys selections ≠ [] := by
  obtain ⟨key, hkey⟩ := Option.ne_none_iff_exists'.mp (key?_ne_none h)
  exact List.ne_nil_of_mem (List.mem_eraseDups.mpr (List.mem_filterMap.mpr ⟨selection, hmem, hkey⟩))

theorem isPlain_mapVariables (rename : String → String) {selection : Selection}
    (h : selection.isPlain = true) : (selection.mapVariables rename).isPlain = true := by
  induction selection using Selection.induction with
  | leaf head => simpa [mapVariables, isPlain, Field.mapVariables] using h
  | field head nested ih =>
      have hnested := isPlain_nested h
      rw [isPlain, Bool.and_eq_true] at h
      rw [mapVariables, mapVariablesAll_eq, isPlain, Bool.and_eq_true]
      refine ⟨by simpa [Field.mapVariables] using h.1, allPlain_iff.mpr fun selection hmem => ?_⟩
      obtain ⟨original, horiginal, rfl⟩ := List.mem_map.mp hmem
      exact ih original horiginal (hnested original horiginal)
  | spread name directives => simp [isPlain] at h
  | inlineFragment condition? directives nested => simp [isPlain] at h

/-- Plain selections spread nothing. -/
theorem spreads_of_isPlain {selection : Selection} (h : selection.isPlain = true) :
    selection.spreads = [] := by
  induction selection using Selection.induction with
  | leaf head => rfl
  | field head nested ih =>
      rw [spreads, spreadsOfAll_eq, List.flatMap_eq_nil_iff]
      exact fun inner hinner => ih inner hinner (isPlain_nested h inner hinner)
  | spread name directives => simp [isPlain] at h
  | inlineFragment condition? directives nested => simp [isPlain] at h

end Selection

/-! ### Batches of plain calls -/

/-- A plain call spreads nothing, so no spread of it is renamed. -/
theorem CallDocument.mapSpreadsAll_ownSelections {call : CallDocument}
    (hplain : Selection.allPlain call.operation.selections = true) (rename : String → String) :
    Selection.mapSpreadsAll rename call.ownSelections = call.ownSelections := by
  refine Selection.mapSpreadsAll_eq_self fun name hname => ?_
  rw [CallDocument.ownSelections, Selection.spreadsOfAll_mapVariablesAll,
    Selection.spreadsOfAll_eq] at hname
  obtain ⟨selection, hmem, hname⟩ := List.mem_flatMap.mp hname
  rw [Selection.spreads_of_isPlain (Selection.allPlain_iff.mp hplain selection hmem)] at hname
  exact absurd hname List.not_mem_nil

namespace MergedBatch

theorem Prepared.exists_renames {final : FragmentRegistry} {call : CallDocument}
    {prepared : Nat × Operation} (h : Prepared final call prepared) :
    ∃ renames, prepared = (call.index, call.ownOperation renames) := by
  obtain ⟨-, before, -, rfl, -⟩ := h
  exact ⟨_, rfl⟩

/-- A plain call is prepared by giving its variables their merged names. -/
theorem Prepared.eq_of_plain {final : FragmentRegistry} {call : CallDocument}
    {prepared : Nat × Operation} (h : Prepared final call prepared)
    (hplain : Selection.allPlain call.operation.selections = true) :
    prepared.1 = call.index ∧ prepared.2.selections = call.ownSelections := by
  obtain ⟨renames, rfl⟩ := h.exists_renames
  exact ⟨rfl, CallDocument.mapSpreadsAll_ownSelections hplain _⟩

variable {calls : List CallDocument} {registry : FragmentRegistry}
  {operations : List (Nat × Operation)}

theorem plain_rootContributions (hprepared : List.Forall₂ (Prepared registry) calls operations)
    (hplain : ∀ call ∈ calls, Selection.allPlain call.operation.selections = true) :
    ∀ contribution ∈ rootContributions operations, ∀ selection ∈ contribution.selections,
      selection.isPlain = true := by
  intro contribution hmem selection hselection
  obtain ⟨prepared, hin, rfl⟩ := List.mem_map.mp hmem
  obtain ⟨call, hcall, hcalls⟩ := Outcomes.exists_left hprepared hin
  obtain ⟨-, hselections⟩ := hcalls.eq_of_plain (hplain call hcall)
  change selection ∈ prepared.2.selections at hselection
  rw [hselections, CallDocument.ownSelections, Selection.mapVariablesAll_eq] at hselection
  obtain ⟨original, horiginal, rfl⟩ := List.mem_map.mp hselection
  exact Selection.isPlain_mapVariables _
    (Selection.allPlain_iff.mp (hplain call hcall) original horiginal)

/-- What a call has at the root are its selections, with its variables under their merged names. -/
theorem selectionsOf_rootContributions
    (hprepared : List.Forall₂ (Prepared registry) calls operations)
    (hplain : ∀ call ∈ calls, Selection.allPlain call.operation.selections = true)
    (hindices : (calls.map CallDocument.index).Nodup) {call : CallDocument} (hmem : call ∈ calls) :
    selectionsOf call.index (rootContributions operations) =
      Selection.mapVariablesAll (variableName call.index) call.operation.selections := by
  have hrenamed := hprepared.imp fun call prepared h => h.exists_renames
  obtain ⟨renames, hselections⟩ :=
    exists_selectionsOf_rootContributions hrenamed hindices hmem
  rw [hselections]
  exact CallDocument.mapSpreadsAll_ownSelections (hplain call hmem) _

end MergedBatch

end QueryBatching
