/-
Selections by their signatures.

Fields of one level that have one signature are one field to a merge, and what they select below
is one level again.  So a place in an operation is a path of signatures, from its root down
through plain fields: `levelAt` is everything that is selected there, one selection set after
another.  Variables count, since arguments belong to a signature, so the paths are those of a
call's selections under their merged names; the names of fragments do not.
-/
import QueryBatching.Merge.Batch
import QueryBatching.Proofs.Merge.Merged

namespace QueryBatching

namespace Selection

/-! ### Levels -/

/-- What a selection selects below, if it is a field of the signature. -/
def nestedOf (signature : FieldSignature) : Selection → List Selection
  | .field head (some nested) => if head.signature = signature then nested else []
  | _ => []

/-- What the fields of the signature select below, one selection set after another. -/
def selectedBelow (selections : List Selection) (signature : FieldSignature) : List Selection :=
  selections.flatMap (nestedOf signature)

/-- What is selected at the end of a path of signatures. -/
def levelAt (selections : List Selection) : List FieldSignature → List Selection
  | [] => selections
  | signature :: path => levelAt (selectedBelow selections signature) path

theorem selectedBelow_flatMap {α : Type} (xs : List α) (f : α → List Selection)
    (signature : FieldSignature) :
    selectedBelow (xs.flatMap f) signature = xs.flatMap fun x => selectedBelow (f x) signature :=
  List.flatMap_assoc

theorem levelAt_flatMap {α : Type} (xs : List α) (f : α → List Selection)
    (path : List FieldSignature) :
    levelAt (xs.flatMap f) path = xs.flatMap fun x => levelAt (f x) path := by
  induction path generalizing f with
  | nil => rfl
  | cons signature path ih =>
      rw [levelAt, selectedBelow_flatMap, ih]
      rfl

theorem nestedOf_mapSpreads (rename : String → String) (signature : FieldSignature)
    (selection : Selection) :
    nestedOf signature (selection.mapSpreads rename) =
      mapSpreadsAll rename (nestedOf signature selection) := by
  cases selection with
  | field head nested? =>
      cases nested? with
      | none => rfl
      | some nested =>
          rw [mapSpreads, nestedOf, nestedOf]
          split
          · rfl
          · rfl
  | spread name directives => rfl
  | inlineFragment condition? directives nested => rfl

/-- Renamed spreads leave the levels where they are. -/
theorem levelAt_mapSpreadsAll (rename : String → String) (selections : List Selection)
    (path : List FieldSignature) :
    levelAt (mapSpreadsAll rename selections) path =
      mapSpreadsAll rename (levelAt selections path) := by
  induction path generalizing selections with
  | nil => rfl
  | cons signature path ih =>
      have hbelow : selectedBelow (mapSpreadsAll rename selections) signature =
          mapSpreadsAll rename (selectedBelow selections signature) := by
        simp only [selectedBelow, mapSpreadsAll_eq, List.flatMap_map, List.map_flatMap,
          nestedOf_mapSpreads]
      rw [levelAt, levelAt, hbelow, ih]

/-! ### Fields at the end of a path -/

/-- A field of the signature is selected at the end of the path, with a selection set of its own
or without. -/
def Selects (selections : List Selection) (path : List FieldSignature)
    (signature : FieldSignature) (composite : Bool) : Prop :=
  ∃ head nested?, .field head nested? ∈ levelAt selections path ∧
    head.signature = signature ∧ nested?.isSome = composite

variable {selections : List Selection} {path : List FieldSignature}
  {signature : FieldSignature} {composite : Bool}

theorem selects_flatMap {α : Type} {xs : List α} {f : α → List Selection} :
    Selects (xs.flatMap f) path signature composite ↔
      ∃ x ∈ xs, Selects (f x) path signature composite := by
  unfold Selects
  rw [levelAt_flatMap]
  constructor
  · rintro ⟨head, nested?, hmem, hfield⟩
    obtain ⟨x, hx, hmem⟩ := List.mem_flatMap.mp hmem
    exact ⟨x, hx, head, nested?, hmem, hfield⟩
  · rintro ⟨x, hx, head, nested?, hmem, hfield⟩
    exact ⟨head, nested?, List.mem_flatMap.mpr ⟨x, hx, hmem⟩, hfield⟩

/-- One signature further up there is a field with a selection set. -/
theorem selects_cons {first : FieldSignature} :
    Selects selections (first :: path) signature composite ↔
      ∃ head nested, .field head (some nested) ∈ selections ∧ head.signature = first ∧
        Selects nested path signature composite := by
  have hnone : ¬Selects [] path signature composite := by
    intro (h : Selects (([] : List Selection).flatMap fun _ => []) path signature composite)
    obtain ⟨_, hmem, -⟩ := selects_flatMap.mp h
    exact absurd hmem List.not_mem_nil
  show Selects (selections.flatMap (nestedOf first)) path signature composite ↔ _
  rw [selects_flatMap]
  constructor
  · rintro ⟨selection, hmem, hselects⟩
    unfold nestedOf at hselects
    split at hselects
    · rename_i head nested
      split at hselects
      · rename_i hsignature
        exact ⟨head, nested, hmem, hsignature, hselects⟩
      · exact absurd hselects hnone
    · exact absurd hselects hnone
  · rintro ⟨head, nested, hmem, hsignature, hselects⟩
    refine ⟨_, hmem, ?_⟩
    rw [nestedOf, if_pos hsignature]
    exact hselects

theorem selects_mapSpreadsAll {rename : String → String} :
    Selects (mapSpreadsAll rename selections) path signature composite ↔
      Selects selections path signature composite := by
  unfold Selects
  rw [levelAt_mapSpreadsAll, mapSpreadsAll_eq]
  constructor
  · rintro ⟨head, nested?, hmem, hfield⟩
    obtain ⟨selection, hselection, hrenamed⟩ := List.mem_map.mp hmem
    cases selection with
    | field own own? =>
        cases own? with
        | none =>
            obtain ⟨rfl, rfl⟩ := Selection.field.inj hrenamed
            exact ⟨own, none, hselection, hfield⟩
        | some nested =>
            obtain ⟨rfl, rfl⟩ := Selection.field.inj hrenamed
            exact ⟨own, some nested, hselection, hfield⟩
    | spread name directives => simp [mapSpreads] at hrenamed
    | inlineFragment condition? directives nested => simp [mapSpreads] at hrenamed
  · rintro ⟨head, nested?, hmem, hfield⟩
    cases nested? with
    | none => exact ⟨head, none, List.mem_map.mpr ⟨_, hmem, rfl⟩, hfield⟩
    | some nested =>
        exact ⟨head, some (mapSpreadsAll rename nested), List.mem_map.mpr ⟨_, hmem, rfl⟩, hfield⟩

end Selection

/-! ### Calls and contributions -/

/-- The call's selections with its variables under their merged names. -/
def CallDocument.ownSelections (call : CallDocument) : List Selection :=
  Selection.mapVariablesAll (variableName call.index) call.operation.selections

/-- A call selects a field of the signature at the end of the path. -/
def SelectedBy (contributions : List Contribution) (call : Nat) (path : List FieldSignature)
    (signature : FieldSignature) (composite : Bool) : Prop :=
  ∃ contribution ∈ contributions, contribution.call = call ∧
    Selection.Selects contribution.selections path signature composite

/-- **One signature down** are the selections that are contributed below its slot. -/
theorem selectedBy_below {contributions below : List Contribution} {first : FieldSignature}
    (hbelow : contributionsBelow first (contributions.flatMap Contribution.occurrences) =
      some below) {call : Nat} {path : List FieldSignature} {signature : FieldSignature}
    {composite : Bool} :
    SelectedBy below call path signature composite ↔
      SelectedBy contributions call (first :: path) signature composite := by
  constructor
  · rintro ⟨nested, hmem, hcall, hselects⟩
    obtain ⟨contribution, hin, head, selections, hselection, hsignature, rfl⟩ :=
      mem_contributionsBelow hbelow hmem
    exact ⟨contribution, hin, hcall,
      Selection.selects_cons.mpr ⟨head, selections, hselection, hsignature, hselects⟩⟩
  · rintro ⟨contribution, hin, hcall, hselects⟩
    obtain ⟨head, nested, hselection, rfl, hnested⟩ := Selection.selects_cons.mp hselects
    have hmem := mem_of_contributionsBelow hbelow
      (mem_occurrences.mpr ⟨contribution, hin, _, hselection, rfl⟩) rfl
    exact ⟨_, hmem, hcall, hnested⟩

end QueryBatching
