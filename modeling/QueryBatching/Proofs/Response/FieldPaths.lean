/-
The path mapping is exact.

A path of response keys leads from the root of an operation down through plain fields, to one
field or to several that are merged in the response.  A merge takes such a path of a call to a
path of the merged operation, key by key, and the mapping has exactly these paths.  Each of the
facts that say so is proved of a merge by induction over its levels, for one call and the path at
which it stands there, and read off the placements; the mapping is made of nothing else.
-/
import QueryBatching.Proofs.Merge.Selected
import QueryBatching.Proofs.Response.OwnSelections
import QueryBatching.Proofs.Response.Variables

namespace QueryBatching

open Selection (fieldsUnder selectionsUnder)

/-! ### Fields by response keys -/

namespace Selection

/-- The fields at the end of a path of response keys, each with what it selects below. -/
def fieldsAt : List Selection → List String → List (Field × List Selection)
  | _, [] => []
  | selections, [key] => fieldsUnder selections key
  | selections, key :: next :: rest => fieldsAt (selectionsUnder selections key) (next :: rest)

theorem fieldsAt_cons {keys : List String} (hne : keys ≠ []) (selections : List Selection)
    (key : String) :
    fieldsAt selections (key :: keys) = fieldsAt (selectionsUnder selections key) keys := by
  cases keys with
  | nil => exact absurd rfl hne
  | cons next rest => rfl

/-- A path of response keys starts at a field with the first of them. -/
theorem exists_field_of_fieldsAt {selections : List Selection} {key : String} {keys : List String}
    (h : fieldsAt selections (key :: keys) ≠ []) :
    ∃ head nested?, .field head nested? ∈ selections ∧ head.responseKey = key := by
  induction keys generalizing selections key with
  | nil =>
      obtain ⟨found, hfound⟩ := List.exists_mem_of_ne_nil _ h
      obtain ⟨head, nested?, hfield, hkey, -⟩ := mem_fieldsUnder.mp hfound
      exact ⟨head, nested?, hfield, hkey⟩
  | cons next rest ih =>
      obtain ⟨inner, inner?, hinner, -⟩ := ih h
      obtain ⟨head, nested, hfield, hkey, -⟩ := mem_selectionsUnder.mp hinner
      exact ⟨head, some nested, hfield, hkey⟩

section Map

/-! What changes selections one by one, and keeps where they stand. -/

variable {f : Selection → Selection} {g : Field → Field}
  (hunder : ∀ key selection, under? key (f selection) =
    (under? key selection).map fun found => (g found.1, found.2.map f))

include hunder

/-- The fields of a response key change as the selections do. -/
theorem fieldsUnder_map (selections : List Selection) (key : String) :
    fieldsUnder (selections.map f) key =
      (fieldsUnder selections key).map fun found => (g found.1, found.2.map f) := by
  unfold fieldsUnder
  rw [List.filterMap_map, List.map_filterMap]
  exact List.filterMap_congr fun selection _ => hunder key selection

/-- What is selected below a response key changes as the selections do. -/
theorem selectionsUnder_map (selections : List Selection) (key : String) :
    selectionsUnder (selections.map f) key = (selectionsUnder selections key).map f := by
  rw [selectionsUnder, fieldsUnder_map hunder, List.flatMap_map, selectionsUnder, List.map_flatMap]

/-- The fields at the end of a path change as the selections do. -/
theorem fieldsAt_map (selections : List Selection) (keys : List String) :
    fieldsAt (selections.map f) keys =
      (fieldsAt selections keys).map fun found => (g found.1, found.2.map f) := by
  induction keys generalizing selections with
  | nil => rfl
  | cons key rest ih =>
      cases rest with
      | nil => exact fieldsUnder_map hunder selections key
      | cons next rest => rw [fieldsAt, fieldsAt, selectionsUnder_map hunder, ih]

end Map

theorem under?_mapSpreads (rename : String → String) (key : String) (selection : Selection) :
    (selection.mapSpreads rename).under? key =
      (selection.under? key).map fun found => (found.1, found.2.map (mapSpreads rename)) := by
  cases selection with
  | field head nested? =>
      cases nested? with
      | none =>
          rw [mapSpreads, under?]
          split
          · rfl
          · rfl
      | some nested =>
          rw [mapSpreads, under?, under?, mapSpreadsAll_eq]
          split
          · rfl
          · rfl
  | spread name directives => rfl
  | inlineFragment condition? directives nested => rfl

theorem key?_mapSpreads (rename : String → String) (selection : Selection) :
    (selection.mapSpreads rename).key? = selection.key? := by
  cases selection with
  | field head nested? => cases nested? <;> rfl
  | spread name directives => rfl
  | inlineFragment condition? directives nested => rfl

/-- Fields that can be written are found where all selections can. -/
theorem legal_of_mem_fieldsAt {room : Nat} {selections : List Selection} {keys : List String}
    (h : ∀ selection ∈ selections, selection.Legal room) {found : Field × List Selection}
    (hfound : found ∈ fieldsAt selections keys) : ∃ room, found.1.Legal room := by
  induction keys generalizing selections room with
  | nil => exact absurd hfound List.not_mem_nil
  | cons key rest ih =>
      cases rest with
      | nil =>
          obtain ⟨head, nested?, hfield, -, rfl⟩ := mem_fieldsUnder.mp hfound
          exact ⟨room, (h _ hfield).head⟩
      | cons next rest =>
          have hbelow : ∀ selection ∈ selectionsUnder selections key,
              selection.Legal (room - 1) := by
            intro selection hmem
            obtain ⟨head, nested, hfield, -, hin⟩ := mem_selectionsUnder.mp hmem
            obtain ⟨-, -, -, hall⟩ := h _ hfield
            exact allLegal_iff.mp hall selection hin
          exact ih hbelow hfound

end Selection

open Selection (fieldsAt)

namespace MergedSelections

variable {merged path : FieldPath} {contributions : List Contribution} {call : Nat}

/-- What a call has at the end of a path starts at one of its fields. -/
theorem hasField_of_fieldsAt {keys : List String}
    (h : fieldsAt (selectionsOf call contributions) keys ≠ []) :
    ∃ signature, HasField call contributions signature ∧
      keys.head? = some signature.responseKey := by
  cases keys with
  | nil => exact absurd rfl h
  | cons key rest =>
      obtain ⟨head, nested?, hselection, rfl⟩ := Selection.exists_field_of_fieldsAt h
      exact ⟨head.signature, hasField_iff.mpr ⟨head, nested?, hselection, rfl⟩, rfl⟩

section Step

variable {P : FieldPath → List Contribution → MergedSelections → Prop} {level : Level}
  {parts : List MergedSelections}
  (hholds : Level.Holds merged (contributions.flatMap Contribution.occurrences) level)
  (hparts : List.Forall₂
    (Part (fun path below nested => Merges path below nested ∧ P path below nested) merged)
    level.slots parts)

include hholds hparts

/-- A field is placed by the level, or by the merge below a slot. -/
theorem cases_of_placed (hpath : AtPath call path contributions) {own place : FieldPath}
    (hmem : .field call own place ∈ level.placements ++ parts.flatMap placements) :
    (∃ signature target below?, HasField call contributions signature ∧
      .field signature target below? ∈ level.slots ∧ own = path.child signature.responseKey ∧
      place = merged.child target.responseKey) ∨
    ∃ signature target below nested, .field signature target (some below) ∈ level.slots ∧
      contributionsBelow signature (contributions.flatMap Contribution.occurrences) =
        some below ∧
      Merges (merged.child target.responseKey) below nested ∧
      P (merged.child target.responseKey) below nested ∧
      .field call own place ∈ nested.placements := by
  rcases List.mem_append.mp hmem with hmem | hmem
  · exact .inl (exists_of_placed hholds hpath hmem)
  · obtain ⟨signature, head, below, nested, hslot, hnested, hplaced⟩ :=
      exists_nested_of_placed hparts hmem
    exact .inr ⟨signature, head, below, nested, hslot, (hholds.below hslot).symm, hnested.1,
      hnested.2, hplaced⟩

omit hholds in
/-- A slot is a field of the merge. -/
theorem exists_selected {signature : FieldSignature} {target : Field}
    {below? : Option (List Contribution)} (hslot : .field signature target below? ∈ level.slots) :
    ∃ nested?, .field target nested? ∈ parts.flatMap selections := by
  obtain ⟨part, hpart, hbecomes⟩ := Outcomes.exists_right hparts hslot
  cases hbecomes with
  | leaf => exact ⟨none, List.mem_flatMap.mpr ⟨_, hpart, List.mem_cons_self⟩⟩
  | field _ _ below nested hnested =>
      exact ⟨some nested.selections, List.mem_flatMap.mpr ⟨_, hpart, List.mem_cons_self⟩⟩

/-- A field of the merge is a slot: a leaf, or with the merge below it. -/
theorem exists_slot_of_selected {head : Field} {nested? : Option (List Selection)}
    (hselected : .field head nested? ∈ parts.flatMap selections) :
    ∃ signature below?, .field signature head below? ∈ level.slots ∧
      (nested? = none ∨ ∃ below nested, nested? = some nested.selections ∧
        P (merged.child head.responseKey) below nested ∧
        ∀ placement ∈ nested.placements, placement ∈ parts.flatMap placements) := by
  obtain ⟨part, hpart, hselection⟩ := List.mem_flatMap.mp hselected
  obtain ⟨slot, hslot, hbecomes⟩ := Outcomes.exists_left hparts hpart
  cases hbecomes with
  | fragment selection =>
      obtain ⟨-, -, -, hfragment⟩ := hholds.fragments hslot
      exact absurd (List.mem_singleton.mp hselection).symm (hfragment head nested?)
  | leaf signature target =>
      obtain ⟨rfl, rfl⟩ := Selection.field.inj (List.mem_singleton.mp hselection)
      exact ⟨signature, none, hslot, .inl rfl⟩
  | field signature target below nested hnested =>
      obtain ⟨rfl, rfl⟩ := Selection.field.inj (List.mem_singleton.mp hselection)
      exact ⟨signature, some below, hslot, .inr ⟨below, nested, rfl, hnested.2,
        fun placement hplaced => List.mem_flatMap.mpr ⟨_, hpart, hplaced⟩⟩⟩

end Step

/-! ### What is placed -/

/-- What is placed for a call are its fields, and they are placed below the merge. -/
def PlacesFields (call : Nat) (merged : FieldPath) (contributions : List Contribution)
    (result : MergedSelections) : Prop :=
  ∀ {path}, AtPath call path contributions →
    ∀ {own place}, .field call own place ∈ result.placements → merged.isBelow place = true ∧
      ∃ keys, own = ⟨path.keys ++ keys⟩ ∧ fieldsAt (selectionsOf call contributions) keys ≠ []

theorem Merges.placesFields {result : MergedSelections} (h : Merges merged contributions result)
    (call : Nat) : PlacesFields call merged contributions result := by
  refine Merges.induction (P := PlacesFields call) ?_ h
  intro merged contributions level parts aliased hholds hparts path hpath own place hmem
  rcases cases_of_placed hholds hparts hpath hmem with
    ⟨signature, target, below?, hfield, -, rfl, rfl⟩ |
    ⟨signature, target, below, nested, -, hbelow, -, hnested, hplaced⟩
  · refine ⟨FieldPath.isBelow_iff.mpr ⟨_, List.prefix_rfl⟩, [signature.responseKey], rfl, ?_⟩
    obtain ⟨head, nested?, hselection, hsignature⟩ := hasField_iff.mp hfield
    exact List.ne_nil_of_mem (Selection.mem_fieldsUnder.mpr
      ⟨head, nested?, hselection, congrArg FieldSignature.responseKey hsignature, rfl⟩)
  · obtain ⟨hplace, keys, rfl, hkeys⟩ := hnested (hpath.below hbelow) hplaced
    obtain ⟨inner, hinner, hhead⟩ := hasField_of_fieldsAt hkeys
    have hne : keys ≠ [] := fun hnil => by simp [hnil] at hhead
    refine ⟨FieldPath.isBelow_of_child hplace, signature.responseKey :: keys, by simp, ?_⟩
    rw [Selection.fieldsAt_cons hne, ← selectionsOf_below hholds (hinner.of_below hbelow) hbelow]
    exact hkeys

/-- The merge below a slot places nothing at the level of the slot. -/
theorem Merges.place_ne {key : String} {below : List Contribution} {nested : MergedSelections}
    (h : Merges (merged.child key) below nested) (hpath : AtPath call path below)
    {own place : FieldPath} (hplaced : .field call own place ∈ nested.placements)
    (other : String) : place ≠ merged.child other := by
  rintro rfl
  obtain ⟨hbelow, -⟩ := h.placesFields call hpath hplaced
  obtain ⟨next, hnext⟩ := FieldPath.isBelow_iff.mp hbelow
  have hlength := hnext.length_le
  simp at hlength

/-- No two fields of a call are placed at one path. -/
def PlacesApart (call : Nat) (contributions : List Contribution) (result : MergedSelections) :
    Prop :=
  ∀ {path}, AtPath call path contributions →
    ∀ {own other place}, .field call own place ∈ result.placements →
      .field call other place ∈ result.placements → own = other

theorem Merges.placesApart {result : MergedSelections} (h : Merges merged contributions result)
    (call : Nat) : PlacesApart call contributions result := by
  refine Merges.induction (P := fun _ => PlacesApart call) ?_ h
  intro merged contributions level parts aliased hholds hparts path hpath own other place hown
    hother
  rcases cases_of_placed hholds hparts hpath hown with
    ⟨signature, target, below?, -, hslot, rfl, rfl⟩ |
    ⟨signature, target, below, nested, hslot, hbelow, hmerges, hnested, hplaced⟩
  · rcases cases_of_placed hholds hparts hpath hother with
      ⟨signature', target', below'?, -, hslot', rfl, hplace⟩ |
      ⟨signature', target', below', nested', hslot', hbelow', hmerges', -, hplaced'⟩
    · have hkey : target.responseKey = target'.responseKey := by
        simpa [FieldPath.child] using hplace
      have hsame := hholds.slot_eq_of_key hslot hslot' rfl (congrArg some hkey.symm)
      rw [(Slot.field.inj hsame).1]
    · exact absurd rfl (hmerges'.place_ne (hpath.below hbelow') hplaced' target.responseKey)
  · rcases cases_of_placed hholds hparts hpath hother with
      ⟨signature', target', below'?, -, hslot', rfl, rfl⟩ |
      ⟨signature', target', below', nested', hslot', hbelow', hmerges', -, hplaced'⟩
    · exact absurd rfl (hmerges.place_ne (hpath.below hbelow) hplaced target'.responseKey)
    · obtain ⟨hplace, -⟩ := hmerges.placesFields call (hpath.below hbelow) hplaced
      obtain ⟨hplace', -⟩ := hmerges'.placesFields call (hpath.below hbelow') hplaced'
      obtain ⟨_, hkeys⟩ := FieldPath.isBelow_iff.mp hplace
      obtain ⟨_, hkeys'⟩ := FieldPath.isBelow_iff.mp hplace'
      have hkey := FieldPath.key_unique ((List.prefix_append _ _).trans hkeys)
        ((List.prefix_append _ _).trans hkeys')
      have hsame := hholds.slot_eq_of_key hslot hslot' rfl (congrArg some hkey.symm)
      obtain ⟨rfl, rfl, hbelows⟩ := Slot.field.inj hsame
      obtain rfl := Option.some.inj hbelows
      obtain rfl := hmerges.unique hmerges'
      exact hnested (hpath.below hbelow) hplaced hplaced'

/-- Wherever the merge has a field, one is placed. -/
def PlacesAll (merged : FieldPath) (result : MergedSelections) : Prop :=
  ∀ {keys}, fieldsAt result.selections keys ≠ [] →
    ∃ call own, .field call own ⟨merged.keys ++ keys⟩ ∈ result.placements

/-- The first occurrence of a slot is placed there. -/
theorem exists_placed {level : Level}
    (hholds : Level.Holds merged (contributions.flatMap Contribution.occurrences) level)
    {signature : FieldSignature} {target : Field} {below? : Option (List Contribution)}
    (hslot : .field signature target below? ∈ level.slots) :
    ∃ call own, .field call own (merged.child target.responseKey) ∈ level.placements := by
  obtain ⟨front, occurrence, back, head, nested?, earlier, hsplit, hselection, rfl, -⟩ :=
    hholds.opened hslot
  obtain ⟨placement, hplacement, hplaced⟩ :=
    Outcomes.exists_right hholds.placements (hsplit ▸ List.mem_append_right _ List.mem_cons_self)
  simp only [Level.Placed, hselection] at hplaced
  obtain ⟨other, below'?, hslot', rfl⟩ := hplaced
  obtain ⟨-, rfl, -⟩ := Slot.field.inj (hholds.slot_eq hslot hslot' rfl rfl)
  exact ⟨_, _, hplacement⟩

theorem Merges.placesAll {result : MergedSelections} (h : Merges merged contributions result) :
    PlacesAll merged result := by
  refine Merges.induction (P := fun merged _ => PlacesAll merged) ?_ h
  intro merged contributions level parts aliased hholds hparts keys hkeys
  cases keys with
  | nil => exact absurd rfl hkeys
  | cons key rest =>
      obtain ⟨head, nested?, hselected, rfl⟩ := Selection.exists_field_of_fieldsAt hkeys
      obtain ⟨signature, below?, hslot, hcases⟩ :=
        exists_slot_of_selected hholds hparts hselected
      cases rest with
      | nil =>
          obtain ⟨call, own, hplaced⟩ := exists_placed hholds hslot
          exact ⟨call, own, List.mem_append_left _ hplaced⟩
      | cons next rest =>
          have hone := fieldsUnder_slot hholds hparts hslot hselected
          change fieldsAt (selectionsUnder (parts.flatMap selections) head.responseKey)
            (next :: rest) ≠ [] at hkeys
          rw [selectionsUnder, hone, List.flatMap_singleton] at hkeys
          rcases hcases with rfl | ⟨below, nested, rfl, hnested, hin⟩
          · obtain ⟨inner, inner?, hinner, -⟩ := Selection.exists_field_of_fieldsAt hkeys
            exact absurd hinner List.not_mem_nil
          · obtain ⟨call, own, hplaced⟩ := hnested hkeys
            refine ⟨call, own, List.mem_append_right _ (hin _ ?_)⟩
            simpa using hplaced

/-! ### Where a path leads -/

/-- A path of a call, and the path that it leads to in the merge. -/
structure Leads (call : Nat) (path merged : FieldPath) (own : List Selection)
    (result : MergedSelections) (keys keys' : List String) : Prop where
  length_eq : keys'.length = keys.length
  /-- All along the path its fields are placed along the other. -/
  placed : ∀ n, 0 < n → n ≤ keys.length → ∀ place,
    .field call ⟨path.keys ++ keys.take n⟩ place ∈ result.placements ↔
      place = ⟨merged.keys ++ keys'.take n⟩
  /-- At the end there is one field, and it asks for what the call's fields ask for. -/
  reached : ∃ target nested, fieldsAt result.selections keys' = [(target, nested)] ∧
    ∀ found ∈ fieldsAt own keys,
      target.name = found.1.name ∧ target.argumentsText = found.1.argumentsText

section Step

variable {P : FieldPath → List Contribution → MergedSelections → Prop} {level : Level}
  {parts : List MergedSelections} {aliased : Nat}
  (hholds : Level.Holds merged (contributions.flatMap Contribution.occurrences) level)
  (hparts : List.Forall₂
    (Part (fun path below nested => Merges path below nested ∧ P path below nested) merged)
    level.slots parts)
  (hpath : AtPath call path contributions) {signature : FieldSignature}
  (hfield : HasField call contributions signature) {target : Field}

include hholds hparts hpath hfield

/-- One key leads to the key of the slot. -/
theorem leads_singleton {below? : Option (List Contribution)}
    (hslot : .field signature target below? ∈ level.slots) :
    Leads call path merged (selectionsOf call contributions)
      ⟨parts.flatMap selections, level.placements ++ parts.flatMap placements, aliased⟩
      [signature.responseKey] [target.responseKey] where
  length_eq := rfl
  placed := by
    intro n hpos hle place
    obtain rfl : n = 1 := Nat.le_antisymm hle hpos
    exact placed_iff hholds hparts hpath hfield hslot
  reached := by
    obtain ⟨nested?, hselected⟩ := exists_selected hparts hslot
    refine ⟨target, nested?.getD [], fieldsUnder_slot hholds hparts hslot hselected, ?_⟩
    intro found hfound
    obtain ⟨head, own?, hselection, hkey, rfl⟩ := Selection.mem_fieldsUnder.mp hfound
    obtain rfl : head.signature = signature :=
      (hasField_iff.mpr ⟨head, own?, hselection, rfl⟩ : HasField call contributions _).unique
        hholds hfield hkey
    exact name_and_arguments_of_slot hholds hslot

/-- More keys lead on in the merge below the slot. -/
theorem Leads.cons {below : List Contribution} {nested : MergedSelections}
    {keys keys' : List String}
    (hslot : .field signature target (some below) ∈ level.slots)
    (hselected : .field target (some nested.selections) ∈ parts.flatMap selections)
    (hfilter : (level.placements ++ parts.flatMap placements).filter
        (Placement.isBelow call (path.child signature.responseKey)) =
      nested.placements.filter (Placement.isBelow call (path.child signature.responseKey)))
    (hne : keys ≠ [])
    (h : Leads call (path.child signature.responseKey) (merged.child target.responseKey)
      (selectionsOf call below) nested keys keys') :
    Leads call path merged (selectionsOf call contributions)
      ⟨parts.flatMap selections, level.placements ++ parts.flatMap placements, aliased⟩
      (signature.responseKey :: keys) (target.responseKey :: keys') where
  length_eq := congrArg Nat.succ h.length_eq
  placed := by
    intro n hpos hle place
    match n with
    | 1 => exact placed_iff hholds hparts hpath hfield hslot
    | n + 2 =>
        obtain ⟨key, rest, rfl⟩ := List.exists_cons_of_ne_nil hne
        have hbelow : (path.child signature.responseKey).isBelow
            ⟨(path.child signature.responseKey).keys ++ (key :: rest).take (n + 1)⟩ = true :=
          FieldPath.isBelow_iff.mpr ⟨key, rest.take n, by simp⟩
        have hiff := h.placed (n + 1) (Nat.succ_pos n) (Nat.le_of_succ_le_succ hle) place
        rw [← Placement.mem_iff_of_filter_isBelow hfilter hbelow] at hiff
        simpa using hiff
  reached := by
    obtain ⟨found, inner, hreached, hsame⟩ := h.reached
    have hne' : keys' ≠ [] := by
      rw [← List.length_pos_iff, h.length_eq, List.length_pos_iff]
      exact hne
    refine ⟨found, inner, ?_, fun own hown => hsame own ?_⟩
    · rw [Selection.fieldsAt_cons hne', selectionsUnder,
        fieldsUnder_slot hholds hparts hslot hselected, List.flatMap_singleton]
      exact hreached
    · rw [Selection.fieldsAt_cons hne,
        ← selectionsOf_below hholds hfield (hholds.below hslot).symm] at hown
      exact hown

end Step

/-- Every path of the call leads somewhere. -/
def LeadsAll (call : Nat) (merged : FieldPath) (contributions : List Contribution)
    (result : MergedSelections) : Prop :=
  ∀ {path}, AtPath call path contributions →
    ∀ {keys}, fieldsAt (selectionsOf call contributions) keys ≠ [] →
      ∃ keys', Leads call path merged (selectionsOf call contributions) result keys keys'

theorem Merges.leadsAll {result : MergedSelections} (h : Merges merged contributions result)
    (call : Nat) : LeadsAll call merged contributions result := by
  refine Merges.induction (P := LeadsAll call) ?_ h
  intro merged contributions level parts aliased hholds hparts path hpath keys hkeys
  cases keys with
  | nil => exact absurd rfl hkeys
  | cons key rest =>
      cases rest with
      | nil =>
          obtain ⟨head, nested?, hselection, rfl⟩ := Selection.exists_field_of_fieldsAt hkeys
          have hfield : HasField call contributions head.signature :=
            hasField_iff.mpr ⟨head, nested?, hselection, rfl⟩
          obtain ⟨contribution, hin, -, hselected⟩ := mem_selectionsOf.mp hselection
          obtain ⟨target, below?, hslot⟩ := hholds.exists_slot
            (mem_occurrences.mpr ⟨contribution, hin, _, hselected, rfl⟩) rfl
          exact ⟨_, leads_singleton hholds hparts hpath hfield hslot⟩
      | cons next rest =>
          have hne : next :: rest ≠ [] := List.cons_ne_nil _ _
          rw [Selection.fieldsAt_cons hne] at hkeys
          obtain ⟨_, _, hinner, -⟩ := Selection.exists_field_of_fieldsAt hkeys
          obtain ⟨head, nested, hselection, rfl, -⟩ := Selection.mem_selectionsUnder.mp hinner
          have hfield : HasField call contributions head.signature :=
            hasField_iff.mpr ⟨head, some nested, hselection, rfl⟩
          obtain ⟨contribution, hin, hcall, hselected⟩ := mem_selectionsOf.mp hselection
          obtain ⟨target, below, result, hslot, -, hbelow, -, hnested, hmerged, hfilter⟩ :=
            descend hholds hparts hpath hin hcall hselected
          change fieldsAt (selectionsUnder _ head.signature.responseKey) _ ≠ [] at hkeys
          rw [← selectionsOf_below hholds hfield hbelow] at hkeys
          obtain ⟨keys', hleads⟩ := hnested (hpath.below hbelow) hkeys
          exact ⟨_, hleads.cons hholds hparts hpath hfield hslot hmerged hfilter hne⟩

end MergedSelections

/-! ### The mapping of a batch -/

namespace MergedBatch

/-- What the mapping of a batch says of one of its calls. -/
structure MapsExactly (batch : MergedBatch) (call : CallDocument) : Prop where
  /-- No field has two entries. -/
  nodup : (Assoc.keys (batch.mapping.entries call.index)).Nodup
  /-- There are entries for the fields of the call that are reached through plain fields, and for
  nothing else. -/
  mem_iff : ∀ own, own ∈ Assoc.keys (batch.mapping.entries call.index) ↔
    fieldsAt call.operation.selections own.keys ≠ []
  /-- Different fields have different places. -/
  injective : ∀ {own other place}, batch.mapping.get? call.index own = some place →
    batch.mapping.get? call.index other = some place → own = other
  /-- The place of a field is as deep as the field. -/
  length_eq : ∀ {own place}, batch.mapping.get? call.index own = some place →
    place.keys.length = own.keys.length
  /-- The place of a field is one key below the place of the field above. -/
  child : ∀ {own key place}, batch.mapping.get? call.index (own.child key) = some place →
    ∃ above key', batch.mapping.mergedPath? call.index own = some above ∧ place = above.child key'
  /-- At the place of a field there is one field, and it is the same. -/
  reached : ∀ {own place}, batch.mapping.get? call.index own = some place →
    ∃ target nested, fieldsAt batch.operation.selections place.keys = [(target, nested)] ∧
      ∀ found ∈ fieldsAt call.operation.selections own.keys, target.name = found.1.name ∧
        target.argumentsText =
          (found.1.mapVariables (variableName call.index)).argumentsText

section Assembled

variable {calls : List CallDocument} {batch : MergedBatch} {registry : FragmentRegistry}
  {operations : List (Nat × Operation)} {merged : MergedSelections}

theorem atPath_rootContributions (operations : List (Nat × Operation)) (index : Nat) :
    MergedSelections.AtPath index FieldPath.root (rootContributions operations) :=
  fun _ hmem _ => path_of_mem_rootContributions hmem

variable (h : Assembled calls batch registry operations merged)

include h

/-- What is found in the mapping leads there. -/
theorem Assembled.leads_of_get? {index : Nat} {own place : FieldPath}
    (hget : batch.mapping.get? index own = some place) :
    .field index own place ∈ merged.placements ∧
      fieldsAt (selectionsOf index (rootContributions operations)) own.keys ≠ [] ∧
      MergedSelections.Leads index FieldPath.root FieldPath.root
        (selectionsOf index (rootContributions operations)) merged own.keys place.keys := by
  have hmem : own ∈ Assoc.keys (batch.mapping.entries index) := by
    rw [← Assoc.contains_iff_mem_keys, PathMapping.contains_entries, hget]
    rfl
  rw [h.mapping] at hget hmem
  rw [PathMapping.keys_entries_ofPlacements, List.mem_eraseDups, List.mem_filterMap] at hmem
  obtain ⟨placement, -, hentered⟩ := hmem
  obtain ⟨hroot, -⟩ := Placement.entered?_eq_some.mp hentered
  have hplaced := PathMapping.mem_of_get?_ofPlacements hroot hget
  have hpath := atPath_rootContributions operations index
  obtain ⟨-, keys, rfl, hkeys⟩ := h.merges.placesFields index hpath hplaced
  obtain ⟨keys', hleads⟩ := h.merges.leadsAll index hpath hkeys
  have hpos : 0 < keys.length := List.length_pos_iff.mpr fun hnil => hkeys (hnil ▸ rfl)
  have hplace := (hleads.placed keys.length hpos le_rfl place).mp (by
    rw [List.take_length]
    exact hplaced)
  rw [← hleads.length_eq, List.take_length] at hplace
  subst hplace
  exact ⟨hplaced, hkeys, hleads⟩

/-- What is placed is found in the mapping, where it is placed. -/
theorem Assembled.get?_eq_some {index : Nat} {own place : FieldPath}
    (hplaced : .field index own place ∈ merged.placements) :
    batch.mapping.get? index own = some place := by
  have hpath := atPath_rootContributions operations index
  obtain ⟨-, keys, rfl, hkeys⟩ := h.merges.placesFields index hpath hplaced
  obtain ⟨keys', hleads⟩ := h.merges.leadsAll index hpath hkeys
  have hne : keys ≠ [] := fun hnil => hkeys (hnil ▸ rfl)
  have hall := hleads.placed keys.length (List.length_pos_iff.mpr hne) le_rfl
  rw [List.take_length] at hall
  have hroot : FieldPath.parent? ⟨FieldPath.root.keys ++ keys⟩ ≠ none := by
    simp [FieldPath.parent?, FieldPath.root, hne]
  rw [h.mapping]
  refine PathMapping.get?_ofPlacements hroot hplaced fun other hother => ?_
  rw [(hall other).mp hother, (hall place).mp hplaced]

/-- Exactly the fields of a call are found in the mapping. -/
theorem Assembled.exists_get?_iff {index : Nat} {own : FieldPath} :
    (∃ place, batch.mapping.get? index own = some place) ↔
      fieldsAt (selectionsOf index (rootContributions operations)) own.keys ≠ [] := by
  constructor
  · rintro ⟨place, hget⟩
    exact (h.leads_of_get? hget).2.1
  · intro hkeys
    obtain ⟨keys', hleads⟩ :=
      h.merges.leadsAll index (atPath_rootContributions operations index) hkeys
    have hpos : 0 < own.keys.length :=
      List.length_pos_iff.mpr fun hnil => hkeys (by rw [hnil]; rfl)
    have hplaced := (hleads.placed own.keys.length hpos le_rfl _).mpr rfl
    rw [List.take_length] at hplaced
    exact ⟨_, h.get?_eq_some hplaced⟩

/-- A field is placed one key below the place of the field above it. -/
theorem Assembled.exists_above {index : Nat} {own place : FieldPath} {key : String}
    (hget : batch.mapping.get? index (own.child key) = some place) :
    ∃ above key', batch.mapping.mergedPath? index own = some above ∧ place = above.child key' := by
  obtain ⟨-, -, hleads⟩ := h.leads_of_get? hget
  have hlength := hleads.length_eq
  rw [FieldPath.keys_child, List.length_append, List.length_singleton] at hlength
  have hne : place.keys ≠ [] := by
    intro hnone
    simp [hnone] at hlength
  have habove : place.keys.dropLast = place.keys.take own.keys.length := by
    rw [List.dropLast_eq_take, hlength, Nat.add_sub_cancel]
  refine ⟨⟨place.keys.dropLast⟩, place.keys.getLast hne, ?_, ?_⟩
  · rw [PathMapping.mergedPath?, habove]
    split
    · rename_i hroot
      rw [hroot]
      rfl
    · rename_i hroot
      have hpos : 0 < own.keys.length :=
        List.length_pos_iff.mpr fun hnone => hroot (congrArg FieldPath.mk hnone)
      have hplaced := (hleads.placed own.keys.length hpos (by simp) _).mpr rfl
      rw [FieldPath.keys_child, List.take_left] at hplaced
      exact h.get?_eq_some hplaced
  · rw [FieldPath.child, List.dropLast_append_getLast]

/-- The selections of a call stand where it wrote them, with its fields under their merged
variable names. -/
theorem Assembled.exists_selectionsOf_own (hindices : (calls.map CallDocument.index).Nodup)
    {call : CallDocument} (hmem : call ∈ calls) :
    ∃ rename : Selection → Selection,
      selectionsOf call.index (rootContributions operations) =
        call.operation.selections.map rename ∧
      (∀ key selection, Selection.under? key (rename selection) =
        (Selection.under? key selection).map fun found =>
          (found.1.mapVariables (variableName call.index), found.2.map rename)) ∧
      ∀ selection, (rename selection).key? = selection.key? := by
  have hprepared := forall₂_prepare {} calls
  rw [h.made] at hprepared
  obtain ⟨renames, hselections⟩ :=
    exists_selectionsOf_rootContributions hprepared hindices hmem
  refine ⟨fun selection => (selection.mapVariables (variableName call.index)).mapSpreads
    renames.apply, ?_, fun key selection => ?_, fun selection => ?_⟩
  · rw [hselections, CallDocument.ownSelections, Selection.mapSpreadsAll_eq,
      Selection.mapVariablesAll_eq, List.map_map]
    rfl
  · rw [Selection.under?_mapSpreads, Selection.under?_mapVariables, Option.map_map]
    simp only [Selection.mapVariablesAll_eq, Function.comp_def, List.map_map]
  · rw [Selection.key?_mapSpreads, Selection.key?_mapVariables]

/-- **The mapping is exact for every call.** -/
theorem Assembled.mapsExactly (hindices : (calls.map CallDocument.index).Nodup)
    {call : CallDocument} (hmem : call ∈ calls) : batch.MapsExactly call := by
  obtain ⟨rename, hselections, hunder, -⟩ := h.exists_selectionsOf_own hindices hmem
  have hfields := Selection.fieldsAt_map hunder call.operation.selections
  rw [← hselections] at hfields
  constructor
  case nodup =>
    rw [h.mapping, PathMapping.keys_entries_ofPlacements]
    exact nodup_eraseDups _
  case mem_iff =>
    intro own
    rw [← Assoc.contains_iff_mem_keys, PathMapping.contains_entries, Option.isSome_iff_exists,
      h.exists_get?_iff, hfields, ne_eq, List.map_eq_nil_iff]
  case injective =>
    intro own other place hget hget'
    exact h.merges.placesApart call.index (atPath_rootContributions operations call.index)
      (h.leads_of_get? hget).1 (h.leads_of_get? hget').1
  case length_eq =>
    intro own place hget
    exact (h.leads_of_get? hget).2.2.length_eq
  case child =>
    intro own key place hget
    exact h.exists_above hget
  case reached =>
    intro own place hget
    obtain ⟨-, -, hleads⟩ := h.leads_of_get? hget
    obtain ⟨target, nested, hreached, hsame⟩ := hleads.reached
    rw [hfields] at hsame
    rw [h.selections]
    exact ⟨target, nested, hreached, fun found hfound => hsame _ (List.mem_map_of_mem hfound)⟩

/-- Every field of the merged operation that is reached through plain fields is one of a call. -/
theorem Assembled.exists_get?_eq_some {keys : List String}
    (hkeys : fieldsAt batch.operation.selections keys ≠ []) :
    ∃ call ∈ calls, ∃ own, batch.mapping.get? call.index own = some ⟨keys⟩ := by
  rw [h.selections] at hkeys
  obtain ⟨index, own, hplaced⟩ := h.merges.placesAll hkeys
  obtain ⟨contribution, hin, hindex⟩ := h.merges.exists_call hplaced
  have hoperations : operations = (prepare {} calls).2 := by rw [h.made]
  rw [hoperations] at hin
  obtain ⟨call, hmem, hcall⟩ := exists_call_of_rootContributions hin
  obtain rfl : call.index = index := hcall.trans hindex
  exact ⟨call, hmem, own, h.get?_eq_some hplaced⟩

end Assembled

/-- Of calls that were read the arguments are the same, and not only their texts. -/
theorem MadeOf.arguments_eq {calls : List CallDocument} {batch : MergedBatch}
    {registry : FragmentRegistry} {operations : List (Nat × Operation)} {merged : MergedSelections}
    (h : MadeOf calls batch registry operations merged) {call : CallDocument} (hmem : call ∈ calls)
    {keys keys' : List String} {target found : Field × List Selection}
    (htarget : target ∈ fieldsAt batch.operation.selections keys')
    (hfound : found ∈ fieldsAt call.operation.selections keys)
    (htext : target.1.argumentsText =
      (found.1.mapVariables (variableName call.index)).argumentsText) :
    target.1.arguments = (found.1.mapVariables (variableName call.index)).arguments := by
  obtain ⟨_, hlegal⟩ := Selection.legal_of_mem_fieldsAt h.legal.selections.all htarget
  obtain ⟨_, hlegal'⟩ := Selection.legal_of_mem_fieldsAt
    (h.parsed call hmem).legal.operation.selections.all hfound
  have hrenamed := hlegal'.mapVariables fun _ hname => isName_variableName call.index hname
  exact Argument.eq_of_listText_eq hlegal.arguments hrenamed.arguments htext

/--
**The path mapping is exact.**  For every call it has the fields that are reached through plain
fields, each once, and takes them, without putting two in one place, to fields of the merged
operation that are as deep, below those of the fields above them, alone at their paths, and ask
for the same.  There are no other fields in the merged operation.
-/
theorem mapping_exact {calls : List CallDocument} {batch : MergedBatch}
    (hindices : (calls.map CallDocument.index).Nodup) (hmerge : ofCalls calls = .ok batch) :
    (∀ call ∈ calls, batch.MapsExactly call) ∧
      (∀ keys, fieldsAt batch.operation.selections keys ≠ [] →
        ∃ call ∈ calls, ∃ own, batch.mapping.get? call.index own = some ⟨keys⟩) ∧
      ((∀ call ∈ calls, call.IsParsed) → ∀ call ∈ calls, ∀ own place,
        batch.mapping.get? call.index own = some place →
        ∀ target ∈ fieldsAt batch.operation.selections place.keys,
        ∀ found ∈ fieldsAt call.operation.selections own.keys,
          target.1.arguments = (found.1.mapVariables (variableName call.index)).arguments) := by
  obtain ⟨registry, operations, merged, hmade⟩ := exists_assembled hmerge
  refine ⟨fun call hmem => hmade.mapsExactly hindices hmem,
    fun keys hkeys => hmade.exists_get?_eq_some hkeys, ?_⟩
  intro hparsed call hmem own place hget target htarget found hfound
  obtain ⟨_, _, _, hlegal⟩ := exists_madeOf hparsed hmerge
  obtain ⟨one, nested, hone, hsame⟩ := (hmade.mapsExactly hindices hmem).reached hget
  obtain rfl : target = (one, nested) := by
    rw [hone] at htarget
    exact List.mem_singleton.mp htarget
  exact hlegal.arguments_eq hmem htarget hfound (hsame found hfound).2

/-- Two calls with a field twice, with variables, and with different fields under one key. -/
theorem mapping_exact_pair :
    ∃ calls batch, callsFrom 0
        ["query($v: Int) \x7b a(x: $v) \x7b b \x7d a(x: $v) \x7b c \x7d k: d \x7d",
          "\x7b k: e \x7b k \x7d ... \x7b a \x7d \x7d"] = .ok calls ∧
      ofCalls calls = .ok batch ∧ (∀ call ∈ calls, batch.MapsExactly call) ∧
      (∀ keys, fieldsAt batch.operation.selections keys ≠ [] →
        ∃ call ∈ calls, ∃ own, batch.mapping.get? call.index own = some ⟨keys⟩) ∧
      ∀ call ∈ calls, ∀ own place, batch.mapping.get? call.index own = some place →
        ∀ target ∈ fieldsAt batch.operation.selections place.keys,
        ∀ found ∈ fieldsAt call.operation.selections own.keys,
          target.1.arguments = (found.1.mapVariables (variableName call.index)).arguments := by
  have hmerged : (mergeQueries
      ["query($v: Int) \x7b a(x: $v) \x7b b \x7d a(x: $v) \x7b c \x7d k: d \x7d",
        "\x7b k: e \x7b k \x7d ... \x7b a \x7d \x7d"]).isOk = true := by
    decide +kernel
  obtain ⟨calls, batch, hcalls, hbatch⟩ := exists_of_mergeQueries hmerged
  obtain ⟨hexact, hcovers, harguments⟩ := mapping_exact (nodup_callsFrom hcalls) hbatch
  exact ⟨calls, batch, hcalls, hbatch, hexact, hcovers,
    harguments (isParsed_of_callsFrom hcalls)⟩

end MergedBatch

end QueryBatching
