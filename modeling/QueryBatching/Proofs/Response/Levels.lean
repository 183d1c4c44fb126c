/-
The levels of a call.

The mapping of a batch lists the fields of a call level by level.  At every level that the call
reaches through plain fields they stand under its response keys there, each once and in the order
in which the call first has them: what the mapping knows below a path was placed by the merge that
the path leads to, and that merge takes the call's selections one after another.  Fragments are
marked at the level where the call has them and at no other.
-/
import QueryBatching.Proofs.Response.ResponseKeys

namespace QueryBatching

open Selection (key? levelBelow responseKeys selectionsUnder)

/-- What changes selections one by one, and keeps where they stand, changes every level. -/
theorem Selection.levelBelow_map {f : Selection → Selection} {g : Field → Field}
    (hunder : ∀ key selection, under? key (f selection) =
      (under? key selection).map fun found => (g found.1, found.2.map f))
    (selections : List Selection) (keys : List String) :
    levelBelow (selections.map f) keys = (levelBelow selections keys).map f := by
  induction keys generalizing selections with
  | nil => rfl
  | cons key rest ih => rw [levelBelow, levelBelow, selectionsUnder_map hunder, ih]

namespace MergedSelections

variable {merged path : FieldPath} {contributions : List Contribution} {result : MergedSelections}
  {call : Nat}

/-- A merge is its level and what the slots become. -/
theorem Merges.exists_level (h : Merges merged contributions result) :
    ∃ level parts aliased,
      Level.Holds merged (contributions.flatMap Contribution.occurrences) level ∧
      List.Forall₂ (Part (fun path below nested => Merges path below nested ∧ True) merged)
        level.slots parts ∧
      result = ⟨parts.flatMap selections, level.placements ++ parts.flatMap placements,
        aliased⟩ := by
  refine Merges.induction (P := fun merged contributions result => ∃ level parts aliased,
    Level.Holds merged (contributions.flatMap Contribution.occurrences) level ∧
    List.Forall₂ (Part (fun path below nested => Merges path below nested ∧ True) merged)
      level.slots parts ∧
    result = ⟨parts.flatMap selections, level.placements ++ parts.flatMap placements,
      aliased⟩) ?_ h
  intro merged contributions level parts aliased hholds hparts
  exact ⟨level, parts, aliased, hholds,
    hparts.imp fun _ _ hpart => hpart.mono fun hnested => ⟨hnested.1, trivial⟩, rfl⟩

/-- **A merge places the fields of a call level by level**, in the order in which the call has
them. -/
theorem Merges.ownChildren_levelBelow (h : Merges merged contributions result)
    (hpath : AtPath call path contributions) (keys : List String) :
    PathMapping.ownChildren call ⟨path.keys ++ keys⟩ result.placements =
      ((levelBelow (selectionsOf call contributions) keys).filterMap key?).map
        (FieldPath.child ⟨path.keys ++ keys⟩) := by
  induction keys generalizing merged path contributions result with
  | nil =>
      obtain ⟨level, parts, aliased, hholds, hparts, rfl⟩ := h.exists_level
      rw [List.append_nil]
      exact ownChildren_eq hholds hparts hpath rfl
  | cons key rest ih =>
      by_cases hnone : selectionsUnder (selectionsOf call contributions) key = []
      · rw [levelBelow, hnone, Selection.levelBelow_nil, List.filterMap_nil, List.map_nil,
          PathMapping.ownChildren, List.filterMap_eq_nil_iff]
        intro placement hmem
        rw [Option.eq_none_iff_forall_ne_some]
        intro own hown
        obtain ⟨hparent, place, rfl⟩ := Placement.child?_eq_some.mp hown
        obtain ⟨last, rfl⟩ := FieldPath.parent?_eq_some.mp hparent
        obtain ⟨-, keys, hkeys, hfields⟩ := h.placesFields call hpath hmem
        obtain rfl : key :: rest ++ [last] = keys := by
          simpa [FieldPath.child] using hkeys
        rw [Selection.fieldsAt_concat, levelBelow, hnone, Selection.levelBelow_nil] at hfields
        exact hfields rfl
      · obtain ⟨selection, hselection⟩ := List.exists_mem_of_ne_nil _ hnone
        obtain ⟨head, nested, hfield, rfl, -⟩ := Selection.mem_selectionsUnder.mp hselection
        obtain ⟨contribution, hin, hcall, hselected⟩ := mem_selectionsOf.mp hfield
        obtain ⟨level, parts, aliased, hholds, hparts, rfl⟩ := h.exists_level
        obtain ⟨target, below, inner, -, -, hbelow, hmerges, -, -, hfilter⟩ :=
          descend hholds hparts hpath hin hcall hselected
        have hown : HasField call contributions head.signature :=
          hasField_iff.mpr ⟨head, some nested, hfield, rfl⟩
        have hlevel := ih hmerges (hpath.below hbelow)
        rw [selectionsOf_below hholds hown hbelow] at hlevel
        have hkeys : (⟨(path.child head.responseKey).keys ++ rest⟩ : FieldPath) =
            ⟨path.keys ++ head.responseKey :: rest⟩ := by simp
        change PathMapping.ownChildren call ⟨(path.child head.responseKey).keys ++ rest⟩ _ =
          (List.filterMap key? (levelBelow _ rest)).map
            (FieldPath.child ⟨(path.child head.responseKey).keys ++ rest⟩) at hlevel
        rw [hkeys] at hlevel
        rw [PathMapping.ownChildren_congr hfilter ⟨rest, by simp⟩]
        exact hlevel

/-- What a level marks for a call is marked at its path, for a fragment of the call. -/
theorem fragment_of_placed {level : Level}
    (hholds : Level.Holds merged (contributions.flatMap Contribution.occurrences) level)
    (hpath : AtPath call path contributions) {place : FieldPath}
    (hmem : .fragments call place ∈ level.placements) :
    place = path ∧ ∃ selection ∈ selectionsOf call contributions, selection.key? = none := by
  obtain ⟨occurrence, hoccurrence, hplaced⟩ := Outcomes.exists_left hholds.placements hmem
  obtain ⟨contribution, hin, selection, hselection, rfl⟩ := mem_occurrences.mp hoccurrence
  unfold Level.Placed at hplaced
  split at hplaced
  · obtain ⟨_, _, -, heq⟩ := hplaced
    simp at heq
  · rename_i hnot
    obtain ⟨hcall, hplace⟩ := Placement.fragments.inj hplaced.2
    refine ⟨hplace.trans (hpath contribution hin hcall.symm), selection,
      mem_selectionsOf.mpr ⟨contribution, hin, hcall.symm, hselection⟩, ?_⟩
    cases selection with
    | field head nested? => exact absurd rfl (hnot head nested?)
    | spread name directives => rfl
    | inlineFragment condition? directives nested => rfl

/-- Nothing is marked for a call but at its path and further down. -/
theorem Merges.prefix_of_fragments (h : Merges merged contributions result)
    (hpath : AtPath call path contributions) {place : FieldPath}
    (hmem : .fragments call place ∈ result.placements) : path.keys <+: place.keys := by
  revert hmem
  refine Merges.induction (P := fun _ contributions result => ∀ {path},
    AtPath call path contributions → .fragments call place ∈ result.placements →
      path.keys <+: place.keys) ?_ h hpath
  intro merged contributions level parts aliased hholds hparts path hpath hmem
  rcases List.mem_append.mp hmem with hmem | hmem
  · rw [(fragment_of_placed hholds hpath hmem).1]
  · obtain ⟨signature, head, below, nested, hslot, hnested, hplaced⟩ :=
      exists_nested_of_placed hparts hmem
    have hbelow := (hholds.below hslot).symm
    exact (List.prefix_append _ _).trans (hnested.2 (hpath.below hbelow) hplaced)

/-- **Fragments are marked where the call has them.** -/
theorem Merges.fragments_iff (h : Merges merged contributions result)
    (hpath : AtPath call path contributions) :
    .fragments call path ∈ result.placements ↔
      ∃ selection ∈ selectionsOf call contributions, selection.key? = none := by
  obtain ⟨level, parts, aliased, hholds, hparts, rfl⟩ := h.exists_level
  constructor
  · intro hmem
    rcases List.mem_append.mp hmem with hmem | hmem
    · exact (fragment_of_placed hholds hpath hmem).2
    · obtain ⟨signature, head, below, nested, hslot, hnested, hplaced⟩ :=
        exists_nested_of_placed hparts hmem
      have hbelow := (hholds.below hslot).symm
      have hlength := (hnested.1.prefix_of_fragments (hpath.below hbelow) hplaced).length_le
      exact absurd hlength (by simp)
  · rintro ⟨selection, hmem, hkey⟩
    obtain ⟨contribution, hin, rfl, hselection⟩ := mem_selectionsOf.mp hmem
    obtain ⟨placement, hplacement, hplaced⟩ := Outcomes.exists_right hholds.placements
      (mem_occurrences.mpr ⟨contribution, hin, selection, hselection, rfl⟩)
    have hmarked : placement = .fragments contribution.call contribution.path := by
      cases selection with
      | field head nested? => simp [key?] at hkey
      | spread name directives => exact hplaced.2
      | inlineFragment condition? directives nested => exact hplaced.2
    rw [hmarked, hpath contribution hin rfl] at hplacement
    exact List.mem_append_left _ hplacement

end MergedSelections

/-- The key under which a merged response has a call's field. -/
def PathMapping.servedKey (mapping : PathMapping) (call : Nat) (own : FieldPath) : String :=
  ((mapping.get? call own).bind FieldPath.last?).getD ""

theorem PathMapping.servedKey_eq {mapping : PathMapping} {call : Nat} {own merged : FieldPath}
    {key : String} (h : mapping.get? call own = some (merged.child key)) :
    mapping.servedKey call own = key := by
  simp [servedKey, h]

/-- The response keys that a call has at a path, each once, in order of first appearance. -/
def CallDocument.keysAt (call : CallDocument) (path : FieldPath) : List String :=
  responseKeys (levelBelow call.operation.selections path.keys)

theorem CallDocument.nodup_keysAt (call : CallDocument) (path : FieldPath) :
    (call.keysAt path).Nodup := nodup_eraseDups _

namespace MergedBatch

variable {calls : List CallDocument} {batch : MergedBatch} {registry : FragmentRegistry}
  {operations : List (Nat × Operation)} {merged : MergedSelections}
  (h : Assembled calls batch registry operations merged)
  (hindices : (calls.map CallDocument.index).Nodup) {call : CallDocument} (hmem : call ∈ calls)

include h hindices hmem

/-- A call has the same keys at every level of the batch that it has alone, and fragments at the
same places. -/
theorem Assembled.map_key?_levelBelow (keys : List String) :
    (levelBelow (selectionsOf call.index (rootContributions operations)) keys).map key? =
      (levelBelow call.operation.selections keys).map key? := by
  obtain ⟨rename, hselections, hunder, hkey⟩ := h.exists_selectionsOf_own hindices hmem
  rw [hselections, Selection.levelBelow_map hunder, List.map_map]
  exact List.map_congr_left fun selection _ => hkey selection

theorem Assembled.eraseDups_ownChildren (path : FieldPath) :
    (PathMapping.ownChildren call.index path merged.placements).eraseDups =
      (call.keysAt path).map path.child := by
  have hpath := atPath_rootContributions operations call.index
  have hchildren := h.merges.ownChildren_levelBelow hpath path.keys
  have hlevel := congrArg (List.filterMap id) (h.map_key?_levelBelow hindices hmem path.keys)
  rw [List.filterMap_map, List.filterMap_map] at hlevel
  change PathMapping.ownChildren call.index path merged.placements =
    ((levelBelow _ path.keys).filterMap (id ∘ key?)).map path.child at hchildren
  rw [hchildren, hlevel]
  exact eraseDups_map path.child_injective _

/-- **The mapping lists the response keys of a call at every path**, in their order. -/
theorem Assembled.filter_keys_entries (path : FieldPath) :
    (Assoc.keys (batch.mapping.entries call.index)).filter
        (fun own => own.parent? = some path) =
      (call.keysAt path).map path.child := by
  rw [h.mapping, PathMapping.filter_keys_entries_ofPlacements,
    h.eraseDups_ownChildren hindices hmem]

/-- Each response key of a call is served under a key one below the place of its path. -/
theorem Assembled.exists_served {path : FieldPath} {key : String} (hkey : key ∈ call.keysAt path) :
    ∃ above, batch.mapping.mergedPath? call.index path = some above ∧
      batch.mapping.get? call.index (path.child key) =
        some (above.child (batch.mapping.servedKey call.index (path.child key))) := by
  have hlisted : path.child key ∈ (call.keysAt path).map path.child := List.mem_map_of_mem hkey
  rw [← h.filter_keys_entries hindices hmem] at hlisted
  have hentry := (Assoc.contains_iff_mem_keys _ _).mpr (List.mem_filter.mp hlisted).1
  obtain ⟨place, hplace⟩ := Option.isSome_iff_exists.mp hentry
  obtain ⟨above, mergedKey, habove, rfl⟩ := h.exists_above hplace
  rw [PathMapping.servedKey_eq hplace]
  exact ⟨above, habove, hplace⟩

/-- A call selects fragments at the root where it has any there. -/
theorem Assembled.selectsFragments_root_iff :
    batch.mapping.selectsFragments call.index FieldPath.root = true ↔
      ∃ selection ∈ call.operation.selections, selection.key? = none := by
  rw [h.mapping, PathMapping.selectsFragments_ofPlacements,
    h.merges.fragments_iff (atPath_rootContributions operations call.index)]
  have hkeys := h.map_key?_levelBelow hindices hmem []
  have hnone : ∀ selections : List Selection, (∃ selection ∈ selections, selection.key? = none) ↔
      none ∈ selections.map key? := fun selections => List.mem_map.symm
  rw [hnone, hnone]
  exact iff_of_eq (congrArg (none ∈ ·) hkeys)

end MergedBatch

end QueryBatching
