/-
What one call has at a level of a merge.

Several selection sets of a call may be merged at one level, since a call may select a field more
than once; here they are taken together, in their order.  The mapping knows the fields of such a
level under the response keys of the call, each once and in the order of their first appearance,
and what the call has below a key is what stands below its slot.
-/
import QueryBatching.Proofs.Merge.Batch
import QueryBatching.Proofs.Merge.Routes
import QueryBatching.Proofs.Merge.Signatures
import QueryBatching.Proofs.Response.Server

namespace QueryBatching

open Selection (fieldsUnder responseKeys selectionsUnder)

/-- The selections of one call among contributions, one selection set after another. -/
def selectionsOf (call : Nat) (contributions : List Contribution) : List Selection :=
  contributions.flatMap fun contribution =>
    if contribution.call = call then contribution.selections else []

/-- The selection of an occurrence, if it is one of the call. -/
def Occurrence.of? (call : Nat) (occurrence : Occurrence) : Option Selection :=
  if occurrence.call = call then some occurrence.selection else none

theorem mem_selectionsOf {call : Nat} {contributions : List Contribution} {selection : Selection} :
    selection ∈ selectionsOf call contributions ↔
      ∃ contribution ∈ contributions, contribution.call = call ∧
        selection ∈ contribution.selections := by
  unfold selectionsOf
  rw [List.mem_flatMap]
  refine exists_congr fun contribution => and_congr_right fun _ => ?_
  split
  · rename_i hcall
    exact (and_iff_right hcall).symm
  · rename_i hcall
    simp [hcall]

theorem selectionsOf_eq (call : Nat) (contributions : List Contribution) :
    selectionsOf call contributions =
      (contributions.flatMap Contribution.occurrences).filterMap (Occurrence.of? call) := by
  unfold selectionsOf
  rw [List.filterMap_flatMap]
  refine List.flatMap_congr fun contribution _ => ?_
  unfold Contribution.occurrences
  rw [List.filterMap_map]
  split
  · rename_i hcall
    have hsome : Occurrence.of? call ∘ (fun selection =>
        (⟨contribution.call, contribution.path, selection⟩ : Occurrence)) = some :=
      funext fun selection => if_pos hcall
    rw [hsome, List.filterMap_some]
  · rename_i hcall
    have hnone : Occurrence.of? call ∘ (fun selection =>
        (⟨contribution.call, contribution.path, selection⟩ : Occurrence)) = fun _ => none :=
      funext fun selection => if_neg hcall
    rw [hnone, List.filterMap_none]

namespace MergedSelections

variable {merged path : FieldPath} {contributions : List Contribution} {call : Nat}

theorem hasField_iff {signature : FieldSignature} : HasField call contributions signature ↔
    ∃ head nested?, .field head nested? ∈ selectionsOf call contributions ∧
      head.signature = signature := by
  constructor
  · rintro ⟨contribution, hin, hcall, head, nested?, hselection, hsignature⟩
    exact ⟨head, nested?, mem_selectionsOf.mpr ⟨contribution, hin, hcall, hselection⟩, hsignature⟩
  · rintro ⟨head, nested?, hselection, hsignature⟩
    obtain ⟨contribution, hin, hcall, hselection⟩ := mem_selectionsOf.mp hselection
    exact ⟨contribution, hin, hcall, head, nested?, hselection, hsignature⟩

section Level

variable {level : Level}
  (hholds : Level.Holds merged (contributions.flatMap Contribution.occurrences) level)

include hholds

/-- The level places the call's fields one after another. -/
theorem ownChildren_placements (hpath : AtPath call path contributions) :
    PathMapping.ownChildren call path level.placements =
      ((selectionsOf call contributions).filterMap Selection.key?).map path.child := by
  rw [selectionsOf_eq, PathMapping.ownChildren, List.filterMap_filterMap, List.map_filterMap]
  have hat : ∀ occurrence ∈ contributions.flatMap Contribution.occurrences,
      occurrence.call = call → occurrence.path = path := by
    intro occurrence hmem hcall
    obtain ⟨contribution, hin, selection, -, rfl⟩ := mem_occurrences.mp hmem
    exact hpath contribution hin hcall
  have hplacements := hholds.placements
  generalize contributions.flatMap Contribution.occurrences = occurrences at hat hplacements
  generalize level.placements = placements at hplacements
  induction hplacements with
  | nil => rfl
  | @cons occurrence placement occurrences placements hplaced _ ih =>
      rw [List.forall_mem_cons] at hat
      rw [List.filterMap_cons, List.filterMap_cons, ih hat.2]
      have hhere : placement.child? call path =
          ((occurrence.of? call).bind Selection.key?).map path.child := by
        unfold Level.Placed at hplaced
        unfold Occurrence.of?
        split at hplaced
        · rename_i head nested? hselection
          obtain ⟨target, below?, -, rfl⟩ := hplaced
          rw [hselection]
          split
          · rename_i hcall
            rw [hat.1 hcall, hcall]
            exact Placement.child?_eq_some.mpr ⟨FieldPath.parent?_child _ _, _, rfl⟩
          · rename_i hcall
            rw [Placement.child?, Placement.own?, if_neg hcall]
            rfl
        · rename_i hselection
          rw [hplaced.2]
          split
          · cases hfield : occurrence.selection with
            | field head nested? => exact absurd hfield (hselection head nested?)
            | spread name directives => rfl
            | inlineFragment condition? directives nested => rfl
          · rfl
      rw [hhere]

/-- What stands below a key of the call is what it selects there. -/
theorem selectionsOf_below {signature : FieldSignature}
    (hfield : HasField call contributions signature) {below : List Contribution}
    (hbelow : contributionsBelow signature (contributions.flatMap Contribution.occurrences) =
      some below) :
    selectionsOf call below =
      selectionsUnder (selectionsOf call contributions) signature.responseKey := by
  obtain rfl := filterMap_of_contributionsBelow hbelow
  have hsame : ∀ occurrence ∈ contributions.flatMap Contribution.occurrences,
      ∀ head nested?, occurrence.selection = .field head nested? → occurrence.call = call →
      (head.responseKey = signature.responseKey ↔ head.signature = signature) := by
    intro occurrence hmem head nested? hselection hcall
    refine ⟨fun hkey => ?_, fun hsignature => hsignature ▸ rfl⟩
    obtain ⟨contribution, hin, selection, hin', rfl⟩ := mem_occurrences.mp hmem
    obtain rfl : selection = .field head nested? := hselection
    exact HasField.unique hholds ⟨contribution, hin, hcall, head, nested?, hin', rfl⟩ hfield hkey
  rw [selectionsOf_eq call contributions]
  unfold selectionsOf selectionsUnder fieldsUnder
  rw [List.filterMap_filterMap, flatMap_filterMap, flatMap_filterMap]
  refine List.flatMap_congr fun occurrence hmem => ?_
  cases hselection : occurrence.selection with
  | field head nested? =>
      rw [Occurrence.contribution?_field hselection, Occurrence.of?, hselection]
      by_cases hcall : occurrence.call = call
      · rw [if_pos hcall, Option.bind_some, Selection.under?]
        simp only [hsame occurrence hmem head nested? hselection hcall]
        split
        · cases nested? with
          | none => rfl
          | some nested => simp [Occurrence.below, hcall]
        · rfl
      · rw [if_neg hcall]
        split
        · cases nested? with
          | none => rfl
          | some nested => simp [Occurrence.below, hcall]
        · rfl
  | spread name directives =>
      rw [Occurrence.contribution?_fragment (by simp [hselection]), Occurrence.of?, hselection]
      split <;> rfl
  | inlineFragment condition? directives nested =>
      rw [Occurrence.contribution?_fragment (by simp [hselection]), Occurrence.of?, hselection]
      split <;> rfl

/-- Where a slot is a leaf the call selects nothing below the key. -/
theorem selectionsUnder_of_leaf {signature : FieldSignature}
    (hfield : HasField call contributions signature) {target : Field}
    (hslot : .field signature target none ∈ level.slots) :
    selectionsUnder (selectionsOf call contributions) signature.responseKey = [] := by
  rw [List.eq_nil_iff_forall_not_mem]
  intro selection hmem
  obtain ⟨head, nested, hselection, hkey, -⟩ := Selection.mem_selectionsUnder.mp hmem
  obtain ⟨contribution, hin, hcall, hselection⟩ := mem_selectionsOf.mp hselection
  have hsame : head.signature = signature := HasField.unique hholds
    ⟨contribution, hin, hcall, head, some nested, hselection, rfl⟩ hfield hkey
  have hshape := hholds.shape _ (mem_occurrences.mpr ⟨contribution, hin, _, hselection, rfl⟩)
    head (some nested) rfl
  rw [hsame, ← hholds.below hslot] at hshape
  exact Bool.false_ne_true hshape.symm

end Level

section Step

variable {P : FieldPath → List Contribution → MergedSelections → Prop} {level : Level}
  {parts : List MergedSelections}
  (hholds : Level.Holds merged (contributions.flatMap Contribution.occurrences) level)
  (hparts : List.Forall₂
    (Part (fun path below nested => Merges path below nested ∧ P path below nested) merged)
    level.slots parts)

include hholds hparts

/-! ### What the mapping knows -/

section Mapping

variable (hpath : AtPath call path contributions) {all : List Placement}
  (hall : all.filter (Placement.isBelow call path) =
    (level.placements ++ parts.flatMap placements).filter (Placement.isBelow call path))

include hpath hall

/-- **The mapping has the call's fields below the path**, in their order. -/
theorem ownChildren_eq : PathMapping.ownChildren call path all =
    ((selectionsOf call contributions).filterMap Selection.key?).map path.child := by
  have hnone : PathMapping.ownChildren call path (parts.flatMap placements) = [] := by
    unfold PathMapping.ownChildren
    rw [List.filterMap_eq_nil_iff]
    intro placement hmem
    rw [Option.eq_none_iff_forall_ne_some]
    intro own hown
    obtain ⟨hparent, place, rfl⟩ := Placement.child?_eq_some.mp hown
    exact parent?_ne_of_mem hholds hparts hpath hmem hparent
  rw [PathMapping.ownChildren_congr hall List.prefix_rfl]
  have hsplit : PathMapping.ownChildren call path (level.placements ++ parts.flatMap placements) =
      PathMapping.ownChildren call path level.placements ++
        PathMapping.ownChildren call path (parts.flatMap placements) := List.filterMap_append
  rw [hsplit, hnone, List.append_nil, ownChildren_placements hholds hpath]

/-- The fields of a call below a path are listed under their response keys, each once. -/
theorem childrenOf_eq : (PathMapping.ofPlacements all).childrenOf call path =
    (responseKeys (selectionsOf call contributions)).filterMap fun key =>
      ((PathMapping.ofPlacements all).get? call (path.child key)).map fun place =>
        (path.child key, place) := by
  rw [PathMapping.childrenOf_ofPlacements, ownChildren_eq hholds hparts hpath hall,
    eraseDups_map path.child_injective, List.filterMap_map]
  rfl

/-- Below a leaf of the call the mapping has nothing. -/
theorem hasChildren_of_leaf {signature : FieldSignature}
    (hfield : HasField call contributions signature) {target : Field}
    (hslot : .field signature target none ∈ level.slots) :
    (PathMapping.ofPlacements all).hasChildren call (path.child signature.responseKey) = false := by
  rw [Bool.eq_false_iff]
  intro hchildren
  have hne := (PathMapping.hasChildren_ofPlacements _ _).mp hchildren
  obtain ⟨own, hown⟩ := List.exists_mem_of_ne_nil _ hne
  obtain ⟨placement, hmem, hchild⟩ := List.mem_filterMap.mp hown
  obtain ⟨hparent, place, rfl⟩ := Placement.child?_eq_some.mp hchild
  obtain ⟨key, rfl⟩ := FieldPath.parent?_eq_some.mp hparent
  have hbelow : (path.child signature.responseKey).isBelow
      ((path.child signature.responseKey).child key) = true :=
    FieldPath.isBelow_iff.mpr ⟨key, List.prefix_rfl⟩
  have hmem' : .field call ((path.child signature.responseKey).child key) place ∈
      (level.placements ++ parts.flatMap placements).filter
        (Placement.isBelow call (path.child signature.responseKey)) := by
    rw [← Placement.filter_isBelow_child hall]
    exact List.mem_filter.mpr ⟨hmem, Placement.isBelow_iff.mpr ⟨_, _, rfl, hbelow⟩⟩
  rw [List.filter_append, filter_level_eq_nil hholds hpath, List.nil_append] at hmem'
  obtain ⟨part, hpart, hplaced⟩ := List.mem_flatMap.mp (List.mem_filter.mp hmem').1
  obtain ⟨slot, hin, hbecomes⟩ := Outcomes.exists_left hparts hpart
  obtain ⟨other, hother, hhas, hkeys⟩ :=
    (hbecomes.mono fun h => h.1.placesOwn call).placed hholds hin hpath hplaced
  obtain ⟨_, hkey⟩ := FieldPath.isBelow_iff.mp hkeys
  have hsame : other.responseKey = signature.responseKey :=
    FieldPath.key_unique ((List.prefix_append _ _).trans hkey) (List.prefix_append _ _)
  obtain rfl := hhas.unique hholds hfield hsame
  obtain rfl := hholds.slot_eq hin hslot hother rfl
  cases hbecomes with
  | leaf => exact absurd hplaced List.not_mem_nil

end Mapping

/-! ### What is executed -/

omit hparts in
/-- Slots with other keys have no fields under a key. -/
theorem fieldsUnder_parts_eq_nil {slots : List Slot} {others : List MergedSelections}
    (hothers : List.Forall₂
      (Part (fun path below nested => Merges path below nested ∧ P path below nested) merged)
      slots others) {key : String}
    (hslots : ∀ slot ∈ slots, slot ∈ level.slots ∧ slot.key? ≠ some key) :
    fieldsUnder (others.flatMap selections) key = [] := by
  unfold fieldsUnder
  rw [List.filterMap_eq_nil_iff]
  intro selection hmem
  obtain ⟨part, hpart, hselection⟩ := List.mem_flatMap.mp hmem
  obtain ⟨slot, hin, hbecomes⟩ := Outcomes.exists_left hothers hpart
  obtain ⟨hslot, hne⟩ := hslots slot hin
  cases hbecomes with
  | fragment kept =>
      obtain rfl := List.mem_singleton.mp hselection
      obtain ⟨-, -, -, hnot⟩ := hholds.fragments hslot
      cases selection with
      | field head nested? => exact absurd rfl (hnot head nested?)
      | spread name directives => rfl
      | inlineFragment condition? directives nested => rfl
  | leaf signature head =>
      obtain rfl := List.mem_singleton.mp hselection
      exact if_neg fun heq => hne (congrArg some heq)
  | field signature head below nested hnested =>
      obtain rfl := List.mem_singleton.mp hselection
      exact if_neg fun heq => hne (congrArg some heq)

/-- **A slot is one field of the merge**, under a key that no other slot has. -/
theorem fieldsUnder_slot {signature : FieldSignature} {target : Field}
    {below? : Option (List Contribution)} (hslot : .field signature target below? ∈ level.slots)
    {nested? : Option (List Selection)}
    (hselected : .field target nested? ∈ parts.flatMap selections) :
    fieldsUnder (parts.flatMap selections) target.responseKey = [(target, nested?.getD [])] := by
  obtain ⟨front, part, back, others, rfl, hbecomes, hothers, hne⟩ :=
    hholds.exists_alone hslot hparts
  have hnone := fieldsUnder_parts_eq_nil hholds hothers fun slot hin =>
    ⟨(hne slot hin).1, (hne slot hin).2.2⟩
  have hunder : (target, nested?.getD []) ∈
      fieldsUnder ((front ++ part :: back).flatMap selections) target.responseKey :=
    List.mem_filterMap.mpr ⟨_, hselected, if_pos rfl⟩
  have hsplit : fieldsUnder ((front ++ part :: back).flatMap selections) target.responseKey =
      fieldsUnder part.selections target.responseKey := by
    unfold fieldsUnder at hnone ⊢
    rw [List.flatMap_append, List.filterMap_append, List.append_eq_nil_iff] at hnone
    rw [List.flatMap_append, List.flatMap_cons, List.filterMap_append, List.filterMap_append,
      hnone.1, hnone.2, List.nil_append, List.append_nil]
  rw [hsplit] at hunder ⊢
  cases hbecomes with
  | leaf =>
      have hone : fieldsUnder [.field target none] target.responseKey = [(target, [])] := by
        simp [fieldsUnder, Selection.under?]
      rw [hone] at hunder ⊢
      rw [List.mem_singleton.mp hunder]
  | field _ _ below nested hnested =>
      have hone : fieldsUnder [.field target (some nested.selections)] target.responseKey =
          [(target, nested.selections)] := by
        simp [fieldsUnder, Selection.under?]
      rw [hone] at hunder ⊢
      rw [List.mem_singleton.mp hunder]

end Step

end MergedSelections

namespace MergedBatch

/-- **What a call has at the root** are its selections, with variables and spreads under their
merged names. -/
theorem exists_selectionsOf_rootContributions {calls : List CallDocument}
    {operations : List (Nat × Operation)}
    (hprepared : List.Forall₂ (fun call prepared => ∃ renames,
      prepared = (call.index, call.ownOperation renames)) calls operations)
    (hindices : (calls.map CallDocument.index).Nodup) {call : CallDocument} (hmem : call ∈ calls) :
    ∃ renames : FragmentRenames, selectionsOf call.index (rootContributions operations) =
      Selection.mapSpreadsAll renames.apply call.ownSelections := by
  have hsplit : ∀ index prepared others,
      selectionsOf index (rootContributions (prepared :: others)) =
        (if prepared.1 = index then prepared.2.selections else []) ++
          selectionsOf index (rootContributions others) := fun _ _ _ => rfl
  have hnone : ∀ {calls operations}, List.Forall₂ (fun call prepared => ∃ renames,
        prepared = (call.index, call.ownOperation renames)) calls operations →
      call.index ∉ calls.map CallDocument.index →
      selectionsOf call.index (rootContributions operations) = [] := by
    intro calls operations hprepared hnot
    induction hprepared with
    | nil => rfl
    | cons hfirst _ ih =>
        obtain ⟨renames, rfl⟩ := hfirst
        rw [List.map_cons, List.mem_cons, not_or] at hnot
        rw [hsplit, if_neg (Ne.symm hnot.1), ih hnot.2]
        rfl
  induction hprepared with
  | nil => exact absurd hmem List.not_mem_nil
  | @cons first prepared rest others hfirst hrest ih =>
      obtain ⟨renames, rfl⟩ := hfirst
      rw [List.map_cons, List.nodup_cons] at hindices
      rw [hsplit]
      rcases List.mem_cons.mp hmem with rfl | hmem
      · rw [if_pos rfl, hnone hrest hindices.1, List.append_nil]
        exact ⟨renames, rfl⟩
      · have hne : first.index ≠ call.index :=
          fun heq => hindices.1 (heq ▸ List.mem_map_of_mem hmem)
        rw [if_neg hne, List.nil_append]
        exact ih hindices.2 hmem

end MergedBatch

end QueryBatching
