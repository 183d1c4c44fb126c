/-
Merged selections merge to themselves.

What a merge makes is settled: at every level each field has a response key of its own and a
normal alias, and no fragment stands there twice.  Nothing in settled selections clashes, so they
can be merged again; nothing in them is said twice, so their union keeps all of it; and no alias
of theirs is left to be made normal.  What a merge makes of them is therefore what they are.
-/
import QueryBatching.Proofs.Merge.Normal
import QueryBatching.Proofs.Merge.Repetition

namespace QueryBatching

/-- Where one item alone gives something, all items give what it gives. -/
theorem flatMap_eq_of_alone {α β : Type} {f : α → List β} {items : List α} {item : α}
    (hnodup : items.Nodup) (hmem : item ∈ items)
    (hother : ∀ other ∈ items, other ≠ item → f other = []) : items.flatMap f = f item := by
  obtain ⟨front, back, rfl⟩ := List.append_of_mem hmem
  rw [List.nodup_middle, List.nodup_cons, List.mem_append, not_or] at hnodup
  obtain ⟨⟨hfront, hback⟩, -⟩ := hnodup
  have hbefore : front.flatMap f = [] := List.flatMap_eq_nil_iff.mpr fun other hin =>
    hother other (List.mem_append_left _ hin) (ne_of_mem_of_not_mem hin hfront)
  have hbehind : back.flatMap f = [] := List.flatMap_eq_nil_iff.mpr fun other hin =>
    hother other (List.mem_append_right _ (List.mem_cons_of_mem _ hin))
      (ne_of_mem_of_not_mem hin hback)
  rw [List.flatMap_append, List.flatMap_cons, hbefore, hbehind, List.nil_append, List.append_nil]

namespace Selection

/-! ### Settled selections -/

/-- What a selection is told by from the others of a merged level. -/
inductive Label where
  /-- The response key of a field. -/
  | key (key : String)
  /-- The canonical text of a spread or an inline fragment. -/
  | text (text : String)

/-- The label of whatever has the identity. -/
def Identity.label : Identity → Label
  | .field signature => .key signature.responseKey
  | .fragment text => .text text

/-- The label of a selection. -/
def label (selection : Selection) : Label := selection.identity.label

/-- Selections that a merge leaves as they are. -/
inductive Settled : List Selection → Prop
  | intro {selections : List Selection}
    (labels : (selections.map label).Nodup)
    (normal : ∀ head nested?, .field head nested? ∈ selections → head.normal = head)
    (below : ∀ head nested, .field head (some nested) ∈ selections → Settled nested) :
    Settled selections

theorem settled_nil : Settled [] :=
  .intro List.nodup_nil (fun _ _ hmem => absurd hmem List.not_mem_nil)
    fun _ _ hmem => absurd hmem List.not_mem_nil

namespace Settled

variable {selections : List Selection}

/-- A settled level has one field of each response key. -/
theorem eq_of_key (h : Settled selections) {a b : Field} {a? b? : Option (List Selection)}
    (ha : .field a a? ∈ selections) (hb : .field b b? ∈ selections)
    (hkey : a.responseKey = b.responseKey) : Selection.field a a? = .field b b? := by
  obtain ⟨hlabels, -, -⟩ := h
  exact List.inj_on_of_nodup_map hlabels ha hb (congrArg Label.key hkey)

theorem nodup_identity (h : Settled selections) : (selections.map identity).Nodup := by
  obtain ⟨hlabels, -, -⟩ := h
  refine List.Nodup.of_map Identity.label ?_
  rw [List.map_map]
  exact hlabels

/-- What is selected below a signature is what its only field selects. -/
theorem selectedBelow_eq (h : Settled selections) {head : Field} {nested : List Selection}
    (hmem : .field head (some nested) ∈ selections) :
    Selection.selectedBelow selections head.signature = nested := by
  have hother : ∀ other ∈ selections, other ≠ .field head (some nested) →
      nestedOf head.signature other = [] := by
    intro other hin hne
    unfold nestedOf
    split
    · rename_i own selections
      split
      · rename_i hsignature
        exact absurd (h.eq_of_key hin hmem (congrArg FieldSignature.responseKey hsignature)) hne
      · rfl
    · rfl
  rw [Selection.selectedBelow,
    flatMap_eq_of_alone (List.Nodup.of_map _ h.nodup_identity) hmem hother, nestedOf, if_pos rfl]

theorem selectedBelow (h : Settled selections) (signature : FieldSignature) :
    Settled (selectedBelow selections signature) := by
  by_cases hfield : ∃ head nested, .field head (some nested) ∈ selections ∧
      head.signature = signature
  · obtain ⟨head, nested, hmem, rfl⟩ := hfield
    rw [h.selectedBelow_eq hmem]
    obtain ⟨-, -, hbelow⟩ := h
    exact hbelow head nested hmem
  · have hnone : Selection.selectedBelow selections signature = [] := by
      refine List.flatMap_eq_nil_iff.mpr fun selection hmem => ?_
      unfold nestedOf
      split
      · rename_i head nested
        exact if_neg fun hsignature => hfield ⟨head, nested, hmem, hsignature⟩
      · rfl
    rw [hnone]
    exact settled_nil

theorem levelAt (h : Settled selections) (path : List FieldSignature) :
    Settled (levelAt selections path) := by
  induction path generalizing selections with
  | nil => exact h
  | cons signature path ih => exact ih (h.selectedBelow signature)

/-- Settled selections ask for one thing under each key of each place. -/
theorem consistent (h : Settled selections) : Consistent selections := by
  rintro path _ _ _ _ ⟨a, a?, ha, rfl, -⟩ ⟨b, b?, hb, rfl, -⟩ hkey
  obtain ⟨rfl, -⟩ := Selection.field.inj ((h.levelAt path).eq_of_key ha hb hkey)
  rfl

/-- A field of settled selections always has selections below it or never has. -/
theorem composite_eq (h : Settled selections) {path : List FieldSignature}
    {signature : FieldSignature} {composite composite' : Bool}
    (ha : Selects selections path signature composite)
    (hb : Selects selections path signature composite') : composite = composite' := by
  obtain ⟨a, a?, ha, rfl, rfl⟩ := ha
  obtain ⟨b, b?, hb, hsame, rfl⟩ := hb
  obtain ⟨-, rfl⟩ := Selection.field.inj ((h.levelAt path).eq_of_key ha hb
    (congrArg FieldSignature.responseKey hsame.symm))
  rfl

/-- **Settled selections are their own union.** -/
theorem union_eq_self (h : Settled selections) : union selections = selections := by
  have hsettled := h
  induction h with
  | @intro selections labels normal below ih =>
      rw [union_eq, keepsFirsts_firsts.eq_self_of_nodup hsettled.nodup_identity]
      refine (List.map_congr_left fun selection hmem => ?_).trans (List.map_id selections)
      cases selection with
      | field head nested? =>
          cases nested? with
          | none => rfl
          | some nested =>
              rw [mapNested, hsettled.selectedBelow_eq hmem,
                ih head nested hmem (below head nested hmem)]
              rfl
      | spread name directives => rfl
      | inlineFragment condition? directives nested => rfl

/-- **Settled selections have normal aliases.** -/
theorem normalAll_eq_self (h : Settled selections) : normalAll selections = selections := by
  induction h with
  | @intro selections labels normal below ih =>
      rw [normalAll_eq]
      refine (List.map_congr_left fun selection hmem => ?_).trans (List.map_id selections)
      cases selection with
      | field head nested? =>
          cases nested? with
          | none => rw [Selection.normal, normal head none hmem, id]
          | some nested =>
              rw [Selection.normal, normal head (some nested) hmem, ih head nested hmem, id]
      | spread name directives => rfl
      | inlineFragment condition? directives nested => rfl

end Settled

end Selection

open Selection (Label Settled)

/-! ### Merged levels -/

/-- The label of what a slot becomes. -/
def Slot.label : Slot → Label
  | .field _ head _ => .key head.responseKey
  | .fragment selection => .text selection.text

theorem Slot.label_extend (signature : FieldSignature) (contribution : Contribution)
    (slot : Slot) : (slot.extend signature contribution).label = slot.label := by
  cases slot with
  | field own head below? =>
      rw [extend]
      split
      · rfl
      · rfl
  | fragment selection => rfl

namespace Level

/-- An addition opens a slot only under a label that no slot has. -/
theorem nodup_label_add {merged : FieldPath} {level result : Level} {occurrence : Occurrence}
    (h : (level.slots.map Slot.label).Nodup) (hadd : add merged level occurrence = .ok result) :
    (result.slots.map Slot.label).Nodup := by
  have hconcat : ∀ slot : Slot, (∀ other ∈ level.slots, other.label ≠ slot.label) →
      ((level.slots ++ [slot]).map Slot.label).Nodup := by
    intro slot hnew
    rw [List.map_append]
    refine List.Nodup.append h (List.nodup_singleton _) (List.disjoint_singleton.mpr fun hmem => ?_)
    obtain ⟨other, hother, heq⟩ := List.mem_map.mp hmem
    exact hnew other hother heq
  cases adds_of_add hadd with
  | fragment hfragment heq =>
      subst heq
      rw [addFragment]
      dsimp only
      split
      · exact h
      · rename_i hnone
        refine hconcat _ fun other hother heq => hnone (List.any_eq_true.mpr ⟨other, hother, ?_⟩)
        cases other with
        | field signature head below? => simp [Slot.label] at heq
        | fragment selection => exact beq_iff_eq.mpr (Label.text.inj heq)
  | opens head nested? hadds hnew hslots =>
      rw [hslots]
      refine hconcat _ fun other hother heq => ?_
      cases other with
      | field signature target below? =>
          refine responseKey_newHead_notMem level occurrence.call head ?_
          exact List.mem_filterMap.mpr ⟨_, hother, congrArg some (Label.key.inj heq)⟩
      | fragment selection => simp [Slot.label] at heq
  | joins head nested? target below? hadds hslot hshape hslots =>
      rw [hslots]
      cases nested? with
      | none => exact h
      | some nested =>
          rw [joined, List.map_map]
          have hsame : Slot.label ∘ Slot.extend head.signature (occurrence.below head nested) =
              Slot.label := funext fun slot => Slot.label_extend _ _ slot
          rw [hsame]
          exact h

/-- **No two slots of a level have one label.** -/
theorem nodup_label_of_foldlM {merged : FieldPath} {occurrences : List Occurrence} {level : Level}
    (h : occurrences.foldlM (add merged) {} = .ok level) :
    (level.slots.map Slot.label).Nodup := by
  induction occurrences using List.reverseRecOn generalizing level with
  | nil =>
      obtain rfl := Except.ok.inj h
      exact List.nodup_nil
  | append_singleton front last ih =>
      obtain ⟨middle, hfront, hadd⟩ := Outcomes.foldlM_concat_eq_ok.mp h
      exact nodup_label_add (ih hfront) hadd

end Level

namespace MergedSelections

/-- What slots become has their labels. -/
theorem map_label_of_parts {P : FieldPath → List Contribution → MergedSelections → Prop}
    {merged : FieldPath} {occurrences : List Occurrence} {level : Level}
    (hholds : Level.Holds merged occurrences level) {slots : List Slot}
    (hslots : ∀ slot ∈ slots, slot ∈ level.slots) {parts : List MergedSelections}
    (hparts : List.Forall₂ (Part P merged) slots parts) :
    (parts.flatMap selections).map Selection.label = slots.map Slot.label := by
  induction hparts with
  | nil => rfl
  | @cons slot part slots parts hpart _ ih =>
      rw [List.forall_mem_cons] at hslots
      rw [List.flatMap_cons, List.map_append, ih hslots.2, List.map_cons]
      cases hpart with
      | leaf signature head => rfl
      | field signature head below nested hnested => rfl
      | fragment selection =>
          obtain ⟨_, -, rfl, hfragment⟩ := hholds.fragments hslots.1
          rw [List.map_singleton, Selection.label, Selection.identity_of_not_field hfragment]
          rfl

/-- **What a merge makes is settled.** -/
theorem Merges.settled {merged : FieldPath} {contributions : List Contribution}
    {result : MergedSelections} (h : Merges merged contributions result) :
    Settled result.selections := by
  refine Merges.levels (P := fun _ _ result => Settled result.selections) ?_ h
  intro merged contributions level parts aliased hlevel hparts
  have hholds := Level.holds_ofContributions hlevel
  have hfield : ∀ head nested?, .field head nested? ∈ parts.flatMap selections →
      head.normal = head ∧ ∀ nested, nested? = some nested → Settled nested := by
    intro head nested? hmem
    obtain ⟨part, hpart, hselection⟩ := List.mem_flatMap.mp hmem
    obtain ⟨slot, hslot, hbecomes⟩ := Outcomes.exists_left hparts hpart
    cases hbecomes with
    | fragment selection =>
        obtain ⟨_, -, rfl, hfragment⟩ := hholds.fragments hslot
        exact absurd (List.mem_singleton.mp hselection).symm (hfragment head nested?)
    | leaf signature target =>
        obtain ⟨rfl, rfl⟩ := Selection.field.inj (List.mem_singleton.mp hselection)
        exact ⟨hholds.normal_target hslot, fun nested hnone => absurd hnone (by simp)⟩
    | field signature target below nested hnested =>
        obtain ⟨rfl, rfl⟩ := Selection.field.inj (List.mem_singleton.mp hselection)
        refine ⟨hholds.normal_target hslot, fun own hsome => ?_⟩
        obtain rfl := Option.some.inj hsome
        exact hnested.2
  refine .intro ?_ (fun head nested? hmem => (hfield head nested? hmem).1)
    fun head nested hmem => (hfield head (some nested) hmem).2 nested rfl
  show ((parts.flatMap selections).map Selection.label).Nodup
  rw [map_label_of_parts hholds (fun _ hslot => hslot) hparts]
  exact Level.nodup_label_of_foldlM hlevel

end MergedSelections

end QueryBatching
