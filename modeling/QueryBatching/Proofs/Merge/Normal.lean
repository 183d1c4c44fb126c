/-
Merges that make up no response keys.

A merge makes up a key only where two different fields of one place ask for the same one.  Where
none do, each field of the merged operation has the key it asked for, and all that is left of the
alias as it was written is whether it was needed: `a: a` becomes `a`.  So the merged selections
are the union of what is contributed with every alias normal, and not only up to aliases.
-/
import QueryBatching.Proofs.Merge.Union

namespace QueryBatching

/-! ### Normal aliases -/

namespace Field

/-- The field with an alias only where its response key is not its name. -/
def normal (field : Field) : Field :=
  { field with alias? := if field.responseKey = field.name then none else some field.responseKey }

/-- Fields that differ in their aliases alone have one normal form if they have one key. -/
theorem normal_withAlias {field : Field} {alias? : Option String}
    (hkey : { field with alias? }.responseKey = field.responseKey) :
    { field with alias? }.normal = field.normal := by
  unfold normal
  rw [hkey]

end Field

theorem Level.normal_newHead (level : Level) (call : Nat) (head : Field) :
    (level.newHead call head).normal = level.newHead call head := by
  rw [Field.normal, responseKey_newHead]
  rfl

namespace Selection

mutual

/-- The selection with normal aliases, through plain fields at any depth. -/
def normal : Selection → Selection
  | .field head none => .field head.normal none
  | .field head (some nested) => .field head.normal (some (normalAll nested))
  | selection => selection

/-- The selections with normal aliases. -/
def normalAll : List Selection → List Selection
  | [] => []
  | selection :: rest => normal selection :: normalAll rest

end

theorem normalAll_eq (selections : List Selection) :
    normalAll selections = selections.map normal := by
  induction selections with
  | nil => rfl
  | cons selection rest ih => rw [normalAll, ih, List.map_cons]

theorem normal_of_not_field {selection : Selection}
    (h : ∀ head nested?, selection ≠ .field head nested?) : selection.normal = selection := by
  cases selection with
  | field head nested? => exact absurd rfl (h head nested?)
  | spread name directives => rfl
  | inlineFragment condition? directives nested => rfl

/-! ### Selections that ask for one thing under each key -/

/-- Two fields of one place have one response key only if they have one signature. -/
def Consistent (selections : List Selection) : Prop :=
  ∀ path a b composite composite', Selects selections path a composite →
    Selects selections path b composite' → a.responseKey = b.responseKey → a = b

theorem Consistent.selectedBelow {selections : List Selection} (h : Consistent selections)
    (signature : FieldSignature) : Consistent (selectedBelow selections signature) :=
  fun path => h (signature :: path)

/-- The fields of a level that is consistent have the signatures of their keys. -/
theorem Consistent.signature_eq {selections : List Selection} (h : Consistent selections)
    {a b : Field} {a? b? : Option (List Selection)} (ha : .field a a? ∈ selections)
    (hb : .field b b? ∈ selections) (hkey : a.responseKey = b.responseKey) :
    a.signature = b.signature :=
  h [] a.signature b.signature a?.isSome b?.isSome ⟨a, a?, ha, rfl, rfl⟩ ⟨b, b?, hb, rfl, rfl⟩ hkey

end Selection

open Selection (Consistent selectedBelow union)

/-! ### Levels -/

namespace Level

/-- The slots of a level have the response keys of their signatures. -/
def KeepsKeys (level : Level) : Prop :=
  ∀ signature target below?, .field signature target below? ∈ level.slots →
    target.responseKey = signature.responseKey

variable {merged : FieldPath} {selections : List Selection} {occurrences : List Occurrence}

/-- A slot that is opened for the only field of its key gets that key. -/
theorem KeepsKeys.add {level result : Level} {occurrence : Occurrence} (h : level.KeepsKeys)
    (hholds : Holds merged occurrences level) (hconsistent : Consistent selections)
    (hselections : ∀ other ∈ occurrences ++ [occurrence], other.selection ∈ selections)
    (hadd : Level.add merged level occurrence = .ok result) : result.KeepsKeys := by
  intro signature target below? hslot
  cases adds_of_add hadd with
  | fragment hfragment heq =>
      subst heq
      obtain ⟨more, hslots, hmore⟩ :=
        slots_addFragment level occurrence.call occurrence.path occurrence.selection
      rw [hslots] at hslot
      rcases hmore with ⟨rfl, -⟩ | rfl
      · exact h _ _ _ (by simpa using hslot)
      · exact h _ _ _ (by simpa using hslot)
  | joins head nested? own own? hadds hown hshape hslots =>
      rw [hslots, field_mem_joined] at hslot
      obtain ⟨before?, hbefore, -⟩ := hslot
      exact h _ _ _ hbefore
  | opens head nested? hadds hnew hslots =>
      rw [hslots] at hslot
      rcases List.mem_append.mp hslot with hslot | hslot
      · exact h _ _ _ hslot
      · obtain ⟨rfl, rfl, -⟩ := Slot.field.inj (List.mem_singleton.mp hslot)
        rw [responseKey_newHead, freeKey, if_neg]
        · rfl
        -- Whatever has taken the key has asked for it, and is then the same field.
        · intro htaken
          obtain ⟨slot, hother, hkey⟩ := List.mem_filterMap.mp htaken
          cases slot with
          | fragment selection => simp [Slot.key?] at hkey
          | field taken other other? =>
              obtain ⟨_, before, _, own, own?, -, hsplit, hown, rfl, -⟩ := hholds.opened hother
              have hbefore := hselections before (by simp [hsplit])
              have hlast := hselections occurrence (by simp)
              rw [hown] at hbefore
              rw [hadds.selection] at hlast
              have hsame : own.responseKey = head.responseKey :=
                (h _ _ _ hother).symm.trans (Option.some.inj hkey)
              exact hnew _ hother
                (congrArg some (hconsistent.signature_eq hbefore hlast hsame))

/-- **Where each key is asked for by one field, every slot keeps its key.** -/
theorem keepsKeys_of_foldlM {level : Level} (hconsistent : Consistent selections)
    (hselections : ∀ occurrence ∈ occurrences, occurrence.selection ∈ selections)
    (h : occurrences.foldlM (add merged) {} = .ok level) : level.KeepsKeys := by
  induction occurrences using List.reverseRecOn generalizing level with
  | nil =>
      obtain rfl := Except.ok.inj h
      exact fun _ _ _ hslot => absurd hslot List.not_mem_nil
  | append_singleton front last ih =>
      obtain ⟨middle, hfront, hadd⟩ := Outcomes.foldlM_concat_eq_ok.mp h
      have hmiddle := ih (fun occurrence hmem =>
        hselections occurrence (List.mem_append_left _ hmem)) hfront
      exact hmiddle.add (holds_of_foldlM hfront) hconsistent hselections hadd

/-- The field of a slot has a normal alias. -/
theorem Holds.normal_target {level : Level} (h : Holds merged occurrences level)
    {signature : FieldSignature} {target : Field} {below? : Option (List Contribution)}
    (hslot : .field signature target below? ∈ level.slots) : target.normal = target := by
  obtain ⟨_, occurrence, _, head, _, earlier, -, -, -, -, rfl⟩ := h.opened hslot
  exact normal_newHead earlier occurrence.call head

end Level

/-! ### Merges -/

namespace MergedSelections

section Step

variable {merged : FieldPath} {contributions : List Contribution} {level : Level}
  (hholds : Level.Holds merged (contributions.flatMap Contribution.occurrences) level)
  (hkeeps : level.KeepsKeys)
  (hconsistent : Consistent (contributedSelections contributions))

include hholds hkeeps hconsistent

/-- What a slot becomes has a normal alias, and so has everything below it. -/
theorem normal_of_part {first : Selection} {slot : Slot} {part : MergedSelections}
    (hslot : slot ∈ level.slots) (hopened : Slot.OpenedBy first slot)
    (hpart : Part (fun path below nested => Merges path below nested ∧
      (Consistent (contributedSelections below) →
        nested.selections = Selection.normalAll (union (contributedSelections below))))
      merged slot part) :
    List.Forall₂ (fun selection result => selection.normal = result)
      [first.mapNested fun signature =>
        union (selectedBelow (contributedSelections contributions) signature)]
      part.selections := by
  cases hopened with
  | fragment _ hfragment =>
      cases hpart with
      | fragment =>
          rw [Selection.mapNested_of_not_field hfragment]
          exact .cons (Selection.normal_of_not_field hfragment) .nil
  | field head nested? alias? below? hshape =>
      have htarget : head.normal = { head with alias? } := by
        rw [← hholds.normal_target hslot, Field.normal_withAlias (hkeeps _ _ _ hslot)]
      cases hpart with
      | leaf =>
          obtain rfl := Option.isNone_iff_eq_none.mp (Option.isSome_eq_false_iff.mp hshape.symm)
          exact .cons (congrArg (Selection.field · none) htarget) .nil
      | field signature target below nested hnested =>
          obtain ⟨own, rfl⟩ := Option.isSome_iff_exists.mp hshape.symm
          have hbelow := contributedSelections_below (hholds.below hslot).symm
          have hselections := hnested.2 (hbelow ▸ hconsistent.selectedBelow head.signature)
          rw [hbelow] at hselections
          refine .cons ?_ .nil
          rw [hselections, ← htarget]
          rfl

end Step

/-- **A merge that makes up no keys** makes the union of what is contributed, with normal
aliases. -/
theorem Merges.selections_eq {merged : FieldPath} {contributions : List Contribution}
    {result : MergedSelections} (h : Merges merged contributions result)
    (hconsistent : Consistent (contributedSelections contributions)) :
    result.selections = Selection.normalAll (union (contributedSelections contributions)) := by
  revert hconsistent
  refine Merges.levels (P := fun _ contributions result =>
    Consistent (contributedSelections contributions) →
      result.selections = Selection.normalAll (union (contributedSelections contributions))) ?_ h
  intro merged contributions level parts aliased hlevel hparts hconsistent
  have hkeeps := Level.keepsKeys_of_foldlM hconsistent (fun occurrence hmem => by
    rw [contributedSelections_eq]
    exact List.mem_map_of_mem hmem) hlevel
  have hfirsts := Level.hasFirsts_of_foldlM hlevel
  rw [← contributedSelections_eq] at hfirsts
  have hall := forall₂_of_parts hfirsts hparts fun first slot part hslot hopened hpart =>
    normal_of_part (Level.holds_ofContributions hlevel) hkeeps hconsistent hslot hopened hpart
  rw [Selection.normalAll_eq, Selection.union_eq]
  rw [← List.forall₂_map_left_iff, List.forall₂_eq_eq_eq] at hall
  exact hall.symm

end MergedSelections

end QueryBatching
