/-
Which response key a slot gets.

A slot is opened by the first occurrence of its signature, when the slots in front of it are
all there are.  So the keys that are taken then are the keys of those, and they stay so: what is
added later stands behind them, and what is collected below a slot does not change its key.
-/
import QueryBatching.Proofs.Merge.Level

namespace QueryBatching

/-- The response key for a field of a call, where the keys of the fields in front are `taken`. -/
structure KeyChosen (taken : List String) (call : Nat) (name asked key : String) : Prop where
  /-- A key that is not taken is kept. -/
  kept : asked ∉ taken → key = asked
  /-- For a key that is taken the field gets its name with the number of the call, if that is not
  taken. -/
  numbered : asked ∈ taken → name ++ "_" ++ toString call ∉ taken →
    key = name ++ "_" ++ toString call
  /-- Where the name with the number of the call is taken too, the first of 2, 3, 4, ... that makes
  a key that is not taken is added to it. -/
  counted : asked ∈ taken → name ++ "_" ++ toString call ∈ taken →
    ∃ count, 2 ≤ count ∧ key = name ++ "_" ++ toString call ++ "_" ++ toString count ∧
      key ∉ taken ∧ ∀ other, 2 ≤ other → other < count →
        name ++ "_" ++ toString call ++ "_" ++ toString other ∈ taken

namespace Level

variable {merged : FieldPath} {occurrences : List Occurrence} {slots : List Slot}

theorem keyChosen_freeKey (level : Level) (call : Nat) (head : Field) :
    KeyChosen level.takenKeys call head.name head.responseKey (level.freeKey call head) := by
  unfold freeKey
  split
  · rename_i htaken
    obtain ⟨count, hcount, hpassed⟩ :=
      FreshName.exists_find_first (head.name ++ "_" ++ toString call) level.takenKeys
    have hfree := FreshName.find_notMem (head.name ++ "_" ++ toString call) level.takenKeys
    rw [hcount] at hfree ⊢
    refine ⟨fun hnot => absurd htaken hnot, fun _ hnumbered => ?_, fun _ hnumbered => ?_⟩
    · cases count with
      | zero => rfl
      | succ count => exact absurd (hpassed 0 (Nat.succ_pos count)) hnumbered
    · cases count with
      | zero => exact absurd hnumbered hfree
      | succ count =>
          refine ⟨count + 2, by omega, rfl, hfree, fun other hle hlt => ?_⟩
          obtain ⟨other, rfl⟩ := Nat.exists_eq_add_of_le' hle
          exact hpassed (other + 1) (by omega)
  · rename_i hfree
    exact ⟨fun _ => rfl, fun htaken => absurd htaken hfree, fun htaken => absurd htaken hfree⟩

/-- The first of the occurrences with a signature. -/
structure FirstOf (occurrences : List Occurrence) (signature : FieldSignature)
    (before : List Occurrence) (occurrence : Occurrence) (head : Field) : Prop where
  prefix_eq : before ++ [occurrence] <+: occurrences
  selection : ∃ nested?, occurrence.selection = .field head nested?
  signature_eq : head.signature = signature
  ne : ∀ earlier ∈ before, ∀ other nested?, earlier.selection = .field other nested? →
    other.signature ≠ signature

/-- Every slot of a field has the key that is chosen for the first occurrence of its signature,
behind the slots in front of it. -/
def KeysChosen (occurrences : List Occurrence) (slots : List Slot) : Prop :=
  ∀ front signature target below?, front ++ [.field signature target below?] <+: slots →
    ∃ before occurrence head, FirstOf occurrences signature before occurrence head ∧
      KeyChosen (front.filterMap Slot.key?) occurrence.call head.name head.responseKey
        target.responseKey

theorem FirstOf.append {signature : FieldSignature} {before : List Occurrence}
    {occurrence : Occurrence} {head : Field}
    (h : FirstOf occurrences signature before occurrence head) (more : List Occurrence) :
    FirstOf (occurrences ++ more) signature before occurrence head :=
  { h with prefix_eq := h.prefix_eq.trans (List.prefix_append _ _) }

theorem KeysChosen.append (h : KeysChosen occurrences slots) (more : List Occurrence) :
    KeysChosen (occurrences ++ more) slots := by
  intro front signature target below? hslot
  obtain ⟨before, occurrence, head, hfirst, hkey⟩ := h _ _ _ _ hslot
  exact ⟨before, occurrence, head, hfirst.append more, hkey⟩

/-- What is collected below a slot changes no key. -/
theorem KeysChosen.extend (h : KeysChosen occurrences slots) (signature : FieldSignature)
    (contribution : Contribution) :
    KeysChosen occurrences (slots.map (Slot.extend signature contribution)) := by
  intro front own target below? hslot
  obtain ⟨all, hall, heq⟩ := List.prefix_map_iff.mp hslot
  obtain ⟨before, last, rfl, rfl, hlast⟩ := List.append_eq_map_iff.mp heq
  obtain ⟨slot, rfl, hslot⟩ := List.map_eq_singleton_iff.mp hlast
  cases slot with
  | fragment selection => simp [Slot.extend] at hslot
  | field own' target' below'? =>
      have hsame : own' = own ∧ target' = target := by
        rw [Slot.extend] at hslot
        split at hslot
        · obtain ⟨rfl, rfl, -⟩ := Slot.field.inj hslot
          exact ⟨rfl, rfl⟩
        · obtain ⟨rfl, rfl, -⟩ := Slot.field.inj hslot
          exact ⟨rfl, rfl⟩
      obtain ⟨rfl, rfl⟩ := hsame
      rw [List.filterMap_map]
      simpa [Function.comp_def] using h _ _ _ _ hall

/-- **An addition chooses the key of the slot that it opens**, and no other. -/
theorem KeysChosen.add {level result : Level} {occurrence : Occurrence}
    (h : KeysChosen occurrences level.slots) (hholds : Holds merged occurrences level)
    (hadd : Level.add merged level occurrence = .ok result) :
    KeysChosen (occurrences ++ [occurrence]) result.slots := by
  have hold := h.append [occurrence]
  cases adds_of_add hadd with
  | fragment hfragment heq =>
      obtain ⟨more, hslots, hmore⟩ :=
        slots_addFragment level occurrence.call occurrence.path occurrence.selection
      rw [heq, hslots]
      rcases hmore with ⟨rfl, -⟩ | rfl
      · rwa [List.append_nil]
      · intro front signature target below? hslot
        rcases List.prefix_concat_iff.mp hslot with hlast | hslot
        · simp at hlast
        · exact hold _ _ _ _ hslot
  | opens head nested? hadds hnew hslots =>
      rw [hslots]
      intro front signature target below? hslot
      rcases List.prefix_concat_iff.mp hslot with hlast | hslot
      · obtain ⟨rfl, hend⟩ := List.append_inj' hlast rfl
        obtain ⟨rfl, rfl, -⟩ := Slot.field.inj (List.singleton_inj.mp hend)
        refine ⟨occurrences, occurrence, head, ⟨List.prefix_rfl, ⟨nested?, hadds.selection⟩, rfl,
          fun earlier hmem other nested? hother => hholds.signature_ne hnew hmem hother⟩, ?_⟩
        rw [responseKey_newHead]
        exact keyChosen_freeKey level occurrence.call head
      · exact hold _ _ _ _ hslot
  | joins head nested? target below? hadds hslot hshape hslots =>
      rw [hslots]
      cases nested? with
      | none => exact hold
      | some nested => exact hold.extend _ _

/-- **The slots of a level have the keys that are chosen for them.** -/
theorem keysChosen_of_foldlM {level : Level}
    (h : occurrences.foldlM (add merged) {} = .ok level) : KeysChosen occurrences level.slots := by
  induction occurrences using List.reverseRecOn generalizing level with
  | nil =>
      obtain rfl := Except.ok.inj h
      intro front signature target below? hslot
      simp at hslot
  | append_singleton front occurrence ih =>
      obtain ⟨middle, hfront, hadd⟩ := Outcomes.foldlM_concat_eq_ok.mp h
      exact (ih hfront).add (holds_of_foldlM hfront) hadd

end Level

end QueryBatching
