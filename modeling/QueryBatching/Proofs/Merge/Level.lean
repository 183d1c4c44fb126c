/-
What a level holds after the selections of its calls have been added.

`Level.Holds` is the invariant: it says what the slots, the placements and the notes of a
level are in terms of the occurrences that were added, in their order.  Each of the three
things that an addition can do keeps it, so it holds of the level that contributions make.
-/
import QueryBatching.Proofs.Merge.Additions

namespace QueryBatching

namespace Level

/-! ### The invariant -/

/-- The slot of a signature was opened by the first occurrence that has it. -/
def OpenedBy (occurrences : List Occurrence) (signature : FieldSignature) (target : Field) :
    Prop :=
  ∃ front occurrence back head nested? earlier, occurrences = front ++ occurrence :: back ∧
    occurrence.selection = .field head nested? ∧ head.signature = signature ∧
    (∀ before ∈ front, ∀ other nested?, before.selection = .field other nested? →
      other.signature ≠ signature) ∧
    target = newHead earlier occurrence.call head

/-- An occurrence has a slot, and its placement says which. -/
def Placed (merged : FieldPath) (slots : List Slot) (occurrence : Occurrence)
    (placement : Placement) : Prop :=
  match occurrence.selection with
  | .field head _ =>
    ∃ target below?, .field head.signature target below? ∈ slots ∧
      placement = .field occurrence.call (occurrence.path.child head.responseKey)
        (merged.child target.responseKey)
  | selection =>
    (∃ kept, .fragment kept ∈ slots ∧ kept.text = selection.text) ∧
      placement = .fragments occurrence.call occurrence.path

/-- What a level says about the occurrences that were added to it, in their order. -/
structure Holds (merged : FieldPath) (occurrences : List Occurrence) (level : Level) : Prop where
  /-- Every signature has one slot. -/
  signatures : (level.slots.filterMap Slot.signature?).Nodup
  /-- Every slot has a response key of its own. -/
  keys : level.takenKeys.Nodup
  opened : ∀ {signature target below?}, .field signature target below? ∈ level.slots →
    OpenedBy occurrences signature target
  /-- Below a slot is what its fields contribute. -/
  below : ∀ {signature target below?}, .field signature target below? ∈ level.slots →
    below? = contributionsBelow signature occurrences
  /-- Either all fields of one signature contribute something below it or none does. -/
  shape : ∀ occurrence ∈ occurrences, ∀ head nested?, occurrence.selection = .field head nested? →
    nested?.isSome = (contributionsBelow head.signature occurrences).isSome
  fragments : ∀ {selection}, .fragment selection ∈ level.slots →
    ∃ occurrence ∈ occurrences, occurrence.selection = selection ∧
      ∀ head nested?, selection ≠ .field head nested?
  placements : List.Forall₂ (Placed merged level.slots) occurrences level.placements
  /-- A call selects one thing under each response key. -/
  selected : ∀ occurrence ∈ occurrences, ∀ head nested?,
    occurrence.selection = .field head nested? →
      level.selectedAs? occurrence.call head.responseKey = some head.signature

theorem holds_empty (merged : FieldPath) : Holds merged [] {} where
  signatures := List.nodup_nil
  keys := List.nodup_nil
  opened := fun h => absurd h List.not_mem_nil
  below := fun h => absurd h List.not_mem_nil
  shape := fun _ h => absurd h List.not_mem_nil
  fragments := fun h => absurd h List.not_mem_nil
  placements := .nil
  selected := fun _ h => absurd h List.not_mem_nil

/-- Slots stay where they are while others are added and things are collected below them. -/
structure Grows (slots later : List Slot) : Prop where
  field : ∀ {signature target below?}, Slot.field signature target below? ∈ slots →
    ∃ after?, Slot.field signature target after? ∈ later
  fragment : ∀ {selection}, Slot.fragment selection ∈ slots → Slot.fragment selection ∈ later

theorem Placed.mono {merged : FieldPath} {slots later : List Slot} {occurrence : Occurrence}
    {placement : Placement} (h : Placed merged slots occurrence placement)
    (hgrows : Grows slots later) : Placed merged later occurrence placement := by
  unfold Placed at h ⊢
  split at h
  · obtain ⟨target, below?, hmem, rfl⟩ := h
    obtain ⟨after?, hafter⟩ := hgrows.field hmem
    exact ⟨target, after?, hafter, rfl⟩
  · obtain ⟨⟨kept, hmem, htext⟩, rfl⟩ := h
    exact ⟨⟨kept, hgrows.fragment hmem, htext⟩, rfl⟩

theorem grows_append (slots more : List Slot) : Grows slots (slots ++ more) where
  field := fun h => ⟨_, List.mem_append_left _ h⟩
  fragment := fun h => List.mem_append_left _ h

theorem grows_joined (slots : List Slot) (occurrence : Occurrence) (head : Field)
    (nested? : Option (List Selection)) : Grows slots (joined slots occurrence head nested?) := by
  cases nested? with
  | none => exact ⟨fun h => ⟨_, h⟩, fun h => h⟩
  | some nested =>
      exact ⟨fun h => ⟨_, Slot.field_mem_map_extend.mpr ⟨_, h, rfl⟩⟩,
        fun h => Slot.fragment_mem_map_extend.mpr h⟩

theorem OpenedBy.append {occurrences : List Occurrence} {signature : FieldSignature}
    {target : Field} (h : OpenedBy occurrences signature target) (more : List Occurrence) :
    OpenedBy (occurrences ++ more) signature target := by
  obtain ⟨front, occurrence, back, head, nested?, earlier, rfl, hrest⟩ := h
  exact ⟨front, occurrence, back ++ more, head, nested?, earlier, by simp, hrest⟩

/-- The placements of the occurrences before stay, and the new occurrence gets its own. -/
theorem placements_append {merged : FieldPath} {occurrences : List Occurrence}
    {placements : List Placement} {slots later : List Slot} {occurrence : Occurrence}
    {placement : Placement}
    (h : List.Forall₂ (Placed merged slots) occurrences placements) (hgrows : Grows slots later)
    (hnew : Placed merged later occurrence placement) :
    List.Forall₂ (Placed merged later) (occurrences ++ [occurrence]) (placements ++ [placement]) :=
  List.rel_append (h.imp fun _ _ hp => hp.mono hgrows) (.cons hnew .nil)

/-- A new slot has the key that is free for it. -/
theorem responseKey_newHead (level : Level) (call : Nat) (head : Field) :
    (level.newHead call head).responseKey = level.freeKey call head := by
  unfold newHead Field.responseKey
  dsimp only
  split
  · rename_i heq
    rw [Option.getD_none, heq]
  · rw [Option.getD_some]

/-- The key of a new slot is not taken. -/
theorem responseKey_newHead_notMem (level : Level) (call : Nat) (head : Field) :
    (level.newHead call head).responseKey ∉ level.takenKeys := by
  rw [responseKey_newHead, freeKey]
  split
  · exact FreshName.find_notMem _ _
  · assumption

section Step

variable {merged : FieldPath} {occurrences : List Occurrence} {level result : Level}
  {occurrence : Occurrence}

/-- Every field that was added has a slot for its signature. -/
theorem Holds.exists_slot (h : Holds merged occurrences level) {occurrence : Occurrence}
    (hmem : occurrence ∈ occurrences) {head : Field} {nested? : Option (List Selection)}
    (hselection : occurrence.selection = .field head nested?) :
    ∃ target below?, Slot.field head.signature target below? ∈ level.slots := by
  obtain ⟨placement, -, hplaced⟩ := Outcomes.exists_right h.placements hmem
  simp only [Placed, hselection] at hplaced
  obtain ⟨target, below?, hslot, -⟩ := hplaced
  exact ⟨target, below?, hslot⟩

/-- A field with selections below it has a slot that takes them. -/
theorem Holds.exists_slot_below (h : Holds merged occurrences level) {occurrence : Occurrence}
    (hmem : occurrence ∈ occurrences) {head : Field} {nested : List Selection}
    (hselection : occurrence.selection = .field head (some nested)) :
    ∃ target below, Slot.field head.signature target (some below) ∈ level.slots ∧
      contributionsBelow head.signature occurrences = some below := by
  obtain ⟨target, below?, hslot⟩ := h.exists_slot hmem hselection
  have hbelow := h.below hslot
  have hshape := h.shape occurrence hmem head (some nested) hselection
  cases below? with
  | none =>
      rw [← hbelow] at hshape
      exact absurd hshape (by simp)
  | some below => exact ⟨target, below, hslot, hbelow.symm⟩

/-- A signature without a slot has not occurred. -/
theorem Holds.signature_ne (h : Holds merged occurrences level) {signature : FieldSignature}
    (hnew : ∀ slot ∈ level.slots, slot.signature? ≠ some signature) {occurrence : Occurrence}
    (hmem : occurrence ∈ occurrences) {head : Field} {nested? : Option (List Selection)}
    (hselection : occurrence.selection = .field head nested?) : head.signature ≠ signature := by
  rintro rfl
  obtain ⟨target, below?, hslot⟩ := h.exists_slot hmem hselection
  exact hnew _ hslot rfl

theorem Holds.contributionsBelow_eq_none (h : Holds merged occurrences level)
    {signature : FieldSignature} (hnew : ∀ slot ∈ level.slots, slot.signature? ≠ some signature) :
    contributionsBelow signature occurrences = none := by
  have hnone : occurrences.filterMap (Occurrence.contribution? signature) = [] := by
    rw [List.filterMap_eq_nil_iff]
    intro occurrence hmem
    cases hselection : occurrence.selection with
    | field head nested? =>
        rw [Occurrence.contribution?_field hselection, if_neg (h.signature_ne hnew hmem hselection)]
    | spread name directives =>
        exact Occurrence.contribution?_fragment (by simp [hselection]) signature
    | inlineFragment condition? directives nested =>
        exact Occurrence.contribution?_fragment (by simp [hselection]) signature
  rw [contributionsBelow, hnone]

theorem Holds.add_fragment (h : Holds merged occurrences level)
    (hfragment : ∀ head nested?, occurrence.selection ≠ .field head nested?) :
    Holds merged (occurrences ++ [occurrence])
      (level.addFragment occurrence.call occurrence.path occurrence.selection) := by
  obtain ⟨more, hslots, hmore⟩ :=
    slots_addFragment level occurrence.call occurrence.path occurrence.selection
  have hold : ∀ {signature target below?}, Slot.field signature target below? ∈
      level.slots ++ more → Slot.field signature target below? ∈ level.slots := by
    intro signature target below? hmem
    rcases hmore with ⟨rfl, -⟩ | rfl
    · simpa using hmem
    · simpa using hmem
  have hfields : more.filterMap Slot.signature? = [] ∧ more.filterMap Slot.key? = [] := by
    rcases hmore with ⟨rfl, -⟩ | rfl
    · exact ⟨rfl, rfl⟩
    · exact ⟨rfl, rfl⟩
  have hbelow : ∀ signature, contributionsBelow signature (occurrences ++ [occurrence]) =
      contributionsBelow signature occurrences := by
    intro signature
    rw [contributionsBelow_append, Occurrence.contribution?_fragment hfragment, addBelow]
  constructor
  case signatures =>
    rw [hslots, List.filterMap_append, hfields.1, List.append_nil]
    exact h.signatures
  case keys =>
    rw [takenKeys, hslots, List.filterMap_append, hfields.2, List.append_nil]
    exact h.keys
  case opened =>
    intro signature target below? hmem
    exact (h.opened (hold (hslots ▸ hmem))).append [occurrence]
  case below =>
    intro signature target below? hmem
    rw [hbelow]
    exact h.below (hold (hslots ▸ hmem))
  case shape =>
    intro other hmem head nested? hselection
    rw [hbelow]
    rcases List.mem_append.mp hmem with hmem | hmem
    · exact h.shape other hmem head nested? hselection
    · obtain rfl := List.mem_singleton.mp hmem
      exact absurd hselection (hfragment head nested?)
  case fragments =>
    intro selection hmem
    rw [hslots] at hmem
    have hcases : Slot.fragment selection ∈ level.slots ∨ selection = occurrence.selection := by
      rcases hmore with ⟨rfl, -⟩ | rfl
      · exact .inl (by simpa using hmem)
      · simpa using hmem
    rcases hcases with hmem | rfl
    · obtain ⟨other, hother, heq⟩ := h.fragments hmem
      exact ⟨other, List.mem_append_left _ hother, heq⟩
    · exact ⟨occurrence, by simp, rfl, hfragment⟩
  case placements =>
    refine placements_append h.placements (hslots ▸ grows_append _ _) ?_
    unfold Placed
    split
    · rename_i head nested? hselection
      exact absurd hselection (hfragment head _)
    · refine ⟨?_, rfl⟩
      rw [hslots]
      rcases hmore with ⟨rfl, hany⟩ | rfl
      · obtain ⟨slot, hmem, htext⟩ := List.any_eq_true.mp hany
        cases slot with
        | field own head below? => simp [Slot.hasText] at htext
        | fragment kept => exact ⟨kept, by simpa using hmem, by simpa [Slot.hasText] using htext⟩
      · exact ⟨occurrence.selection, by simp, rfl⟩
  case selected =>
    intro other hmem head nested? hselection
    rcases List.mem_append.mp hmem with hmem | hmem
    · exact h.selected other hmem head nested? hselection
    · obtain rfl := List.mem_singleton.mp hmem
      exact absurd hselection (hfragment head nested?)

/-- What the other signatures have below them is as it was. -/
theorem contributionsBelow_append_of_ne {head : Field} {nested? : Option (List Selection)}
    (hselection : occurrence.selection = .field head nested?) {signature : FieldSignature}
    (hne : head.signature ≠ signature) :
    contributionsBelow signature (occurrences ++ [occurrence]) =
      contributionsBelow signature occurrences := by
  rw [contributionsBelow_append, Occurrence.contribution?_field hselection, if_neg hne, addBelow]

/-- What its own signature has below it gets what the occurrence contributes. -/
theorem contributionsBelow_append_self {head : Field} {nested? : Option (List Selection)}
    (hselection : occurrence.selection = .field head nested?) :
    contributionsBelow head.signature (occurrences ++ [occurrence]) =
      addBelow (contributionsBelow head.signature occurrences)
        (nested?.map (occurrence.below head)) := by
  rw [contributionsBelow_append, Occurrence.contribution?_field hselection, if_pos rfl]

/-- What signatures have below them after an occurrence with the shape of its slot. -/
theorem contributionsBelow_append_joined {head : Field} {nested? : Option (List Selection)}
    (hselection : occurrence.selection = .field head nested?)
    (hshape : (contributionsBelow head.signature occurrences).isSome = nested?.isSome)
    (signature : FieldSignature) :
    contributionsBelow signature (occurrences ++ [occurrence]) =
      joinedBelow signature occurrence head nested? (contributionsBelow signature occurrences) := by
  by_cases hsame : signature = head.signature
  · subst hsame
    rw [contributionsBelow_append_self hselection]
    cases nested? with
    | none => rfl
    | some nested =>
        obtain ⟨contributions, hsome⟩ := Option.isSome_iff_exists.mp hshape
        rw [hsome, joinedBelow, if_pos rfl]
        rfl
  · rw [contributionsBelow_append_of_ne hselection (Ne.symm hsame)]
    cases nested? with
    | none => rfl
    | some nested => rw [joinedBelow, if_neg hsame]

/-- The notes of the occurrences before stay, and the new occurrence has one. -/
theorem AddsField.selected_of_holds {head target : Field} {nested? : Option (List Selection)}
    (hadds : AddsField merged level occurrence head nested? target result)
    (h : Holds merged occurrences level) :
    ∀ other ∈ occurrences ++ [occurrence], ∀ head nested?, other.selection = .field head nested? →
      result.selectedAs? other.call head.responseKey = some head.signature := by
  intro other hmem own nested? hselection
  rw [hadds.selected]
  rcases List.mem_append.mp hmem with hmem | hmem
  · rw [h.selected other hmem own nested? hselection, Option.some_or]
  · obtain rfl := List.mem_singleton.mp hmem
    rw [hadds.selection] at hselection
    obtain ⟨rfl, rfl⟩ := Selection.field.inj hselection
    rw [if_pos ⟨rfl, rfl⟩]
    cases hfound : level.selectedAs? other.call head.responseKey with
    | none => rfl
    | some signature => rw [hadds.consistent signature hfound, Option.some_or]

theorem AddsField.placed {head target : Field} {nested? : Option (List Selection)}
    (hadds : AddsField merged level occurrence head nested? target result)
    (hslot : ∃ below?, .field head.signature target below? ∈ result.slots) :
    Placed merged result.slots occurrence (.field occurrence.call
      (occurrence.path.child head.responseKey) (merged.child target.responseKey)) := by
  unfold Placed
  rw [hadds.selection]
  obtain ⟨below?, hmem⟩ := hslot
  exact ⟨target, below?, hmem, rfl⟩

theorem Holds.opens {head : Field} {nested? : Option (List Selection)}
    (h : Holds merged occurrences level)
    (hadds : AddsField merged level occurrence head nested? (level.newHead occurrence.call head)
      result)
    (hnew : ∀ slot ∈ level.slots, slot.signature? ≠ some head.signature)
    (hslots : result.slots = level.slots ++
      [.field head.signature (level.newHead occurrence.call head)
        (nested?.map fun nested => [occurrence.below head nested])]) :
    Holds merged (occurrences ++ [occurrence]) result := by
  have hnone := h.contributionsBelow_eq_none hnew
  have hself : contributionsBelow head.signature (occurrences ++ [occurrence]) =
      nested?.map fun nested => [occurrence.below head nested] := by
    rw [contributionsBelow_append_self hadds.selection, hnone]
    cases nested? with
    | none => rfl
    | some nested => rfl
  constructor
  case signatures =>
    rw [hslots, List.filterMap_append]
    refine List.Nodup.append h.signatures (by simp [Slot.signature?]) ?_
    intro signature hmem hmem'
    obtain ⟨slot, hslot, hsignature⟩ := List.mem_filterMap.mp hmem
    obtain rfl : signature = head.signature := by simpa [Slot.signature?] using hmem'
    exact hnew slot hslot hsignature
  case keys =>
    rw [takenKeys, hslots, List.filterMap_append]
    refine List.Nodup.append h.keys (by simp [Slot.key?]) ?_
    intro key hmem hmem'
    obtain rfl : key = (level.newHead occurrence.call head).responseKey := by
      simpa [Slot.key?] using hmem'
    exact responseKey_newHead_notMem level occurrence.call head hmem
  case opened =>
    intro signature target below? hmem
    rw [hslots] at hmem
    rcases List.mem_append.mp hmem with hmem | hmem
    · exact (h.opened hmem).append [occurrence]
    · obtain ⟨rfl, rfl, -⟩ := Slot.field.inj (List.mem_singleton.mp hmem)
      exact ⟨occurrences, occurrence, [], head, nested?, level, rfl, hadds.selection, rfl,
        fun before hbefore other nested? hother => h.signature_ne hnew hbefore hother, rfl⟩
  case below =>
    intro signature target below? hmem
    rw [hslots] at hmem
    rcases List.mem_append.mp hmem with hmem | hmem
    · rw [contributionsBelow_append_of_ne hadds.selection]
      · exact h.below hmem
      · rintro rfl
        exact hnew _ hmem rfl
    · obtain ⟨rfl, -, rfl⟩ := Slot.field.inj (List.mem_singleton.mp hmem)
      exact hself.symm
  case shape =>
    intro other hmem own nested? hselection
    rcases List.mem_append.mp hmem with hmem | hmem
    · rw [contributionsBelow_append_of_ne hadds.selection
        (h.signature_ne hnew hmem hselection).symm]
      exact h.shape other hmem own nested? hselection
    · obtain rfl := List.mem_singleton.mp hmem
      rw [hadds.selection] at hselection
      obtain ⟨rfl, rfl⟩ := Selection.field.inj hselection
      rw [hself, Option.isSome_map]
  case fragments =>
    intro selection hmem
    rw [hslots] at hmem
    obtain ⟨other, hother, heq⟩ := h.fragments (by simpa using hmem)
    exact ⟨other, List.mem_append_left _ hother, heq⟩
  case placements =>
    rw [hadds.placements]
    have hslot : ∃ below?, Slot.field head.signature (level.newHead occurrence.call head) below? ∈
        result.slots := ⟨_, hslots ▸ List.mem_append_right _ List.mem_cons_self⟩
    exact placements_append h.placements (hslots ▸ grows_append _ _) (hadds.placed hslot)
  case selected => exact hadds.selected_of_holds h

theorem Holds.joins {head target : Field} {nested? : Option (List Selection)}
    {below? : Option (List Contribution)} (h : Holds merged occurrences level)
    (hadds : AddsField merged level occurrence head nested? target result)
    (hslot : .field head.signature target below? ∈ level.slots)
    (hshape : below?.isSome = nested?.isSome)
    (hslots : result.slots = joined level.slots occurrence head nested?) :
    Holds merged (occurrences ++ [occurrence]) result := by
  obtain ⟨hsignatures, hkeys⟩ := filterMap_joined level.slots occurrence head nested?
  have hbelow := contributionsBelow_append_joined hadds.selection (h.below hslot ▸ hshape)
  constructor
  case signatures =>
    rw [hslots, hsignatures]
    exact h.signatures
  case keys =>
    rw [takenKeys, hslots, hkeys]
    exact h.keys
  case opened =>
    intro signature target below? hmem
    rw [hslots, field_mem_joined] at hmem
    obtain ⟨before?, hmem, -⟩ := hmem
    exact (h.opened hmem).append [occurrence]
  case below =>
    intro signature other after? hmem
    rw [hslots, field_mem_joined] at hmem
    obtain ⟨before?, hmem, rfl⟩ := hmem
    rw [hbelow, ← h.below hmem]
  case shape =>
    intro other hmem own found? hselection
    rw [hbelow, isSome_joinedBelow]
    rcases List.mem_append.mp hmem with hmem | hmem
    · exact h.shape other hmem own found? hselection
    · obtain rfl := List.mem_singleton.mp hmem
      rw [hadds.selection] at hselection
      obtain ⟨rfl, rfl⟩ := Selection.field.inj hselection
      rw [← h.below hslot, hshape]
  case fragments =>
    intro selection hmem
    rw [hslots, fragment_mem_joined] at hmem
    obtain ⟨other, hother, heq⟩ := h.fragments hmem
    exact ⟨other, List.mem_append_left _ hother, heq⟩
  case placements =>
    rw [hadds.placements]
    have hgrows := grows_joined level.slots occurrence head nested?
    rw [← hslots] at hgrows
    exact placements_append h.placements hgrows (hadds.placed (hgrows.field hslot))
  case selected => exact hadds.selected_of_holds h

/-- An addition keeps the invariant. -/
theorem Holds.add (h : Holds merged occurrences level)
    (hadd : Level.add merged level occurrence = .ok result) :
    Holds merged (occurrences ++ [occurrence]) result := by
  cases adds_of_add hadd with
  | fragment hfragment heq => exact heq ▸ h.add_fragment hfragment
  | opens head nested? hadds hnew hslots => exact h.opens hadds hnew hslots
  | joins head nested? target below? hadds hslot hshape hslots =>
      exact h.joins hadds hslot hshape hslots

end Step

/-- **The invariant holds of whatever level additions lead to.** -/
theorem holds_of_foldlM {merged : FieldPath} {occurrences : List Occurrence} {level : Level}
    (h : occurrences.foldlM (add merged) {} = .ok level) : Holds merged occurrences level := by
  induction occurrences using List.reverseRecOn generalizing level with
  | nil =>
      obtain rfl := Except.ok.inj h
      exact holds_empty merged
  | append_singleton front occurrence ih =>
      obtain ⟨middle, hfront, hadd⟩ := Outcomes.foldlM_concat_eq_ok.mp h
      exact (ih hfront).add hadd

theorem holds_ofContributions {merged : FieldPath} {contributions : List Contribution}
    {level : Level} (h : ofContributions merged contributions = .ok level) :
    Holds merged (contributions.flatMap Contribution.occurrences) level :=
  holds_of_foldlM h

end Level

end QueryBatching
