/-
What merging selection sets makes, all the way down.

A merge makes a level, and below each slot that has contributions it merges again.  So what
is true of merges is proved for one level at a time: `MergedSelections.Merges.induction` takes
the invariant of the level and, for every slot, what is already known of the merge below it;
`Merges.levels` takes the level itself, and `merges_of_parts` goes the other way.  The depth that
the code counts down is gone there.  It is never used up, because the selections below a field
have one level less than the field, so any depth that is enough gives the same.
-/
import QueryBatching.Proofs.Document.Trees
import QueryBatching.Proofs.Merge.Level

namespace QueryBatching

/-! ### Contributions -/

/-- The contributions have at most so many levels of selections. -/
def WithinDepth (depth : Nat) (contributions : List Contribution) : Prop :=
  ∀ contribution ∈ contributions, Selection.depthOfAll contribution.selections ≤ depth

theorem Selection.depthOfAll_le {selections : List Selection} {depth : Nat} :
    depthOfAll selections ≤ depth ↔ ∀ selection ∈ selections, selection.depth ≤ depth := by
  induction selections with
  | nil => simp [depthOfAll]
  | cons first rest ih => rw [depthOfAll, max_le_iff, ih, List.forall_mem_cons]

theorem Selection.depth_le_depthOfAll {selection : Selection} {selections : List Selection}
    (h : selection ∈ selections) : selection.depth ≤ depthOfAll selections :=
  depthOfAll_le.mp le_rfl selection h

theorem Selection.eq_nil_of_depthOfAll {selections : List Selection}
    (h : depthOfAll selections = 0) : selections = [] := by
  cases selections with
  | nil => rfl
  | cons first rest =>
      rw [depthOfAll] at h
      have hfirst : 0 < first.depth := by
        cases first with
        | field head nested? =>
            cases nested? with
            | none => simp [depth]
            | some nested =>
                rw [depth]
                omega
        | spread name directives => simp [depth]
        | inlineFragment condition? directives nested => simp [depth]
      omega

theorem mem_occurrences {contributions : List Contribution} {occurrence : Occurrence} :
    occurrence ∈ contributions.flatMap Contribution.occurrences ↔
      ∃ contribution ∈ contributions, ∃ selection ∈ contribution.selections,
        occurrence = ⟨contribution.call, contribution.path, selection⟩ := by
  simp only [List.mem_flatMap, Contribution.occurrences, List.mem_map, eq_comm]

/-- What stands below a slot are the selection sets of its fields, each with its own path. -/
theorem mem_contributionsBelow {contributions below : List Contribution}
    {signature : FieldSignature}
    (h : contributionsBelow signature (contributions.flatMap Contribution.occurrences) = some below)
    {nested : Contribution} (hmem : nested ∈ below) :
    ∃ contribution ∈ contributions, ∃ head selections,
      .field head (some selections) ∈ contribution.selections ∧ head.signature = signature ∧
        nested = ⟨contribution.call, contribution.path.child head.responseKey, selections⟩ := by
  obtain rfl := filterMap_of_contributionsBelow h
  obtain ⟨occurrence, hoccurrence, hcontribution⟩ := List.mem_filterMap.mp hmem
  obtain ⟨contribution, hin, selection, hselection, rfl⟩ := mem_occurrences.mp hoccurrence
  unfold Occurrence.contribution? at hcontribution
  dsimp only at hcontribution
  split at hcontribution
  · rename_i head selections
    split at hcontribution
    · rename_i hsignature
      exact ⟨contribution, hin, head, selections, hselection, hsignature,
        (Option.some.inj hcontribution).symm⟩
    · simp at hcontribution
  · simp at hcontribution

/-- The selections of a field are among what stands below its slot. -/
theorem mem_of_contributionsBelow {occurrences : List Occurrence} {below : List Contribution}
    {occurrence : Occurrence} {head : Field} {nested : List Selection}
    (h : contributionsBelow head.signature occurrences = some below)
    (hmem : occurrence ∈ occurrences)
    (hselection : occurrence.selection = .field head (some nested) := by rfl) :
    occurrence.below head nested ∈ below := by
  obtain rfl := filterMap_of_contributionsBelow h
  refine List.mem_filterMap.mpr ⟨occurrence, hmem, ?_⟩
  rw [Occurrence.contribution?_field hselection, if_pos rfl]
  rfl

theorem contributionsBelow_ne_nil {signature : FieldSignature} {occurrences : List Occurrence}
    {below : List Contribution} (h : contributionsBelow signature occurrences = some below) :
    below ≠ [] := by
  unfold contributionsBelow at h
  split at h
  · simp at h
  · rename_i hne
    obtain rfl := Option.some.inj h
    exact hne

/-- One level further down there is one level less. -/
theorem WithinDepth.below {depth : Nat} {contributions below : List Contribution}
    (h : WithinDepth (depth + 1) contributions) {signature : FieldSignature}
    (hbelow : contributionsBelow signature (contributions.flatMap Contribution.occurrences) =
      some below) : WithinDepth depth below := by
  intro nested hmem
  obtain ⟨contribution, hin, head, selections, hselection, -, rfl⟩ :=
    mem_contributionsBelow hbelow hmem
  have hle := (Selection.depth_le_depthOfAll hselection).trans (h contribution hin)
  rw [Selection.depth] at hle
  dsimp only
  omega

theorem WithinDepth.mono {depth more : Nat} {contributions : List Contribution}
    (h : WithinDepth depth contributions) (hle : depth ≤ more) : WithinDepth more contributions :=
  fun contribution hmem => (h contribution hmem).trans hle

/-- There is always a depth that is enough. -/
theorem exists_withinDepth (contributions : List Contribution) :
    ∃ depth, WithinDepth depth contributions := by
  induction contributions with
  | nil => exact ⟨0, fun _ h => absurd h List.not_mem_nil⟩
  | cons first rest ih =>
      obtain ⟨depth, hrest⟩ := ih
      refine ⟨max (Selection.depthOfAll first.selections) depth, ?_⟩
      intro contribution hmem
      rcases List.mem_cons.mp hmem with rfl | hmem
      · exact le_max_left _ _
      · exact (hrest contribution hmem).trans (le_max_right _ _)

/-- Contributions without levels are without selections, and make an empty level. -/
theorem WithinDepth.level_eq {contributions : List Contribution} (h : WithinDepth 0 contributions)
    (merged : FieldPath) : Level.ofContributions merged contributions = .ok {} := by
  have hnone : contributions.flatMap Contribution.occurrences = [] := by
    rw [List.flatMap_eq_nil_iff]
    intro contribution hmem
    have hnil := Selection.eq_nil_of_depthOfAll (Nat.le_zero.mp (h contribution hmem))
    rw [Contribution.occurrences, hnil, List.map_nil]
  rw [Level.ofContributions, hnone]
  rfl

/-! ### Levels below levels -/

namespace MergedSelections

/-- What a slot becomes, where `P` is known of the merge below it. -/
inductive Part (P : FieldPath → List Contribution → MergedSelections → Prop)
    (merged : FieldPath) : Slot → MergedSelections → Prop
  | fragment (selection : Selection) :
    Part P merged (.fragment selection) { selections := [selection] }
  | leaf (signature : FieldSignature) (head : Field) :
    Part P merged (.field signature head none) { selections := [.field head none] }
  | field (signature : FieldSignature) (head : Field) (below : List Contribution)
      (nested : MergedSelections) (h : P (merged.child head.responseKey) below nested) :
    Part P merged (.field signature head (some below))
      { nested with selections := [.field head (some nested.selections)] }

/-- A merge is its level and the parts that the slots become. -/
theorem ofContributions_succ {depth : Nat} {merged : FieldPath}
    {contributions : List Contribution} {result : MergedSelections}
    (h : ofContributions (depth + 1) merged contributions = .ok result) :
    ∃ level parts, Level.ofContributions merged contributions = .ok level ∧
      List.Forall₂ (Part (fun path below nested =>
        ofContributions depth path below = .ok nested) merged) level.slots parts ∧
      result = {
        selections := parts.flatMap selections,
        placements := level.placements ++ parts.flatMap placements,
        aliased := level.aliased + (concat parts).aliased } := by
  rw [ofContributions] at h
  obtain ⟨level, hlevel, h⟩ := Outcomes.bind_eq_ok.mp h
  obtain ⟨parts, hparts, h⟩ := Outcomes.bind_eq_ok.mp h
  refine ⟨level, parts, hlevel, ?_, (Except.ok.inj h).symm⟩
  refine (Outcomes.mapM_eq_ok.mp hparts).imp fun slot part hpart => ?_
  cases slot with
  | fragment selection =>
      obtain rfl := Except.ok.inj hpart
      exact .fragment selection
  | field signature head below? =>
      cases below? with
      | none =>
          obtain rfl := Except.ok.inj hpart
          exact .leaf signature head
      | some below =>
          obtain ⟨nested, hnested, hdone⟩ := Outcomes.bind_eq_ok.mp hpart
          obtain rfl := Except.ok.inj hdone
          exact .field signature head below nested hnested

/-- A level and merges below its slots make a merge. -/
theorem ofContributions_succ_of_parts {depth : Nat} {merged : FieldPath}
    {contributions : List Contribution} {level : Level} {parts : List MergedSelections}
    (hlevel : Level.ofContributions merged contributions = .ok level)
    (hparts : List.Forall₂ (Part (fun path below nested =>
      ofContributions depth path below = .ok nested) merged) level.slots parts) :
    ofContributions (depth + 1) merged contributions = .ok {
      selections := parts.flatMap selections,
      placements := level.placements ++ parts.flatMap placements,
      aliased := level.aliased + (concat parts).aliased } := by
  rw [ofContributions, hlevel]
  refine Outcomes.bind_eq_ok.mpr ⟨level, rfl, Outcomes.bind_eq_ok.mpr ⟨parts, ?_, rfl⟩⟩
  refine Outcomes.mapM_eq_ok.mpr (hparts.imp fun slot part hpart => ?_)
  cases hpart with
  | fragment selection => rfl
  | leaf signature head => rfl
  | field signature head below nested hnested =>
      exact Outcomes.bind_eq_ok.mpr ⟨nested, hnested, rfl⟩

/-- **Any depth that is enough gives the same.** -/
theorem ofContributions_eq_ok_of_withinDepth {depth more : Nat} {merged : FieldPath}
    {contributions : List Contribution} {result : MergedSelections}
    (hdepth : WithinDepth depth contributions) (hmore : WithinDepth more contributions)
    (h : ofContributions depth merged contributions = .ok result) :
    ofContributions more merged contributions = .ok result := by
  have hnone : ∀ {contributions : List Contribution} {merged : FieldPath} (depth : Nat),
      WithinDepth 0 contributions → ofContributions depth merged contributions = .ok {} := by
    intro contributions merged depth h
    cases depth with
    | zero => rfl
    | succ depth => exact ofContributions_succ_of_parts (h.level_eq merged) .nil
  induction depth generalizing more merged contributions result with
  | zero =>
      rw [hnone 0 hdepth] at h
      rw [hnone more hdepth, h]
  | succ depth ih =>
      cases more with
      | zero =>
          rw [hnone (depth + 1) hmore] at h
          rw [hnone 0 hmore, h]
      | succ more =>
          obtain ⟨level, parts, hlevel, hparts, rfl⟩ := ofContributions_succ h
          refine ofContributions_succ_of_parts hlevel
            (Outcomes.imp_of_mem hparts fun slot hslot part hpart => ?_)
          cases hpart with
          | fragment selection => exact .fragment selection
          | leaf signature head => exact .leaf signature head
          | field signature head below nested hnested =>
              have hbelow := ((Level.holds_ofContributions hlevel).below hslot).symm
              exact .field signature head below nested
                (ih (hdepth.below hbelow) (hmore.below hbelow) hnested)

/-- The contributions merge to the selections, with all levels they have. -/
def Merges (merged : FieldPath) (contributions : List Contribution) (result : MergedSelections) :
    Prop :=
  ∃ depth, WithinDepth depth contributions ∧ ofContributions depth merged contributions = .ok result

theorem Merges.eq_ok {merged : FieldPath} {contributions : List Contribution}
    {result : MergedSelections} (h : Merges merged contributions result) {depth : Nat}
    (hdepth : WithinDepth depth contributions) :
    ofContributions depth merged contributions = .ok result := by
  obtain ⟨enough, henough, hresult⟩ := h
  exact ofContributions_eq_ok_of_withinDepth henough hdepth hresult

/-- **A level and a merge below each of its slots make a merge.** -/
theorem merges_of_parts {merged : FieldPath} {contributions : List Contribution} {level : Level}
    {parts : List MergedSelections}
    (hlevel : Level.ofContributions merged contributions = .ok level)
    (hparts : List.Forall₂ (Part Merges merged) level.slots parts) :
    Merges merged contributions {
      selections := parts.flatMap selections,
      placements := level.placements ++ parts.flatMap placements,
      aliased := level.aliased + (concat parts).aliased } := by
  obtain ⟨depth, hdepth⟩ := exists_withinDepth contributions
  have hmore := hdepth.mono (Nat.le_succ depth)
  refine ⟨depth + 1, hmore, ofContributions_succ_of_parts hlevel ?_⟩
  refine Outcomes.imp_of_mem hparts fun slot hslot part hpart => ?_
  cases hpart with
  | fragment selection => exact .fragment selection
  | leaf signature head => exact .leaf signature head
  | field signature head below nested hnested =>
      have hbelow := ((Level.holds_ofContributions hlevel).below hslot).symm
      exact .field signature head below nested (hnested.eq_ok (hmore.below hbelow))

/-- **A merge can be taken apart into levels, all the way down**: what each level passes on from the
merges below its slots holds of the whole. -/
theorem Merges.levels {P : FieldPath → List Contribution → MergedSelections → Prop}
    (step : ∀ {merged contributions level parts aliased},
      Level.ofContributions merged contributions = .ok level →
      List.Forall₂ (Part (fun path below nested => Merges path below nested ∧ P path below nested)
        merged) level.slots parts →
      P merged contributions ⟨parts.flatMap selections,
        level.placements ++ parts.flatMap placements, aliased⟩)
    {merged : FieldPath} {contributions : List Contribution} {result : MergedSelections}
    (h : Merges merged contributions result) : P merged contributions result := by
  obtain ⟨depth, hdepth, h⟩ := h
  induction depth generalizing merged contributions result with
  | zero =>
      obtain rfl := Except.ok.inj h
      exact @step merged contributions {} [] 0 (hdepth.level_eq merged) .nil
  | succ depth ih =>
      obtain ⟨level, parts, hlevel, hparts, rfl⟩ := ofContributions_succ h
      refine step hlevel (Outcomes.imp_of_mem hparts fun slot hslot part hpart => ?_)
      cases hpart with
      | fragment selection => exact .fragment selection
      | leaf signature head => exact .leaf signature head
      | field signature head below nested hnested =>
          have hbelow := hdepth.below ((Level.holds_ofContributions hlevel).below hslot).symm
          exact .field signature head below nested
            ⟨⟨depth, hbelow, hnested⟩, ih hbelow hnested⟩

/-- **Induction over the levels of a merge**, from the invariant of each. -/
theorem Merges.induction {P : FieldPath → List Contribution → MergedSelections → Prop}
    (step : ∀ {merged contributions level parts aliased},
      Level.Holds merged (contributions.flatMap Contribution.occurrences) level →
      List.Forall₂ (Part (fun path below nested => Merges path below nested ∧ P path below nested)
        merged) level.slots parts →
      P merged contributions ⟨parts.flatMap selections,
        level.placements ++ parts.flatMap placements, aliased⟩)
    {merged : FieldPath} {contributions : List Contribution} {result : MergedSelections}
    (h : Merges merged contributions result) : P merged contributions result :=
  h.levels fun hlevel hparts => step (Level.holds_ofContributions hlevel) hparts

/-- The first occurrence of a slot is a field of a contribution. -/
theorem exists_field_of_slot {merged : FieldPath} {contributions : List Contribution}
    {level : Level}
    (h : Level.Holds merged (contributions.flatMap Contribution.occurrences) level)
    {signature : FieldSignature} {target : Field} {below? : Option (List Contribution)}
    (hslot : .field signature target below? ∈ level.slots) :
    ∃ contribution ∈ contributions, ∃ head nested? earlier,
      .field head nested? ∈ contribution.selections ∧ head.signature = signature ∧
        target = Level.newHead earlier contribution.call head := by
  obtain ⟨front, occurrence, back, head, nested?, earlier, hsplit, hselection, hsignature, -,
    htarget⟩ := h.opened hslot
  have hmem : occurrence ∈ contributions.flatMap Contribution.occurrences := by simp [hsplit]
  obtain ⟨contribution, hin, selection, hin', rfl⟩ := mem_occurrences.mp hmem
  obtain rfl : selection = .field head nested? := hselection
  exact ⟨contribution, hin, head, nested?, earlier, hin', hsignature, htarget⟩

/-- A slot asks for what its signature says. -/
theorem name_and_arguments_of_slot {merged : FieldPath} {contributions : List Contribution}
    {level : Level}
    (h : Level.Holds merged (contributions.flatMap Contribution.occurrences) level)
    {signature : FieldSignature} {target : Field} {below? : Option (List Contribution)}
    (hslot : .field signature target below? ∈ level.slots) :
    target.name = signature.name ∧ target.argumentsText = signature.arguments := by
  obtain ⟨contribution, -, head, nested?, earlier, -, rfl, rfl⟩ := exists_field_of_slot h hslot
  exact ⟨rfl, rfl⟩

/-- Selections merge to one thing. -/
theorem Merges.unique {merged : FieldPath} {contributions : List Contribution}
    {result other : MergedSelections} (h : Merges merged contributions result)
    (h' : Merges merged contributions other) : result = other := by
  obtain ⟨depth, hdepth⟩ := exists_withinDepth contributions
  exact Except.ok.inj ((h.eq_ok hdepth).symm.trans (h'.eq_ok hdepth))

end MergedSelections

end QueryBatching
