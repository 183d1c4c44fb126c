/-
The merged operation is the union of its calls.

Of everything that the calls select at one place the union keeps the first of each: the first
field of a signature, the first spread or inline fragment of a text, in the order in which they
first appear.  Below a field it is the union of what all fields of the signature select.  It says
nothing of slots and response keys, and it is what a merge makes, except that a field may have
got another alias.
-/
import QueryBatching.Proofs.Merge.Signatures
import QueryBatching.Proofs.Merge.WellFormed

namespace QueryBatching

namespace Selection

/-! ### The first of each -/

/-- What makes two selections of one place the same. -/
inductive Identity where
  | field (signature : FieldSignature)
  /-- A spread or inline fragment, by its canonical text. -/
  | fragment (text : String)
deriving DecidableEq

/-- What makes the selection the same as another. -/
def identity : Selection → Identity
  | .field head _ => .field head.signature
  | selection => .fragment selection.text

/-- The selections that are the same as none that was seen and none before them. -/
def firstsAfter (seen : List Identity) : List Selection → List Selection
  | [] => []
  | selection :: rest =>
    if selection.identity ∈ seen then firstsAfter seen rest
    else selection :: firstsAfter (selection.identity :: seen) rest

/-- The first of each, in their order. -/
def firsts (selections : List Selection) : List Selection := firstsAfter [] selections

theorem identity_of_not_field {selection : Selection}
    (h : ∀ head nested?, selection ≠ .field head nested?) :
    selection.identity = .fragment selection.text := by
  cases selection with
  | field head nested? => exact absurd rfl (h head nested?)
  | spread name directives => rfl
  | inlineFragment condition? directives nested => rfl

theorem mem_identity_firstsAfter {seen : List Identity} {selections : List Selection}
    {identity : Identity} :
    identity ∈ seen ∨ identity ∈ (firstsAfter seen selections).map Selection.identity ↔
      identity ∈ seen ∨ identity ∈ selections.map Selection.identity := by
  induction selections generalizing seen with
  | nil => rfl
  | cons first rest ih =>
      rw [firstsAfter, List.map_cons, List.mem_cons]
      by_cases hseen : first.identity ∈ seen
      · have hsame : identity = first.identity → identity ∈ seen := fun heq => heq ▸ hseen
        rw [if_pos hseen, ih]
        tauto
      · have hrest := @ih (first.identity :: seen)
        rw [List.mem_cons] at hrest
        rw [if_neg hseen, List.map_cons, List.mem_cons]
        tauto

theorem firstsAfter_concat (seen : List Identity) (selections : List Selection)
    (last : Selection) : firstsAfter seen (selections ++ [last]) =
      if last.identity ∈ seen ∨ last.identity ∈ selections.map identity
      then firstsAfter seen selections else firstsAfter seen selections ++ [last] := by
  induction selections generalizing seen with
  | nil => simp [firstsAfter]
  | cons first rest ih =>
      simp only [List.cons_append, firstsAfter, List.map_cons, List.mem_cons, ih]
      by_cases hseen : first.identity ∈ seen
      · have hsame : last.identity = first.identity → last.identity ∈ seen :=
          fun heq => heq ▸ hseen
        rw [if_pos hseen, if_pos hseen]
        exact if_congr (by tauto) rfl rfl
      · rw [if_neg hseen, if_neg hseen]
        split
        · rw [if_pos (by tauto)]
        · rw [if_neg (by tauto), List.cons_append]

/-- The first of each are all that there is, but for repetitions. -/
theorem mem_identity_firsts {selections : List Selection} {identity : Identity} :
    identity ∈ (firsts selections).map Selection.identity ↔
      identity ∈ selections.map Selection.identity := by
  unfold firsts
  simpa only [List.not_mem_nil, false_or] using
    @mem_identity_firstsAfter [] selections identity

/-- One more selection is kept at the end exactly if it repeats none. -/
theorem firsts_concat (selections : List Selection) (last : Selection) :
    firsts (selections ++ [last]) =
      if last.identity ∈ selections.map identity then firsts selections
      else firsts selections ++ [last] := by
  unfold firsts
  simpa only [List.not_mem_nil, false_or] using firstsAfter_concat [] selections last

/-! ### Unions -/

/-- The selection with something else below it, if it is a field with a selection set. -/
def mapNested (nestedFor : FieldSignature → List Selection) : Selection → Selection
  | .field head (some _) => .field head (some (nestedFor head.signature))
  | selection => selection

theorem mapNested_of_not_field {selection : Selection}
    (h : ∀ head nested?, selection ≠ .field head nested?)
    (nestedFor : FieldSignature → List Selection) : selection.mapNested nestedFor = selection := by
  cases selection with
  | field head nested? => exact absurd rfl (h head nested?)
  | spread name directives => rfl
  | inlineFragment condition? directives nested => rfl

/-- The union of selections, through at most so many levels. -/
def unionWithin : (depth : Nat) → List Selection → List Selection
  | 0, _ => []
  | depth + 1, selections =>
    (firsts selections).map
      (mapNested fun signature => unionWithin depth (selectedBelow selections signature))

/-- The union of selections. -/
def union (selections : List Selection) : List Selection :=
  unionWithin (depthOfAll selections) selections

/-- What is selected below a signature has fewer levels. -/
theorem depthOfAll_selectedBelow {selections : List Selection} {signature : FieldSignature}
    {depth : Nat} (h : depthOfAll selections ≤ depth + 1) :
    depthOfAll (selectedBelow selections signature) ≤ depth := by
  rw [depthOfAll_le]
  intro selection hmem
  obtain ⟨field, hfield, hselection⟩ := List.mem_flatMap.mp hmem
  have hhere := depthOfAll_le.mp h field hfield
  unfold nestedOf at hselection
  split at hselection
  · split at hselection
    · rw [Selection.depth] at hhere
      have hbelow := depth_le_depthOfAll hselection
      omega
    · exact absurd hselection List.not_mem_nil
  · exact absurd hselection List.not_mem_nil

theorem unionWithin_nil (depth : Nat) : unionWithin depth [] = [] := by
  cases depth with
  | zero => rfl
  | succ depth => rfl

/-- As many levels as there are give the same as more. -/
theorem unionWithin_eq {selections : List Selection} {depth more : Nat}
    (h : depthOfAll selections ≤ depth) (hmore : depthOfAll selections ≤ more) :
    unionWithin depth selections = unionWithin more selections := by
  induction depth generalizing more selections with
  | zero =>
      obtain rfl := eq_nil_of_depthOfAll (Nat.le_zero.mp h)
      rw [unionWithin_nil, unionWithin_nil]
  | succ depth ih =>
      cases more with
      | zero =>
          obtain rfl := eq_nil_of_depthOfAll (Nat.le_zero.mp hmore)
          rw [unionWithin_nil, unionWithin_nil]
      | succ more =>
          have hbelow : ∀ signature, unionWithin depth (selectedBelow selections signature) =
              unionWithin more (selectedBelow selections signature) := fun signature =>
            ih (depthOfAll_selectedBelow h) (depthOfAll_selectedBelow hmore)
          rw [unionWithin, unionWithin, funext hbelow]

/-- **A union** is the first of each, with the union of what is selected below it. -/
theorem union_eq (selections : List Selection) :
    union selections =
      (firsts selections).map (mapNested fun signature =>
        union (selectedBelow selections signature)) := by
  have hmore : union selections = unionWithin (depthOfAll selections + 1) selections :=
    unionWithin_eq le_rfl (Nat.le_succ _)
  have hbelow : ∀ signature,
      unionWithin (depthOfAll selections) (selectedBelow selections signature) =
        union (selectedBelow selections signature) := fun signature =>
    unionWithin_eq (depthOfAll_selectedBelow (Nat.le_succ _)) le_rfl
  rw [hmore, unionWithin, funext hbelow]

/-- The same selections, with plain fields under other aliases perhaps. -/
inductive Realiased : Selection → Selection → Prop
  | same (selection : Selection) : Realiased selection selection
  | leaf (head : Field) (alias? : Option String) :
    Realiased (.field head none) (.field { head with alias? } none)
  | field (head : Field) (alias? : Option String) {nested merged : List Selection}
      (h : List.Forall₂ Realiased nested merged) :
    Realiased (.field head (some nested)) (.field { head with alias? } (some merged))

end Selection

open Selection (Identity Realiased firsts identity selectedBelow union)

/-! ### Slots -/

/-- What makes the selections of a slot the same. -/
def Slot.identity : Slot → Identity
  | .field signature _ _ => .field signature
  | .fragment selection => .fragment selection.text

/-- The first selection of a slot, and the slot as it is opened and filled. -/
inductive Slot.OpenedBy : Selection → Slot → Prop
  | field (head : Field) (nested? : Option (List Selection)) (alias? : Option String)
      (below? : Option (List Contribution)) (h : below?.isSome = nested?.isSome) :
    OpenedBy (.field head nested?) (.field head.signature { head with alias? } below?)
  | fragment (selection : Selection) (h : ∀ head nested?, selection ≠ .field head nested?) :
    OpenedBy selection (Slot.fragment selection)

theorem Slot.OpenedBy.identity_eq {first : Selection} {slot : Slot} (h : OpenedBy first slot) :
    first.identity = slot.identity := by
  cases h with
  | field head nested? alias? below? hshape => rfl
  | fragment _ hfragment => exact Selection.identity_of_not_field hfragment

theorem Slot.OpenedBy.extend {first : Selection} {slot : Slot} (h : OpenedBy first slot)
    (signature : FieldSignature) (contribution : Contribution) :
    OpenedBy first (slot.extend signature contribution) := by
  cases h with
  | field head nested? alias? below? hshape =>
      rw [Slot.extend]
      split
      · exact .field head nested? alias? _ (by rw [Option.isSome_map, hshape])
      · exact .field head nested? alias? below? hshape
  | fragment _ hfragment => exact .fragment first hfragment

namespace Level

/-- The slots of a level are the first of each of its selections. -/
def HasFirsts (selections : List Selection) (level : Level) : Prop :=
  List.Forall₂ Slot.OpenedBy (firsts selections) level.slots

section Step

variable {merged : FieldPath} {selections : List Selection} {level result : Level}
  {occurrence : Occurrence}

theorem HasFirsts.mem_identity_iff (h : HasFirsts selections level) {identity : Identity} :
    identity ∈ selections.map Selection.identity ↔
      ∃ slot ∈ level.slots, slot.identity = identity := by
  have hsame : (firsts selections).map Selection.identity = level.slots.map Slot.identity :=
    List.forall₂_eq_eq_eq ▸
      List.forall₂_map_left_iff.mpr (List.forall₂_map_right_iff.mpr
        (h.imp fun _ _ hopened => hopened.identity_eq))
  rw [← Selection.mem_identity_firsts, hsame, List.mem_map]

/-- An addition opens a slot for a selection that is the first of its kind, and no other. -/
theorem HasFirsts.add (h : HasFirsts selections level)
    (hadd : Level.add merged level occurrence = .ok result) :
    HasFirsts (selections ++ [occurrence.selection]) result := by
  unfold HasFirsts
  rw [Selection.firsts_concat]
  cases adds_of_add hadd with
  | fragment hfragment heq =>
      subst heq
      have hseen : occurrence.selection.identity ∈ selections.map identity ↔
          level.slots.any (Slot.hasText occurrence.selection.text) = true := by
        rw [h.mem_identity_iff, Selection.identity_of_not_field hfragment, List.any_eq_true]
        refine exists_congr fun slot => and_congr_right fun _ => ?_
        cases slot with
        | field signature head below? => simp [Slot.identity, Slot.hasText]
        | fragment selection => simp [Slot.identity, Slot.hasText]
      simp only [addFragment, hseen]
      split
      · exact h
      · exact List.rel_append h (.cons (.fragment _ hfragment) .nil)
  | opens head nested? hadds hnew hslots =>
      have hfresh : occurrence.selection.identity ∉ selections.map identity := by
        rw [hadds.selection, h.mem_identity_iff]
        rintro ⟨slot, hmem, heq⟩
        cases slot with
        | field signature target below? =>
            exact hnew _ hmem (congrArg some (Identity.field.inj heq))
        | fragment selection => simp [Slot.identity, identity] at heq
      rw [if_neg hfresh, hslots, hadds.selection]
      exact List.rel_append h (.cons (.field head nested? _ _ Option.isSome_map) .nil)
  | joins head nested? target below? hadds hslot hshape hslots =>
      have hseen : occurrence.selection.identity ∈ selections.map identity := by
        rw [hadds.selection, h.mem_identity_iff]
        exact ⟨_, hslot, rfl⟩
      rw [if_pos hseen, hslots]
      cases nested? with
      | none => exact h
      | some nested =>
          exact List.forall₂_map_right_iff.mpr (h.imp fun _ _ hopened => hopened.extend _ _)

end Step

/-- **A level has a slot for the first of each of its selections**, and no other. -/
theorem hasFirsts_of_foldlM {merged : FieldPath} {occurrences : List Occurrence} {level : Level}
    (h : occurrences.foldlM (add merged) {} = .ok level) :
    HasFirsts (occurrences.map Occurrence.selection) level := by
  induction occurrences using List.reverseRecOn generalizing level with
  | nil =>
      obtain rfl := Except.ok.inj h
      exact .nil
  | append_singleton front last ih =>
      obtain ⟨middle, hfront, hadd⟩ := Outcomes.foldlM_concat_eq_ok.mp h
      rw [List.map_append]
      exact (ih hfront).add hadd

end Level

/-! ### Merges -/

/-- Everything that is contributed, one selection set after another. -/
def contributedSelections (contributions : List Contribution) : List Selection :=
  contributions.flatMap Contribution.selections

theorem contributedSelections_eq (contributions : List Contribution) :
    contributedSelections contributions =
      (contributions.flatMap Contribution.occurrences).map Occurrence.selection := by
  unfold contributedSelections
  rw [List.map_flatMap]
  refine List.flatMap_congr fun contribution _ => ?_
  rw [Contribution.occurrences, List.map_map]
  exact (List.map_id _).symm

/-- What is contributed below a slot is what the fields of its signature select. -/
theorem contributedSelections_below {contributions below : List Contribution}
    {signature : FieldSignature}
    (hbelow : contributionsBelow signature (contributions.flatMap Contribution.occurrences) =
      some below) :
    contributedSelections below =
      selectedBelow (contributedSelections contributions) signature := by
  obtain rfl := filterMap_of_contributionsBelow hbelow
  rw [contributedSelections_eq contributions, contributedSelections, flatMap_filterMap,
    selectedBelow, List.flatMap_map]
  refine List.flatMap_congr fun occurrence _ => ?_
  cases hselection : occurrence.selection with
  | field head nested? =>
      rw [Occurrence.contribution?_field hselection]
      cases nested? with
      | none =>
          split
          · rfl
          · rfl
      | some nested =>
          rw [Selection.nestedOf]
          split
          · rfl
          · rfl
  | spread name directives =>
      rw [Occurrence.contribution?_fragment (by simp [hselection])]
      rfl
  | inlineFragment condition? directives nested =>
      rw [Occurrence.contribution?_fragment (by simp [hselection])]
      rfl

namespace MergedSelections

/-- The merge is the union of what is contributed, other aliases apart. -/
def MakesUnion (contributions : List Contribution) (result : MergedSelections) : Prop :=
  List.Forall₂ Realiased (union (contributedSelections contributions)) result.selections

section Step

variable {merged : FieldPath} {contributions : List Contribution} {level : Level}
  (hholds : Level.Holds merged (contributions.flatMap Contribution.occurrences) level)

include hholds

/-- A slot becomes the selection that opened it, with the union of what is selected below. -/
theorem realiased_of_part {first : Selection} {slot : Slot} {part : MergedSelections}
    (hopened : Slot.OpenedBy first slot) (hslot : slot ∈ level.slots)
    (hpart : Part (fun path below nested => Merges path below nested ∧ MakesUnion below nested)
      merged slot part) :
    List.Forall₂ Realiased [first.mapNested fun signature =>
      union (selectedBelow (contributedSelections contributions) signature)] part.selections := by
  cases hopened with
  | fragment _ hfragment =>
      cases hpart with
      | fragment =>
          rw [Selection.mapNested_of_not_field hfragment]
          exact .cons (.same first) .nil
  | field head nested? alias? below? hshape =>
      cases hpart with
      | leaf =>
          obtain rfl := Option.isNone_iff_eq_none.mp (Option.isSome_eq_false_iff.mp hshape.symm)
          exact .cons (.leaf head alias?) .nil
      | field signature target below nested hnested =>
          obtain ⟨own, rfl⟩ := Option.isSome_iff_exists.mp hshape.symm
          have hunion := hnested.2
          rw [MakesUnion, contributedSelections_below (hholds.below hslot).symm] at hunion
          exact .cons (.field head alias? hunion) .nil

end Step

/-- What relates each slot to what it becomes relates the slots to all that they become. -/
theorem forall₂_of_parts {R : Selection → Selection → Prop}
    {P : FieldPath → List Contribution → MergedSelections → Prop} {merged : FieldPath}
    {becomes : Selection → Selection} {kept : List Selection} {slots : List Slot}
    {parts : List MergedSelections} (hopened : List.Forall₂ Slot.OpenedBy kept slots)
    (hparts : List.Forall₂ (Part P merged) slots parts)
    (hpart : ∀ first slot part, slot ∈ slots → Slot.OpenedBy first slot →
      Part P merged slot part → List.Forall₂ R [becomes first] part.selections) :
    List.Forall₂ R (kept.map becomes) (parts.flatMap selections) := by
  induction hopened generalizing parts with
  | nil =>
      cases hparts
      exact .nil
  | cons hfirst _ ih =>
      cases hparts with
      | cons hbecomes hrest =>
          rw [List.map_cons, List.flatMap_cons]
          exact List.rel_append (hpart _ _ _ List.mem_cons_self hfirst hbecomes)
            (ih hrest fun first slot part hslot => hpart first slot part
              (List.mem_cons_of_mem _ hslot))

/-- **A merge makes the union of what is contributed.** -/
theorem Merges.makesUnion {merged : FieldPath} {contributions : List Contribution}
    {result : MergedSelections} (h : Merges merged contributions result) :
    MakesUnion contributions result := by
  refine Merges.levels (P := fun _ => MakesUnion) ?_ h
  intro merged contributions level parts aliased hlevel hparts
  have hfirsts := Level.hasFirsts_of_foldlM hlevel
  rw [← contributedSelections_eq] at hfirsts
  rw [MakesUnion, Selection.union_eq]
  exact forall₂_of_parts hfirsts hparts fun first slot part hslot hopened hpart =>
    realiased_of_part (Level.holds_ofContributions hlevel) hopened hslot hpart

end MergedSelections

namespace MergedBatch

/-- What the calls of a batch select, one after another, with their variables and spreads under
their merged names. -/
def preparedSelections (calls : List CallDocument) : List Selection :=
  (prepare {} calls).2.flatMap fun prepared => prepared.2.selections

/--
**The merged operation is the ordered union of the calls**: at every level the first of each field
and of each fragment of all that the calls select there, in the order of first appearance, with
the name, arguments and directives of its first contributor and the union of all contributors
below it.
-/
theorem selections_eq_union {calls : List CallDocument} {batch : MergedBatch}
    (hmerge : ofCalls calls = .ok batch) :
    List.Forall₂ Realiased (union (preparedSelections calls)) batch.operation.selections := by
  obtain ⟨registry, operations, merged, hmade⟩ := exists_assembled hmerge
  have hunion := hmade.merges.makesUnion
  have hcontributed : contributedSelections (rootContributions operations) =
      preparedSelections calls := by
    rw [preparedSelections, hmade.made]
    exact List.flatMap_map _ _ _
  rw [MergedSelections.MakesUnion, hcontributed] at hunion
  rw [hmade.selections]
  exact hunion

/-- Two calls with a repeated field between fragments, and different fields under one key. -/
theorem selections_eq_union_pair :
    ∃ calls batch, callsFrom 0
        ["\x7b a \x7b b \x7d ... \x7b c \x7d k: d \x7d",
          "\x7b k: e ... \x7b c \x7d a \x7b c b \x7d \x7d"] = .ok calls ∧
      ofCalls calls = .ok batch ∧
      List.Forall₂ Realiased (union (preparedSelections calls)) batch.operation.selections := by
  have hmerged : (mergeQueries
      ["\x7b a \x7b b \x7d ... \x7b c \x7d k: d \x7d",
        "\x7b k: e ... \x7b c \x7d a \x7b c b \x7d \x7d"]).isOk = true := by
    decide +kernel
  obtain ⟨calls, batch, hcalls, hbatch⟩ := exists_of_mergeQueries hmerged
  exact ⟨calls, batch, hcalls, hbatch, selections_eq_union hbatch⟩

end MergedBatch

end QueryBatching
