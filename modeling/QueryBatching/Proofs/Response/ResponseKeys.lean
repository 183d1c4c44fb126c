/-
The response keys of a merged operation.

At every level that is reached through plain fields each response key is there once, and it is
the one that is chosen for the first call of the batch which has a field there.  The slots of a
level say so of the merge that makes it; going down, the level below a field is the level that
the merge below its slot makes, and whatever is placed there is placed by that merge.  The calls
contribute in the order of the batch, at the root and so at all levels below, which is why the
first occurrence of a field is one of the first call.
-/
import QueryBatching.Proofs.Merge.SlotKeys
import QueryBatching.Proofs.Response.FieldPaths

namespace QueryBatching

open Selection (fieldsAt fieldsUnder key? selectionsUnder)

/-! ### Levels of an operation -/

namespace Selection

/-- The selections below a path of response keys. -/
def levelBelow : List Selection → List String → List Selection
  | selections, [] => selections
  | selections, key :: rest => levelBelow (selectionsUnder selections key) rest

theorem levelBelow_nil (keys : List String) : levelBelow [] keys = [] := by
  induction keys with
  | nil => rfl
  | cons key rest ih => exact ih

/-- The fields at the end of a path are the fields of the level above it. -/
theorem fieldsAt_concat (selections : List Selection) (keys : List String) (key : String) :
    fieldsAt selections (keys ++ [key]) = fieldsUnder (levelBelow selections keys) key := by
  induction keys generalizing selections with
  | nil => rfl
  | cons next rest ih =>
      rw [List.cons_append, fieldsAt_cons (by simp), ih]
      rfl

/-- The fields at the end of a path have its last key. -/
theorem responseKey_of_mem_fieldsAt {selections : List Selection} {keys : List String}
    {key : String} {found : Field × List Selection}
    (h : found ∈ fieldsAt selections (keys ++ [key])) : found.1.responseKey = key := by
  rw [fieldsAt_concat] at h
  obtain ⟨_, _, -, hkey, rfl⟩ := mem_fieldsUnder.mp h
  exact hkey

/-- A field of a level is at the end of the path to the level and its own key. -/
theorem mem_fieldsAt_of_mem_levelBelow {selections : List Selection} {keys : List String}
    {head : Field} {nested? : Option (List Selection)}
    (h : .field head nested? ∈ levelBelow selections keys) :
    (head, nested?.getD []) ∈ fieldsAt selections (keys ++ [head.responseKey]) := by
  rw [fieldsAt_concat]
  exact mem_fieldsUnder.mpr ⟨head, nested?, h, rfl, rfl⟩

end Selection

open Selection (levelBelow)

/-! ### Selections of slots -/

/-- The selection of a slot. -/
inductive Slot.Shown : Slot → Selection → Prop
  | field (signature : FieldSignature) (head : Field) (below? : Option (List Contribution))
      (nested? : Option (List Selection)) :
    Shown (.field signature head below?) (.field head nested?)
  | fragment {selection : Selection} (h : selection.key? = none) :
    Shown (.fragment selection) selection

theorem Slot.filterMap_key?_of_shown {slots : List Slot} {selections : List Selection}
    (h : List.Forall₂ Shown slots selections) :
    selections.filterMap Selection.key? = slots.filterMap Slot.key? := by
  induction h with
  | nil => rfl
  | cons hfirst _ ih =>
      cases hfirst with
      | field signature head below? nested? =>
          have hhead : Selection.key? (.field head nested?) = some head.responseKey := rfl
          have hslot : key? (.field signature head below?) = some head.responseKey := rfl
          rw [List.filterMap_cons_some hhead, List.filterMap_cons_some hslot, ih]
      | fragment hkey => rw [List.filterMap_cons_none hkey, List.filterMap_cons_none rfl, ih]

/-- Behind the selections in front of a field stands its slot behind their slots. -/
theorem Slot.exists_prefix_of_shown {slots : List Slot} {selections front : List Selection}
    {head : Field} {nested? : Option (List Selection)} (h : List.Forall₂ Shown slots selections)
    (hfront : front ++ [.field head nested?] <+: selections) :
    ∃ before signature below?, before ++ [.field signature head below?] <+: slots ∧
      front.filterMap Selection.key? = before.filterMap Slot.key? := by
  obtain ⟨back, rfl⟩ := hfront
  obtain ⟨upTo, after, rfl, hupTo, -⟩ := Outcomes.exists_append h.flip
  obtain ⟨before, last, rfl, hbefore, hlast⟩ := Outcomes.exists_append hupTo
  obtain ⟨slot, rest, hslot, hrest, rfl⟩ := List.forall₂_cons_left_iff.mp hlast
  obtain rfl := List.forall₂_nil_left_iff.mp hrest
  cases hslot with
  | field signature head below? nested? =>
      exact ⟨before, signature, below?, List.prefix_append _ _,
        filterMap_key?_of_shown hbefore.flip⟩
  | fragment hkey => simp [Selection.key?] at hkey

/-! ### The order of contributions -/

/-- The calls contribute in their order. -/
def Ordered (rank : Nat → Nat) (contributions : List Contribution) : Prop :=
  contributions.Pairwise fun a b => rank a.call ≤ rank b.call

section Ordered

variable {rank : Nat → Nat} {contributions : List Contribution} (h : Ordered rank contributions)

include h

theorem Ordered.occurrences :
    (contributions.flatMap Contribution.occurrences).Pairwise
      fun a b => rank a.call ≤ rank b.call := by
  refine List.pairwise_flatMap.mpr ⟨fun contribution _ => ?_, h.imp fun {a b} hle => ?_⟩
  · exact List.pairwise_map.mpr (List.pairwise_of_forall fun _ _ => le_rfl)
  · intro x hx y hy
    obtain ⟨_, -, rfl⟩ := List.mem_map.mp hx
    obtain ⟨_, -, rfl⟩ := List.mem_map.mp hy
    exact hle

/-- What they contribute below a field is in their order too. -/
theorem Ordered.below {signature : FieldSignature} {below : List Contribution}
    (hbelow : contributionsBelow signature (contributions.flatMap Contribution.occurrences) =
      some below) : Ordered rank below := by
  have hcall : ∀ {occurrence contribution},
      Occurrence.contribution? signature occurrence = some contribution →
        contribution.call = occurrence.call := by
    intro occurrence contribution hsome
    unfold Occurrence.contribution? at hsome
    split at hsome
    · split at hsome
      · obtain rfl := Option.some.inj hsome
        rfl
      · simp at hsome
    · simp at hsome
  obtain rfl := filterMap_of_contributionsBelow hbelow
  refine List.Pairwise.filterMap _ ?_ h.occurrences
  intro a b hle c hc d hd
  rw [hcall hc, hcall hd]
  exact hle

end Ordered

/-- No call before that of the first occurrence has a field of the signature. -/
theorem Level.FirstOf.rank_le {rank : Nat → Nat} {occurrences before : List Occurrence}
    {signature : FieldSignature} {occurrence other : Occurrence} {head own : Field}
    {nested? : Option (List Selection)}
    (h : FirstOf occurrences signature before occurrence head)
    (hordered : occurrences.Pairwise fun a b => rank a.call ≤ rank b.call)
    (hmem : other ∈ occurrences) (hselection : other.selection = .field own nested?)
    (hsignature : own.signature = signature) : rank occurrence.call ≤ rank other.call := by
  obtain ⟨back, rfl⟩ := h.prefix_eq
  rw [List.append_assoc, List.singleton_append] at hmem hordered
  rcases List.mem_append.mp hmem with hmem | hmem
  · exact absurd hsignature (h.ne other hmem own nested? hselection)
  · rcases List.mem_cons.mp hmem with rfl | hmem
    · exact le_rfl
    · exact List.rel_of_pairwise_cons (List.pairwise_append.mp hordered).2.1 hmem

namespace MergedSelections

variable {merged path : FieldPath} {contributions : List Contribution} {call : Nat}

/-- The field of a call at its own path is placed there, and none of an earlier call is. -/
structure PlacedFirst (rank : Nat → Nat) (placements : List Placement) (place : FieldPath)
    (call : Nat) (own : FieldPath) : Prop where
  placed : .field call own place ∈ placements
  rank_le : ∀ {other own'}, .field other own' place ∈ placements → rank call ≤ rank other

section Step

variable {P : FieldPath → List Contribution → MergedSelections → Prop} {level : Level}
  {parts : List MergedSelections}
  (hholds : Level.Holds merged (contributions.flatMap Contribution.occurrences) level)
  (hparts : List.Forall₂
    (Part (fun path below nested => Merges path below nested ∧ P path below nested) merged)
    level.slots parts)

include hholds hparts

/-- The selections of a merge are those of its slots. -/
theorem shown_parts : List.Forall₂ Slot.Shown level.slots (parts.flatMap selections) := by
  have hone : List.Forall₂ (fun slot part => ∃ selection, part.selections = [selection] ∧
      Slot.Shown slot selection) level.slots parts := by
    refine Outcomes.imp_of_mem hparts fun slot hslot part hbecomes => ?_
    cases hbecomes with
    | fragment selection =>
        obtain ⟨-, -, -, hfragment⟩ := hholds.fragments hslot
        refine ⟨selection, rfl, .fragment ?_⟩
        cases selection with
        | field head nested? => exact absurd rfl (hfragment head nested?)
        | spread name directives => rfl
        | inlineFragment condition? directives nested => rfl
    | leaf signature head => exact ⟨_, rfl, .field signature head none none⟩
    | field signature head below nested hnested =>
        exact ⟨_, rfl, .field signature head (some below) (some nested.selections)⟩
  generalize level.slots = slots at hone
  clear hparts
  induction hone with
  | nil => exact .nil
  | cons hfirst _ ih =>
      obtain ⟨selection, hselection, hshown⟩ := hfirst
      rw [List.flatMap_cons, hselection]
      exact .cons hshown ih

/-- **One level down**: there is nothing below a key, or it is what the merge below a slot has. -/
theorem levelBelow_parts (key : String) (rest : List String) :
    levelBelow (parts.flatMap selections) (key :: rest) = [] ∨
      ∃ signature target below nested, .field signature target (some below) ∈ level.slots ∧
        target.responseKey = key ∧ Merges (merged.child key) below nested ∧
        P (merged.child key) below nested ∧
        (∀ placement ∈ nested.placements, placement ∈ parts.flatMap placements) ∧
        levelBelow (parts.flatMap selections) (key :: rest) =
          levelBelow nested.selections rest := by
  rcases List.eq_nil_or_concat (selectionsUnder (parts.flatMap selections) key) with hnil | hsome
  · left
    rw [levelBelow, hnil, Selection.levelBelow_nil]
  · right
    obtain ⟨front, selection, hsome⟩ := hsome
    have hmem : selection ∈ selectionsUnder (parts.flatMap selections) key := by simp [hsome]
    obtain ⟨head, nested, hselected, rfl, -⟩ := Selection.mem_selectionsUnder.mp hmem
    obtain ⟨part, hpart, hselection⟩ := List.mem_flatMap.mp hselected
    obtain ⟨slot, hslot, hbecomes⟩ := Outcomes.exists_left hparts hpart
    cases hbecomes with
    | fragment kept =>
        obtain ⟨-, -, -, hfragment⟩ := hholds.fragments hslot
        exact absurd (List.mem_singleton.mp hselection).symm (hfragment head (some nested))
    | leaf signature target => simp at hselection
    | field signature target below result hresult =>
        obtain ⟨rfl, hnested⟩ := Selection.field.inj (List.mem_singleton.mp hselection)
        obtain rfl := Option.some.inj hnested
        refine ⟨signature, head, below, result, hslot, rfl, hresult.1, hresult.2,
          fun placement hplaced => List.mem_flatMap.mpr ⟨_, hpart, hplaced⟩, ?_⟩
        rw [levelBelow, selectionsUnder, fieldsUnder_slot hholds hparts hslot hselected,
          List.flatMap_singleton, Option.getD_some]

/-- What is placed below a slot is placed by the merge below it. -/
theorem placed_below (hpath : AtPath call path contributions) {signature : FieldSignature}
    {target : Field} {below : List Contribution} {nested : MergedSelections}
    (hslot : .field signature target (some below) ∈ level.slots)
    (hmerges : Merges (merged.child target.responseKey) below nested) {own place : FieldPath}
    (hbelow : (merged.child target.responseKey).isBelow place = true)
    (hmem : .field call own place ∈ level.placements ++ parts.flatMap placements) :
    .field call own place ∈ nested.placements := by
  obtain ⟨_, hkeys⟩ := FieldPath.isBelow_iff.mp hbelow
  rcases cases_of_placed hholds hparts hpath hmem with
    ⟨_, target', _, -, -, -, rfl⟩ |
      ⟨signature', target', below', nested', hslot', hbelow', hmerges', -, hplaced'⟩
  · have hlength := hkeys.length_le
    simp at hlength
  · obtain ⟨hplace', -⟩ := hmerges'.placesFields call (hpath.below hbelow') hplaced'
    obtain ⟨_, hkeys'⟩ := FieldPath.isBelow_iff.mp hplace'
    have hkey := FieldPath.key_unique ((List.prefix_append _ _).trans hkeys)
      ((List.prefix_append _ _).trans hkeys')
    have hsame := hholds.slot_eq_of_key hslot hslot' rfl (congrArg some hkey.symm)
    obtain ⟨rfl, rfl, hbelows⟩ := Slot.field.inj hsame
    obtain rfl := Option.some.inj hbelows
    obtain rfl := hmerges.unique hmerges'
    exact hplaced'

/-- At a level it is the call of the first occurrence. -/
theorem placedFirst_of_firstOf {rank : Nat → Nat} (hordered : Ordered rank contributions)
    (hpaths : ∀ call, ∃ path, AtPath call path contributions) {signature : FieldSignature}
    {target head : Field} {below? : Option (List Contribution)}
    (hslot : .field signature target below? ∈ level.slots) {before : List Occurrence}
    {occurrence : Occurrence}
    (hfirst : Level.FirstOf (contributions.flatMap Contribution.occurrences) signature before
      occurrence head) :
    PlacedFirst rank (level.placements ++ parts.flatMap placements)
      (merged.child target.responseKey) occurrence.call
      (occurrence.path.child head.responseKey) where
  placed := by
    obtain ⟨nested?, hselection⟩ := hfirst.selection
    have hmem := hfirst.prefix_eq.subset (List.mem_append_right _ List.mem_cons_self)
    obtain ⟨placement, hplacement, hplaced⟩ := Outcomes.exists_right hholds.placements hmem
    simp only [Level.Placed, hselection] at hplaced
    obtain ⟨other, _, hslot', rfl⟩ := hplaced
    rw [hfirst.signature_eq] at hslot'
    obtain ⟨-, rfl, -⟩ := Slot.field.inj (hholds.slot_eq hslot hslot' rfl rfl)
    exact List.mem_append_left _ hplacement
  rank_le := by
    intro other own hmem
    obtain ⟨path, hpath⟩ := hpaths other
    rcases cases_of_placed hholds hparts hpath hmem with
      ⟨signature', target', _, hfield, hslot', -, hplace⟩ |
      ⟨_, target', below', nested', -, hbelow', hmerges', -, hplaced'⟩
    · have hkey : target.responseKey = target'.responseKey := by
        simpa [FieldPath.child] using hplace
      have hsame := hholds.slot_eq_of_key hslot hslot' rfl (congrArg some hkey.symm)
      obtain ⟨rfl, -, -⟩ := Slot.field.inj hsame
      obtain ⟨contribution, hin, rfl, own', nested?, hselection, hsignature⟩ := hfield
      exact hfirst.rank_le hordered.occurrences
        (mem_occurrences.mpr ⟨contribution, hin, _, hselection, rfl⟩) rfl hsignature
    · exact absurd rfl (hmerges'.place_ne (hpath.below hbelow') hplaced' target.responseKey)

end Step

/-! ### Keys of all levels -/

/-- No two fields of a level have one response key. -/
def KeysApart (result : MergedSelections) : Prop :=
  ∀ keys, ((levelBelow result.selections keys).filterMap key?).Nodup

theorem Merges.keysApart {result : MergedSelections} (h : Merges merged contributions result) :
    KeysApart result := by
  refine Merges.induction (P := fun _ _ => KeysApart) ?_ h
  intro merged contributions level parts aliased hholds hparts keys
  cases keys with
  | nil =>
      show ((parts.flatMap selections).filterMap key?).Nodup
      rw [Slot.filterMap_key?_of_shown (shown_parts hholds hparts)]
      exact hholds.keys
  | cons key rest =>
      show ((levelBelow (parts.flatMap selections) (key :: rest)).filterMap key?).Nodup
      rcases levelBelow_parts hholds hparts key rest with
        hnil | ⟨signature, target, below, nested, -, -, -, hnested, -, heq⟩
      · rw [hnil]
        exact List.nodup_nil
      · rw [heq]
        exact hnested rest

/-- Every field has the key that is chosen for the first call that has a field there. -/
def KeysOfFirst (rank : Nat → Nat) (merged : FieldPath) (contributions : List Contribution)
    (result : MergedSelections) : Prop :=
  Ordered rank contributions → (∀ call, ∃ path, AtPath call path contributions) →
    ∀ keys front head nested?,
      front ++ [.field head nested?] <+: levelBelow result.selections keys →
      ∃ call, ∃ above : FieldPath, ∃ asked,
        PlacedFirst rank result.placements ⟨merged.keys ++ (keys ++ [head.responseKey])⟩ call
          (above.child asked) ∧
        KeyChosen (front.filterMap key?) call head.name asked head.responseKey

theorem Merges.keysOfFirst {result : MergedSelections} (h : Merges merged contributions result)
    (rank : Nat → Nat) : KeysOfFirst rank merged contributions result := by
  refine Merges.levels (P := KeysOfFirst rank) ?_ h
  intro merged contributions level parts aliased hlevel hparts hordered hpaths keys front head
    nested? hfront
  have hholds := Level.holds_ofContributions hlevel
  cases keys with
  | nil =>
      obtain ⟨before, signature, below?, hslots, hkeys⟩ :=
        Slot.exists_prefix_of_shown (shown_parts hholds hparts) hfront
      have hslot : .field signature head below? ∈ level.slots :=
        hslots.subset (List.mem_append_right _ List.mem_cons_self)
      obtain ⟨earlier, occurrence, own, hfirst, hchosen⟩ :=
        Level.keysChosen_of_foldlM hlevel _ _ _ _ hslots
      have hname : head.name = own.name := by
        rw [(name_and_arguments_of_slot hholds hslot).1, ← hfirst.signature_eq]
        rfl
      rw [hkeys, hname]
      exact ⟨occurrence.call, occurrence.path, own.responseKey,
        placedFirst_of_firstOf hholds hparts hordered hpaths hslot hfirst, hchosen⟩
  | cons key rest =>
      change front ++ [.field head nested?] <+:
        levelBelow (parts.flatMap selections) (key :: rest) at hfront
      rcases levelBelow_parts hholds hparts key rest with
        hnil | ⟨signature, target, below, nested, hslot, rfl, hmerges, hnested, hin, heq⟩
      · simp [hnil] at hfront
      · rw [heq] at hfront
        have hbelow := (hholds.below hslot).symm
        obtain ⟨call, above, asked, hplaced, hchosen⟩ := hnested (hordered.below hbelow)
          (fun call => (hpaths call).imp' _ fun _ hpath => hpath.below hbelow) rest front head
          nested? hfront
        have hplace : merged.keys ++ (target.responseKey :: rest ++ [head.responseKey]) =
            (merged.child target.responseKey).keys ++ (rest ++ [head.responseKey]) := by simp
        rw [hplace]
        refine ⟨call, above, asked, ⟨List.mem_append_right _ (hin _ hplaced.placed), ?_⟩, hchosen⟩
        intro other own hmem
        obtain ⟨path, hpath⟩ := hpaths other
        refine hplaced.rank_le (placed_below hholds hparts hpath hslot hmerges ?_ hmem)
        rw [FieldPath.isBelow, decide_eq_true_eq]
        refine ⟨List.prefix_append _ _, fun heq => ?_⟩
        have hlength := congrArg (fun path : FieldPath => path.keys.length) heq
        simp at hlength

end MergedSelections

/-! ### The keys of a batch -/

namespace MergedBatch

/-- A call has a field that is served at a place, and no earlier call has. -/
structure ServedFirst (calls : List CallDocument) (mapping : PathMapping) (place : FieldPath)
    (call : CallDocument) (own : FieldPath) : Prop where
  served : mapping.get? call.index own = some place
  first : ∃ front back, calls = front ++ call :: back ∧
    ∀ earlier ∈ front, ∀ other, mapping.get? earlier.index other ≠ some place

/-- The calls contribute at the root in the order of the batch. -/
theorem ordered_rootContributions {calls : List CallDocument} (registry : FragmentRegistry)
    (hindices : (calls.map CallDocument.index).Nodup) :
    Ordered (fun index => (calls.map CallDocument.index).idxOf index)
      (rootContributions (prepare registry calls).2) := by
  have hcalls : (rootContributions (prepare registry calls).2).map Contribution.call =
      calls.map CallDocument.index := by
    have hprepared := forall₂_prepare registry calls
    generalize (prepare registry calls).2 = operations at hprepared
    clear hindices
    induction hprepared with
    | nil => rfl
    | cons hfirst _ ih =>
        obtain ⟨renames, rfl⟩ := hfirst
        rw [List.map_cons, ← ih]
        rfl
  have hsorted : (calls.map CallDocument.index).Pairwise fun a b =>
      (calls.map CallDocument.index).idxOf a ≤ (calls.map CallDocument.index).idxOf b := by
    rw [List.pairwise_iff_getElem]
    intro i j hi hj hlt
    rw [hindices.idxOf_getElem, hindices.idxOf_getElem]
    exact hlt.le
  rw [← hcalls] at hsorted ⊢
  have hcontributed := List.pairwise_map.mp hsorted
  exact hcontributed

/-- What is placed first is served first. -/
theorem Assembled.servedFirst {calls : List CallDocument} {batch : MergedBatch}
    {registry : FragmentRegistry} {operations : List (Nat × Operation)} {merged : MergedSelections}
    (h : Assembled calls batch registry operations merged)
    (hindices : (calls.map CallDocument.index).Nodup) {place own : FieldPath} {index : Nat}
    (hplaced : MergedSelections.PlacedFirst
      (fun index => (calls.map CallDocument.index).idxOf index) merged.placements place index own) :
    ∃ call ∈ calls, call.index = index ∧ ServedFirst calls batch.mapping place call own := by
  obtain ⟨contribution, hin, hindex⟩ := h.merges.exists_call hplaced.placed
  have hoperations : operations = (prepare {} calls).2 := by rw [h.made]
  rw [hoperations] at hin
  obtain ⟨call, hmem, hcall⟩ := exists_call_of_rootContributions hin
  obtain rfl : call.index = index := hcall.trans hindex
  refine ⟨call, hmem, rfl, h.get?_eq_some hplaced.placed, ?_⟩
  obtain ⟨before, after, rfl⟩ := List.append_of_mem hmem
  refine ⟨before, after, rfl, fun earlier hearlier other hother => ?_⟩
  -- An earlier call that is served there would be of a lower rank.
  have hle := hplaced.rank_le (h.leads_of_get? hother).1
  rw [List.map_append, List.map_cons, List.nodup_append] at hindices
  have hnot : call.index ∉ before.map CallDocument.index := fun hin =>
    hindices.2.2 _ hin _ List.mem_cons_self rfl
  have hin := List.mem_map_of_mem (f := CallDocument.index) hearlier
  simp only [List.map_append, List.map_cons, List.idxOf_append_of_mem hin,
    List.idxOf_append_of_notMem hnot, List.idxOf_cons_self] at hle
  have hlt := List.idxOf_lt_length_of_mem hin
  omega

/--
**Response keys stay unique.**  At every level of the merged operation that is reached through
plain fields no two fields have the same response key.  Each has the key that the first call with
a field there asks for, unless a field in front has it; then it has the first of those made from
the name and the number of that call that none in front has.
-/
theorem responseKeys_unique {calls : List CallDocument} {batch : MergedBatch}
    (hindices : (calls.map CallDocument.index).Nodup) (hmerge : ofCalls calls = .ok batch)
    (keys : List String) :
    ((levelBelow batch.operation.selections keys).filterMap key?).Nodup ∧
      ∀ front head nested?,
        front ++ [.field head nested?] <+: levelBelow batch.operation.selections keys →
        ∃ call own found, ServedFirst calls batch.mapping ⟨keys ++ [head.responseKey]⟩ call own ∧
          found ∈ fieldsAt call.operation.selections own.keys ∧ head.name = found.1.name ∧
          KeyChosen (front.filterMap key?) call.index found.1.name found.1.responseKey
            head.responseKey := by
  obtain ⟨registry, operations, merged, hmade⟩ := exists_assembled hmerge
  have hoperations : operations = (prepare {} calls).2 := by rw [hmade.made]
  refine ⟨hmade.selections ▸ hmade.merges.keysApart keys, fun front head nested? hfront => ?_⟩
  obtain ⟨index, above, asked, hplaced, hchosen⟩ := hmade.merges.keysOfFirst _
    (hoperations ▸ ordered_rootContributions {} hindices)
    (fun index => ⟨_, atPath_rootContributions operations index⟩) keys front head nested?
    (hmade.selections ▸ hfront)
  obtain ⟨call, hmem, rfl, hserved⟩ := hmade.servedFirst hindices hplaced
  have hexact := hmade.mapsExactly hindices hmem
  have hget : batch.mapping.get? call.index (above.child asked) =
      some ⟨keys ++ [head.responseKey]⟩ := hserved.served
  obtain ⟨target, nested, hreached, hsame⟩ := hexact.reached hget
  have hfields := (hexact.mem_iff (above.child asked)).mp (by
    rw [← Assoc.contains_iff_mem_keys, PathMapping.contains_entries, hget]
    rfl)
  obtain ⟨found, hfound⟩ := List.exists_mem_of_ne_nil _ hfields
  have hasked : found.1.responseKey = asked := by
    rw [FieldPath.keys_child] at hfound
    exact Selection.responseKey_of_mem_fieldsAt hfound
  have hname : head.name = found.1.name := by
    have hhead := Selection.mem_fieldsAt_of_mem_levelBelow
      (hfront.subset (List.mem_append_right _ List.mem_cons_self))
    rw [hreached] at hhead
    obtain rfl : head = target := congrArg Prod.fst (List.mem_singleton.mp hhead)
    exact (hsame found hfound).1
  refine ⟨call, above.child asked, found, hserved, hfound, hname, ?_⟩
  rw [hasked, ← hname]
  exact hchosen

/-- Keys that are made up by one call and asked for by another, at the root and below. -/
theorem responseKeys_unique_numbered :
    ∃ calls batch, callsFrom 0
        ["\x7b a_1_2: x a_1: y a \x7b k: b \x7d \x7d", "\x7b a(n: 1) a_1: c \x7d",
          "\x7b a_1_3: z a \x7b k: d d_2: b k_2: d \x7d \x7d"] = .ok calls ∧
      ofCalls calls = .ok batch ∧ (calls.map CallDocument.index).Nodup ∧
      ∀ keys, ((levelBelow batch.operation.selections keys).filterMap key?).Nodup ∧
        ∀ front head nested?,
          front ++ [.field head nested?] <+: levelBelow batch.operation.selections keys →
          ∃ call own found, ServedFirst calls batch.mapping ⟨keys ++ [head.responseKey]⟩ call own ∧
            found ∈ fieldsAt call.operation.selections own.keys ∧ head.name = found.1.name ∧
            KeyChosen (front.filterMap key?) call.index found.1.name found.1.responseKey
              head.responseKey := by
  have hmerged : (mergeQueries
      ["\x7b a_1_2: x a_1: y a \x7b k: b \x7d \x7d", "\x7b a(n: 1) a_1: c \x7d",
        "\x7b a_1_3: z a \x7b k: d d_2: b k_2: d \x7d \x7d"]).isOk = true := by
    decide +kernel
  obtain ⟨calls, batch, hcalls, hbatch⟩ := exists_of_mergeQueries hmerged
  have hindices := nodup_callsFrom hcalls
  exact ⟨calls, batch, hcalls, hbatch, hindices, responseKeys_unique hindices hbatch⟩

example : ((callsFrom 0
      ["\x7b a_1_2: x a_1: y a \x7b k: b \x7d \x7d", "\x7b a(n: 1) a_1: c \x7d",
        "\x7b a_1_3: z a \x7b k: d d_2: b k_2: d \x7d \x7d"]).toOption.bind fun calls =>
          (ofCalls calls).toOption.map fun batch =>
            ((levelBelow batch.operation.selections []).filterMap key?,
              (levelBelow batch.operation.selections ["a"]).filterMap key?)) =
    some (["a_1_2", "a_1", "a", "a_1_3", "c_1", "z_2"], ["k", "d_2", "b_2", "k_2"]) := by
  decide +kernel

end MergedBatch

end QueryBatching
