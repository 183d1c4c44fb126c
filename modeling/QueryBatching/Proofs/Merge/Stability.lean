/-
Later calls leave earlier ones alone.

The selections of the calls are added to a level in the order of the calls, so while later calls
add theirs, what earlier calls have put there only grows: slots stay in their places with the
keys they have, and get contributions behind those they have.  What a level is after the earlier
calls is therefore the level of the earlier calls alone, and the same holds of every level below.
Here the calls are told apart by a predicate that says which of them are late.
-/
import QueryBatching.Proofs.Merge.Routes
import QueryBatching.Proofs.Merge.WellFormed

namespace QueryBatching

/-! ### Selections that go on -/

/-- A selection, and what it is after more has been added below it, at any level. -/
inductive Selection.Continues : Selection → Selection → Prop
  | same (selection : Selection) : Continues selection selection
  | field (head : Field) {nested kept : List Selection} (more : List Selection)
      (h : List.Forall₂ Continues nested kept) :
    Continues (.field head (some nested)) (.field head (some (kept ++ more)))

/-- The selections are the first of the later ones, and so is what stands below each. -/
def Selection.Extend (earlier later : List Selection) : Prop :=
  ∃ kept more, later = kept ++ more ∧ List.Forall₂ Continues earlier kept

/-! ### Levels that go on -/

/-- Whatever stands below the slot is contributed by such calls. -/
def Slot.From (calls : Nat → Prop) : Slot → Prop
  | .field _ _ (some below) => ∀ contribution ∈ below, calls contribution.call
  | _ => True

section Level

variable (late : Nat → Bool)

/-- A slot, and what it is after late calls have added to it. -/
inductive Slot.Later : Slot → Slot → Prop
  | fragment (selection : Selection) : Later (.fragment selection) (.fragment selection)
  | leaf (signature : FieldSignature) (head : Field) :
    Later (.field signature head none) (.field signature head none)
  | field (signature : FieldSignature) (head : Field) (below more : List Contribution)
      (h : ∀ contribution ∈ more, late contribution.call = true) :
    Later (.field signature head (some below)) (.field signature head (some (below ++ more)))

/-- A level, and what it is after late calls have added to it. -/
structure Level.Later (level later : Level) : Prop where
  /-- The slots stay in their places, and others come behind them. -/
  slots : ∃ kept more, later.slots = kept ++ more ∧
    List.Forall₂ (Slot.Later late) level.slots kept ∧ ∀ slot ∈ more, slot.From (late · = true)
  /-- The placements stay in their places, and others come behind them. -/
  placements : ∃ more, later.placements = level.placements ++ more ∧
    ∀ placement ∈ more, late placement.call = true

variable {late}

theorem Slot.Later.refl (slot : Slot) : slot.Later late slot := by
  cases slot with
  | fragment selection => exact .fragment selection
  | field signature head below? =>
      cases below? with
      | none => exact .leaf signature head
      | some below =>
          have hnone : Slot.Later late _ _ := .field signature head below [] (by simp)
          rwa [List.append_nil] at hnone

theorem Slot.Later.extend {slot later : Slot} (h : slot.Later late later)
    (signature : FieldSignature) {contribution : Contribution}
    (hlate : late contribution.call = true) :
    slot.Later late (later.extend signature contribution) := by
  cases h with
  | fragment selection => exact .fragment selection
  | leaf own head =>
      rw [Slot.extend]
      split
      · exact .leaf own head
      · exact .leaf own head
  | field own head below more hmore =>
      rw [Slot.extend]
      split
      · rw [Option.map_some, List.append_assoc]
        refine .field own head below _ (List.forall_mem_append.mpr ⟨hmore, ?_⟩)
        exact List.forall_mem_singleton.mpr hlate
      · exact .field own head below more hmore

theorem Slot.From.extend {calls : Nat → Prop} {slot : Slot} (h : slot.From calls)
    (signature : FieldSignature) {contribution : Contribution} (hcall : calls contribution.call) :
    (slot.extend signature contribution).From calls := by
  cases slot with
  | fragment selection => trivial
  | field own head below? =>
      rw [Slot.extend]
      split
      · cases below? with
        | none => trivial
        | some below => exact List.forall_mem_append.mpr ⟨h, List.forall_mem_singleton.mpr hcall⟩
      · exact h

namespace Level

theorem Later.refl (level : Level) : level.Later late level where
  slots := ⟨level.slots, [], (List.append_nil _).symm,
    List.forall₂_same.mpr fun slot _ => .refl slot, fun _ h => absurd h List.not_mem_nil⟩
  placements := ⟨[], (List.append_nil _).symm, fun _ h => absurd h List.not_mem_nil⟩

/-- An addition places one thing, for the call of the occurrence. -/
theorem Adds.exists_placement {merged : FieldPath} {level result : Level} {occurrence : Occurrence}
    (h : Adds merged level occurrence result) :
    ∃ placement, result.placements = level.placements ++ [placement] ∧
      placement.call = occurrence.call := by
  cases h with
  | fragment hfragment heq => exact ⟨_, congrArg placements heq, rfl⟩
  | opens head nested? hadds hnew hslots => exact ⟨_, hadds.placements, rfl⟩
  | joins head nested? target below? hadds hslot hshape hslots => exact ⟨_, hadds.placements, rfl⟩

/-- What a late call adds to a level comes behind what is there. -/
theorem Later.add {level middle result : Level} {merged : FieldPath} {occurrence : Occurrence}
    (h : level.Later late middle) (hlate : late occurrence.call = true)
    (hadd : Level.add merged middle occurrence = .ok result) : level.Later late result := by
  have hadds := adds_of_add hadd
  obtain ⟨⟨kept, more, hslots, hkept, hmore⟩, placed, hplacements, hplaced⟩ := h
  have hopen : ∀ slot : Slot, slot.From (late · = true) →
      ∀ other ∈ more ++ [slot], other.From (late · = true) := fun slot hslot =>
    List.forall_mem_append.mpr ⟨hmore, List.forall_mem_singleton.mpr hslot⟩
  constructor
  case placements =>
    obtain ⟨placement, hplacement, hcall⟩ := hadds.exists_placement
    refine ⟨placed ++ [placement], by rw [hplacement, hplacements, List.append_assoc], ?_⟩
    exact List.forall_mem_append.mpr
      ⟨hplaced, List.forall_mem_singleton.mpr (hcall.symm ▸ hlate)⟩
  case slots =>
    cases hadds with
    | fragment hfragment heq =>
        subst heq
        obtain ⟨others, hothers, hcases⟩ := slots_addFragment middle occurrence.call
          occurrence.path occurrence.selection
        rcases hcases with ⟨rfl, -⟩ | rfl
        · exact ⟨kept, more, by rw [hothers, hslots, List.append_nil], hkept, hmore⟩
        · exact ⟨kept, more ++ [.fragment occurrence.selection],
            by rw [hothers, hslots, List.append_assoc], hkept, hopen (.fragment _) trivial⟩
    | opens head nested? hfield hnew hopens =>
        refine ⟨kept, more ++ _, hopens.trans (by rw [hslots, List.append_assoc]), hkept,
          hopen _ ?_⟩
        cases nested? with
        | none => trivial
        | some nested => exact List.forall_mem_singleton.mpr hlate
    | joins head nested? target below? hfield hslot hshape hjoins =>
        cases nested? with
        | none => exact ⟨kept, more, hjoins.trans hslots, hkept, hmore⟩
        | some nested =>
            have hbelow : late (occurrence.below head nested).call = true := hlate
            refine ⟨kept.map _, more.map _, hjoins.trans (by rw [joined, hslots, List.map_append]),
              List.forall₂_map_right_iff.mpr (hkept.imp fun _ _ h => h.extend _ hbelow), ?_⟩
            intro slot hmem
            obtain ⟨before, hbefore, rfl⟩ := List.mem_map.mp hmem
            exact (hmore before hbefore).extend _ hbelow

/-- **What late calls add to a level comes behind what is there.** -/
theorem later_of_foldlM {level later : Level} {merged : FieldPath} {occurrences : List Occurrence}
    (hlate : ∀ occurrence ∈ occurrences, late occurrence.call = true)
    (h : occurrences.foldlM (add merged) level = .ok later) : level.Later late later := by
  induction occurrences using List.reverseRecOn generalizing later with
  | nil =>
      obtain rfl := Except.ok.inj h
      exact .refl level
  | append_singleton front last ih =>
      rw [List.forall_mem_append] at hlate
      obtain ⟨hfront, hlast⟩ := hlate
      obtain ⟨middle, hmiddle, hadd⟩ := Outcomes.foldlM_concat_eq_ok.mp h
      exact (ih hfront hmiddle).add (hlast last List.mem_cons_self) hadd

/-- The level of the calls that come first goes on in the level of all. -/
theorem exists_later_of_append {merged : FieldPath} {front back : List Contribution}
    {later : Level} (hback : ∀ contribution ∈ back, late contribution.call = true)
    (h : ofContributions merged (front ++ back) = .ok later) :
    ∃ level, ofContributions merged front = .ok level ∧ level.Later late later := by
  unfold ofContributions at h
  rw [List.flatMap_append, List.foldlM_append] at h
  obtain ⟨level, hfront, hlater⟩ := Outcomes.bind_eq_ok.mp h
  refine ⟨level, hfront, later_of_foldlM (fun occurrence hmem => ?_) hlater⟩
  obtain ⟨contribution, hin, selection, -, rfl⟩ := mem_occurrences.mp hmem
  exact hback contribution hin

end Level

end Level

/-! ### Merges that go on -/

namespace MergedSelections

section Late

variable (late : Nat → Bool)

/-- The merge of the contributions in front, where those of late calls follow, in terms of the
merge of all. -/
structure Front (front : List Contribution) (merged : FieldPath) (result first : MergedSelections) :
    Prop where
  merges : Merges merged front first
  selections : Selection.Extend first.selections result.selections
  placements : first.placements = result.placements.filter fun placement => !late placement.call

/-- The contributions in front have a merge of their own. -/
def HasFront (merged : FieldPath) (contributions : List Contribution) (result : MergedSelections) :
    Prop :=
  ∀ front back, contributions = front ++ back →
    (∀ contribution ∈ front, late contribution.call = false) →
    (∀ contribution ∈ back, late contribution.call = true) →
    ∃ first, Front late front merged result first

variable {late} {merged : FieldPath}

/-- What a slot of the level in front becomes. -/
theorem exists_part {slot later : Slot} (hlater : slot.Later late later)
    (hfrom : slot.From (late · = false)) {part : MergedSelections}
    (hpart : Part (fun path below nested => Merges path below nested ∧
      HasFront late path below nested) merged later part) :
    ∃ first, Part Merges merged slot first ∧
      List.Forall₂ Selection.Continues first.selections part.selections ∧
      first.placements = part.placements.filter fun placement => !late placement.call := by
  cases hlater with
  | fragment selection =>
      cases hpart
      exact ⟨_, .fragment selection, .cons (.same selection) .nil, rfl⟩
  | leaf signature head =>
      cases hpart
      exact ⟨_, .leaf signature head, .cons (.same _) .nil, rfl⟩
  | field signature head below more hmore =>
      cases hpart with
      | field _ _ _ nested hnested =>
          obtain ⟨first, hmerges, ⟨kept, others, hselections, hkept⟩, hplacements⟩ :=
            hnested.2 below more rfl hfrom hmore
          refine ⟨_, .field signature head below first hmerges, ?_, hplacements⟩
          rw [hselections]
          exact .cons (.field head others hkept) .nil

/-- What is below the slots of a level, one after another, has what is below the slots of the
earlier level in front. -/
theorem exists_parts {slots later : List Slot} (hlater : List.Forall₂ (Slot.Later late) slots later)
    (hfrom : ∀ slot ∈ slots, slot.From (late · = false)) {parts : List MergedSelections}
    (hparts : List.Forall₂ (Part (fun path below nested => Merges path below nested ∧
      HasFront late path below nested) merged) later parts) :
    ∃ firsts, List.Forall₂ (Part Merges merged) slots firsts ∧
      List.Forall₂ Selection.Continues (firsts.flatMap selections) (parts.flatMap selections) ∧
      firsts.flatMap placements =
        (parts.flatMap placements).filter fun placement => !late placement.call := by
  induction hlater generalizing parts with
  | nil =>
      cases hparts
      exact ⟨[], .nil, .nil, rfl⟩
  | cons hslot _ ih =>
      rw [List.forall_mem_cons] at hfrom
      cases hparts with
      | cons hpart hrest =>
          obtain ⟨first, hfirst, hselections, hplacements⟩ := exists_part hslot hfrom.1 hpart
          obtain ⟨firsts, hfirsts, hselections', hplacements'⟩ := ih hfrom.2 hrest
          refine ⟨first :: firsts, .cons hfirst hfirsts, ?_, ?_⟩
          · rw [List.flatMap_cons, List.flatMap_cons]
            exact List.rel_append hselections hselections'
          · rw [List.flatMap_cons, List.flatMap_cons, List.filter_append, hplacements,
              hplacements']

/-- What the slots of late calls become places nothing for the others. -/
theorem filter_late_parts {slots : List Slot} {parts : List MergedSelections}
    {P : FieldPath → List Contribution → MergedSelections → Prop}
    (hparts : List.Forall₂ (Part (fun path below nested => Merges path below nested ∧
      P path below nested) merged) slots parts)
    (hfrom : ∀ slot ∈ slots, slot.From (late · = true)) :
    (parts.flatMap placements).filter (fun placement => !late placement.call) = [] := by
  rw [List.filter_eq_nil_iff]
  intro placement hmem
  obtain ⟨signature, head, below, nested, hslot, hnested, hplaced⟩ :=
    exists_nested_of_placed hparts hmem
  obtain ⟨contribution, hin, hcall⟩ := hnested.1.exists_call hplaced
  have hlate := hfrom _ hslot contribution hin
  rw [← hcall, hlate]
  exact Bool.false_ne_true

/-- **The contributions in front have a merge of their own**, which goes on in the merge of all. -/
theorem Merges.hasFront {contributions : List Contribution} {result : MergedSelections}
    (h : Merges merged contributions result) (late : Nat → Bool) :
    HasFront late merged contributions result := by
  refine Merges.levels (P := HasFront late) ?_ h
  intro merged contributions level parts aliased hlevel hparts front back heq hfront hback
  subst heq
  obtain ⟨first, hfirst, hlater⟩ := Level.exists_later_of_append hback hlevel
  obtain ⟨⟨kept, more, hslots, hkept, hmore⟩, placed, hplacements, hplaced⟩ := hlater
  rw [hslots] at hparts
  obtain ⟨keptParts, moreParts, rfl, hkeptParts, hmoreParts⟩ := Outcomes.exists_append hparts
  have hfrom : ∀ slot ∈ first.slots, slot.From (late · = false) := by
    intro slot hslot
    cases slot with
    | fragment selection => trivial
    | field signature head below? =>
        cases below? with
        | none => trivial
        | some below =>
            intro nested hmem
            obtain ⟨contribution, hin, _, _, -, -, rfl⟩ := mem_contributionsBelow
              ((Level.holds_ofContributions hfirst).below hslot).symm hmem
            exact hfront contribution hin
  obtain ⟨firsts, hfirsts, hselections, hnested⟩ := exists_parts hkept hfrom hkeptParts
  have hmerges := merges_of_parts hfirst hfirsts
  have hown : first.placements.filter (fun placement => !late placement.call) =
      first.placements := by
    rw [List.filter_eq_self]
    intro placement hmem
    obtain ⟨contribution, hin, hcall⟩ := hmerges.exists_call (List.mem_append_left _ hmem)
    rw [← hcall, hfront contribution hin]
    rfl
  have hothers : placed.filter (fun placement => !late placement.call) = [] := by
    rw [List.filter_eq_nil_iff]
    intro placement hmem
    rw [hplaced placement hmem]
    exact Bool.false_ne_true
  refine ⟨_, hmerges, ⟨_, _, List.flatMap_append, hselections⟩, ?_⟩
  simp only [hplacements, List.flatMap_append, List.filter_append, hown, hothers,
    filter_late_parts hmoreParts hmore, hnested, List.append_nil]

end Late

end MergedSelections

/-! ### Mappings that go on -/

namespace PathMapping

variable {mapping other : PathMapping} {placement : Placement} {call : Nat}

/-- What is recorded for another call leaves the entries of a call alone. -/
theorem entries_record_of_ne (h : placement.call ≠ call) :
    (mapping.record placement).entries call = mapping.entries call := by
  cases placement with
  | fragments found level => exact entries_record_fragments found level call
  | field found own merged =>
      rw [entries_record_field, if_neg]
      exact fun hhere => h hhere.1

/-- What is recorded for a call depends on the entries of that call alone. -/
theorem entries_record_congr (h : mapping.entries call = other.entries call)
    (placement : Placement) :
    (mapping.record placement).entries call = (other.record placement).entries call := by
  cases placement with
  | fragments found level => rw [entries_record_fragments, entries_record_fragments, h]
  | field found own merged => rw [entries_record_field, entries_record_field, h]

variable {keep : Placement → Bool} (hkeep : ∀ placement : Placement, placement.call = call →
  keep placement = true) (placements : List Placement)

include hkeep

/-- **The entries of a call are made from its own placements.** -/
theorem entries_ofPlacements_filter :
    (ofPlacements (placements.filter keep)).entries call =
      (ofPlacements placements).entries call := by
  induction placements using List.reverseRecOn with
  | nil => rfl
  | append_singleton front last ih =>
      rw [List.filter_append, ofPlacements_append]
      cases hlast : keep last with
      | true =>
          rw [List.filter_cons_of_pos hlast, List.filter_nil, ofPlacements_append]
          exact entries_record_congr ih last
      | false =>
          have hne : last.call ≠ call := by
            intro heq
            rw [hkeep last heq] at hlast
            exact absurd hlast (by decide)
          rw [List.filter_cons_of_neg (by simp [hlast]), List.filter_nil, List.append_nil, ih,
            entries_record_of_ne hne]

theorem selectsFragments_ofPlacements_filter (level : FieldPath) :
    (ofPlacements (placements.filter keep)).selectsFragments call level =
      (ofPlacements placements).selectsFragments call level := by
  rw [Bool.eq_iff_iff, selectsFragments_ofPlacements, selectsFragments_ofPlacements,
    List.mem_filter]
  exact and_iff_left (hkeep _ rfl)

end PathMapping

/-! ### Batches that go on -/

namespace MergedBatch

/-- More directives add to the distinct ones at the end. -/
theorem distinctDirectives_append (directives more : List Directive) :
    distinctDirectives directives <+: distinctDirectives (directives ++ more) := by
  induction more using List.reverseRecOn with
  | nil => rw [List.append_nil]
  | append_singleton front last ih =>
      rw [← List.append_assoc, distinctDirectives_concat]
      refine ih.trans ?_
      split
      · exact List.prefix_rfl
      · exact List.prefix_append _ _

section Late

variable {calls more : List CallDocument} {index : Nat}

/-- Late is whatever has another number than the calls have. -/
def isLate (calls : List CallDocument) (index : Nat) : Bool :=
  decide (index ∉ calls.map CallDocument.index)

theorem isLate_of_mem (h : index ∈ calls.map CallDocument.index) : isLate calls index = false :=
  decide_eq_false (not_not_intro h)

theorem isLate_of_append (hindices : ((calls ++ more).map CallDocument.index).Nodup)
    (h : index ∈ more.map CallDocument.index) : isLate calls index = true := by
  rw [List.map_append, List.nodup_append] at hindices
  exact decide_eq_true fun hthere => hindices.2.2 index hthere index h rfl

/-- What is contributed at the root has the number of a call. -/
theorem call_mem_of_rootContributions {registry : FragmentRegistry} {contribution : Contribution}
    (h : contribution ∈ rootContributions (prepare registry calls).2) :
    contribution.call ∈ calls.map CallDocument.index := by
  obtain ⟨call, hmem, hcall⟩ := exists_call_of_rootContributions h
  exact hcall ▸ List.mem_map_of_mem hmem

end Late

/-- What the merge of some calls says of them, and what the merge with others behind them says. -/
structure ContinuedBy (calls : List CallDocument) (first batch : MergedBatch) : Prop where
  /-- The calls have the same entries in the same order. -/
  entries : ∀ call ∈ calls,
    batch.mapping.entries call.index = first.mapping.entries call.index
  /-- The calls have fragments at the same levels. -/
  selectsFragments : ∀ call ∈ calls, ∀ level, batch.mapping.selectsFragments call.index level =
    first.mapping.selectsFragments call.index level
  /-- The fragments go on where they ended. -/
  fragments : first.fragments <+: batch.fragments
  declarations : first.operation.declarations <+: batch.operation.declarations
  directives : first.operation.directives <+: batch.operation.directives
  selections : Selection.Extend first.operation.selections batch.operation.selections

/--
**Later calls leave earlier ones alone.**  If calls can be merged with others behind them, they
can be merged without, and the merge with the others goes on where the merge without ends: the
calls keep the entries and fragment levels they have, and the fragments, declarations,
directives and, at every level, the selections are the first of the later ones.
-/
theorem ofCalls_of_append {calls more : List CallDocument} {batch : MergedBatch}
    (hne : calls ≠ []) (hindices : ((calls ++ more).map CallDocument.index).Nodup)
    (hmerge : ofCalls (calls ++ more) = .ok batch) :
    ∃ first, ofCalls calls = .ok first ∧ ContinuedBy calls first batch := by
  obtain ⟨registry, operations, merged, hmade⟩ := exists_assembled hmerge
  have hprepare := hmade.made
  rw [prepare_append] at hprepare
  obtain ⟨rfl, rfl⟩ := Prod.mk.inj hprepare
  have hmerges := hmade.merges
  rw [rootContributions, List.map_append] at hmerges
  obtain ⟨first, hfirst, hselections, hplacements⟩ :=
    hmerges.hasFront (isLate calls) _ _ rfl
      (fun _ hin => isLate_of_mem (call_mem_of_rootContributions hin))
      (fun _ hin => isLate_of_append hindices (call_mem_of_rootContributions hin))
  have hkind : ∀ a ∈ calls, ∀ b ∈ calls, a.operation.kind = b.operation.kind := by
    intro a ha b hb
    rw [hmade.kind a (List.mem_append_left _ ha), hmade.kind b (List.mem_append_left _ hb)]
  obtain ⟨batch', hbatch', hmade'⟩ := exists_ofCalls_eq_ok hne hkind hfirst
  have hkeep : ∀ call ∈ calls, ∀ placement : Placement, placement.call = call.index →
      (!isLate calls placement.call) = true := by
    intro call hmem placement hcall
    rw [hcall, isLate_of_mem (List.mem_map_of_mem hmem)]
    rfl
  refine ⟨batch', hbatch', ?_⟩
  constructor
  case entries =>
    intro call hmem
    rw [hmade.mapping, hmade'.mapping, hplacements]
    exact (PathMapping.entries_ofPlacements_filter (hkeep call hmem) _).symm
  case selectsFragments =>
    intro call hmem level
    rw [hmade.mapping, hmade'.mapping, hplacements]
    exact (PathMapping.selectsFragments_ofPlacements_filter (hkeep call hmem) _ level).symm
  case fragments =>
    rw [hmade.fragments, hmade'.fragments]
    exact (fragments_prepare _ more).map Prod.snd
  case declarations =>
    rw [hmade.declarations, hmade'.declarations, List.flatMap_append]
    exact List.prefix_append _ _
  case directives =>
    rw [hmade.directives, hmade'.directives, List.flatMap_append]
    exact distinctDirectives_append _ _
  case selections =>
    rw [hmade.selections, hmade'.selections]
    exact hselections

/-- A call, and a later one that asks for something else under each of its keys. -/
theorem ofCalls_of_append_pair :
    ∃ first second batch, callsFrom 0
        ["\x7b a \x7b k: b \x7d k: c \x7d",
          "\x7b k: d a \x7b k: e b \x7d ...F \x7d fragment F on T \x7b g \x7d"] =
          .ok [first, second] ∧
      ofCalls [first, second] = .ok batch ∧
      ∃ alone, ofCalls [first] = .ok alone ∧ ContinuedBy [first] alone batch := by
  have hmerged : (mergeQueries
      ["\x7b a \x7b k: b \x7d k: c \x7d",
        "\x7b k: d a \x7b k: e b \x7d ...F \x7d fragment F on T \x7b g \x7d"]).isOk = true := by
    decide +kernel
  obtain ⟨calls, batch, hcalls, hbatch⟩ := exists_of_mergeQueries hmerged
  have hlength := congrArg List.length (index_callsFrom hcalls)
  rw [List.length_map, List.length_range'] at hlength
  obtain ⟨first, second, rfl⟩ := List.length_eq_two.mp hlength
  exact ⟨first, second, batch, hcalls, hbatch,
    @ofCalls_of_append [first] [second] batch (List.cons_ne_nil _ _) (nodup_callsFrom hcalls)
      hbatch⟩

end MergedBatch

end QueryBatching
