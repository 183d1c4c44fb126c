/-
When the calls of a batch can be merged.

A merge finds that two selections clash with the notes and slots of a level, while it is adding
them, and it compares each with what came first.  Here a clash is a fact about the calls alone:
two fields at the ends of two paths of signatures.  A merge fails only where two selections
clash, since every note and every slot has an occurrence behind it, and it succeeds only where
none do, since the invariant of each level on the way down a path rules them out.  So the order
of the calls does not decide, and what an error reports is there.
-/
import QueryBatching.Proofs.Merge.Routes
import QueryBatching.Proofs.Merge.Signatures
import QueryBatching.Proofs.Merge.WellFormed

namespace QueryBatching

/-! ### Clashes -/

/-- What an error says of the selections at the end of a path of signatures. -/
def ClashAt (contributions : List Contribution) (path : List FieldSignature) : MergeError → Prop
  | .conflictingField call key =>
    ∃ a b composite composite', a.responseKey = key ∧ b.responseKey = key ∧ a ≠ b ∧
      SelectedBy contributions call path a composite ∧
      SelectedBy contributions call path b composite'
  | .selectionShapeMismatch key =>
    ∃ call other signature, signature.responseKey = key ∧
      SelectedBy contributions call path signature true ∧
      SelectedBy contributions other path signature false
  | .mixedOperationKinds _ _ => False
  | .emptyBatch => False

theorem clashAt_below {contributions below : List Contribution} {first : FieldSignature}
    (hbelow : contributionsBelow first (contributions.flatMap Contribution.occurrences) =
      some below) {path : List FieldSignature} {error : MergeError} :
    ClashAt below path error ↔ ClashAt contributions (first :: path) error := by
  cases error with
  | conflictingField call key => simp only [ClashAt, selectedBy_below hbelow]
  | selectionShapeMismatch key => simp only [ClashAt, selectedBy_below hbelow]
  | mixedOperationKinds expected found => rfl
  | emptyBatch => rfl

/-- Where selections clash further down, a field leads there. -/
theorem ClashAt.exists_field {contributions : List Contribution} {first : FieldSignature}
    {path : List FieldSignature} {error : MergeError}
    (h : ClashAt contributions (first :: path) error) :
    ∃ contribution ∈ contributions, ∃ head nested,
      .field head (some nested) ∈ contribution.selections ∧ head.signature = first := by
  have hselected : ∃ call signature composite,
      SelectedBy contributions call (first :: path) signature composite := by
    cases error with
    | conflictingField call key =>
        obtain ⟨a, -, composite, -, -, -, -, ha, -⟩ := h
        exact ⟨call, a, composite, ha⟩
    | selectionShapeMismatch key =>
        obtain ⟨call, -, signature, -, hcall, -⟩ := h
        exact ⟨call, signature, true, hcall⟩
    | mixedOperationKinds expected found => exact h.elim
    | emptyBatch => exact h.elim
  obtain ⟨_, _, _, contribution, hin, -, hselects⟩ := hselected
  obtain ⟨head, nested, hselection, hsignature, -⟩ := Selection.selects_cons.mp hselects
  exact ⟨contribution, hin, head, nested, hselection, hsignature⟩

namespace Level

variable {merged : FieldPath}

/-! ### Where a level fails -/

/-- What a level notes for a call comes from the occurrence, or was noted before. -/
theorem Adds.selectedAs? {level result : Level} {occurrence : Occurrence}
    (h : Adds merged level occurrence result) {call : Nat} {key : String}
    {signature : FieldSignature} (hnote : result.selectedAs? call key = some signature) :
    level.selectedAs? call key = some signature ∨
      ∃ head nested?, occurrence.selection = .field head nested? ∧ occurrence.call = call ∧
        head.responseKey = key ∧ head.signature = signature := by
  have hfield : ∀ {head nested? target}, AddsField merged level occurrence head nested? target
      result → level.selectedAs? call key = some signature ∨
        ∃ head nested?, occurrence.selection = .field head nested? ∧ occurrence.call = call ∧
          head.responseKey = key ∧ head.signature = signature := by
    intro head nested? target hadds
    rw [hadds.selected, Option.or_eq_some_iff] at hnote
    rcases hnote with hnote | ⟨-, hnote⟩
    · exact .inl hnote
    · split at hnote
      · rename_i hsame
        exact .inr ⟨head, nested?, hadds.selection, hsame.1, hsame.2, Option.some.inj hnote⟩
      · simp at hnote
  cases h with
  | fragment hfragment heq =>
      subst heq
      exact .inl hnote
  | opens head nested? hadds hnew hslots => exact hfield hadds
  | joins head nested? target below? hadds hslot hshape hslots => exact hfield hadds

/-- Every note is of something that the call selects. -/
theorem exists_of_selectedAs? {occurrences : List Occurrence} {level : Level}
    (h : occurrences.foldlM (add merged) {} = .ok level) {call : Nat} {key : String}
    {signature : FieldSignature} (hnote : level.selectedAs? call key = some signature) :
    ∃ occurrence ∈ occurrences, occurrence.call = call ∧ ∃ head nested?,
      occurrence.selection = .field head nested? ∧ head.responseKey = key ∧
        head.signature = signature := by
  induction occurrences using List.reverseRecOn generalizing level with
  | nil =>
      obtain rfl := Except.ok.inj h
      simp [selectedAs?] at hnote
  | append_singleton front last ih =>
      obtain ⟨middle, hfront, hadd⟩ := Outcomes.foldlM_concat_eq_ok.mp h
      rcases (adds_of_add hadd).selectedAs? hnote with hbefore | hlast
      · obtain ⟨occurrence, hmem, hrest⟩ := ih hfront hbefore
        exact ⟨occurrence, List.mem_append_left _ hmem, hrest⟩
      · obtain ⟨head, nested?, hselection, hcall, hfield⟩ := hlast
        exact ⟨last, by simp, hcall, head, nested?, hselection, hfield⟩

theorem selectedBy_nil {contributions : List Contribution} {occurrence : Occurrence}
    (hmem : occurrence ∈ contributions.flatMap Contribution.occurrences) {head : Field}
    {nested? : Option (List Selection)} (hselection : occurrence.selection = .field head nested?) :
    SelectedBy contributions occurrence.call [] head.signature nested?.isSome := by
  obtain ⟨contribution, hin, selection, hselected, rfl⟩ := mem_occurrences.mp hmem
  obtain rfl : selection = .field head nested? := hselection
  exact ⟨contribution, hin, rfl, head, nested?, hselected, rfl, rfl⟩

/-- **A level fails only where two of its selections clash.** -/
theorem clashAt_of_error {contributions : List Contribution} {error : MergeError}
    (h : ofContributions merged contributions = .error error) : ClashAt contributions [] error := by
  obtain ⟨front, occurrence, back, middle, hsplit, hfront, hadd⟩ :=
    Outcomes.exists_of_foldlM_eq_error h
  have hmem : ∀ other ∈ front ++ [occurrence],
      other ∈ contributions.flatMap Contribution.occurrences := by
    intro other hother
    rw [hsplit, List.append_cons]
    exact List.mem_append_left _ hother
  obtain ⟨head, nested?, hselection, hcases⟩ := exists_of_add_eq_error hadd
  have hhere := selectedBy_nil (hmem occurrence (by simp)) hselection
  rcases hcases with ⟨signature, hnote, hne, rfl⟩ | ⟨target, below?, hslot, hshape, rfl⟩
  · obtain ⟨other, hother, hcall, own, own?, hown, hkey, rfl⟩ :=
      exists_of_selectedAs? hfront hnote
    have hthere := selectedBy_nil (hmem other (List.mem_append_left _ hother)) hown
    rw [hcall] at hthere
    exact ⟨_, _, _, _, hkey, rfl, hne, hthere, hhere⟩
  -- What opened the slot has its shape, and the occurrence has the other one.
  · have hholds := holds_of_foldlM hfront
    obtain ⟨before, other, after, own, own?, -, rfl, hown, hsame, -⟩ := hholds.opened hslot
    have hthere := selectedBy_nil (hmem other (by simp)) hown
    have hopened := hholds.shape other (by simp) own own? hown
    rw [hsame, ← hholds.below hslot] at hopened
    rw [hsame, hopened] at hthere
    cases hbelow : below?.isSome with
    | true =>
        rw [hbelow] at hthere hshape
        rw [Bool.eq_false_iff.mpr hshape.symm] at hhere
        exact ⟨_, _, head.signature, rfl, hthere, hhere⟩
    | false =>
        rw [hbelow] at hthere hshape
        rw [Bool.ne_false_iff.mp hshape.symm] at hhere
        exact ⟨_, _, head.signature, rfl, hhere, hthere⟩

theorem exists_occurrence_of_selectedBy {contributions : List Contribution} {call : Nat}
    {signature : FieldSignature} {composite : Bool}
    (h : SelectedBy contributions call [] signature composite) :
    ∃ occurrence ∈ contributions.flatMap Contribution.occurrences, occurrence.call = call ∧
      ∃ head nested?, occurrence.selection = .field head nested? ∧ head.signature = signature ∧
        nested?.isSome = composite := by
  obtain ⟨contribution, hin, rfl, head, nested?, hselection, hfield⟩ := h
  exact ⟨_, mem_occurrences.mpr ⟨contribution, hin, _, hselection, rfl⟩, rfl, head, nested?, rfl,
    hfield⟩

/-- **In a level that is made no two selections clash.** -/
theorem Holds.not_clashAt {contributions : List Contribution} {level : Level}
    (hholds : Holds merged (contributions.flatMap Contribution.occurrences) level)
    (error : MergeError) : ¬ClashAt contributions [] error := by
  intro hclash
  cases error with
  | conflictingField call key =>
      obtain ⟨a, b, _, _, ha, hb, hne, hfirst, hsecond⟩ := hclash
      obtain ⟨one, hone, hcall, head, nested?, hhead, rfl, -⟩ :=
        exists_occurrence_of_selectedBy hfirst
      obtain ⟨two, htwo, hcall', other, nested'?, hother, rfl, -⟩ :=
        exists_occurrence_of_selectedBy hsecond
      exact hne (hholds.signature_eq hone htwo (hcall.trans hcall'.symm) hhead hother
        (ha.trans hb.symm))
  | selectionShapeMismatch key =>
      obtain ⟨_, _, signature, -, hfirst, hsecond⟩ := hclash
      obtain ⟨one, hone, -, head, nested?, hhead, rfl, hsome⟩ :=
        exists_occurrence_of_selectedBy hfirst
      obtain ⟨two, htwo, -, other, nested'?, hother, hsame, hnone⟩ :=
        exists_occurrence_of_selectedBy hsecond
      have hshape := hholds.shape one hone head nested? hhead
      have hshape' := hholds.shape two htwo other nested'? hother
      rw [hsame, ← hshape, hsome, hnone] at hshape'
      exact absurd hshape' (by decide)
  | mixedOperationKinds expected found => exact hclash
  | emptyBatch => exact hclash

end Level

namespace MergedSelections

/-! ### Where a merge fails -/

/-- **A merge fails only where two selections clash**, at whatever depth. -/
theorem exists_clashAt_of_error {depth : Nat} {merged : FieldPath}
    {contributions : List Contribution} {error : MergeError}
    (h : ofContributions depth merged contributions = .error error) :
    ∃ path, ClashAt contributions path error := by
  induction depth generalizing merged contributions with
  | zero => simp [ofContributions] at h
  | succ depth ih =>
      rw [ofContributions] at h
      rcases Outcomes.bind_eq_error.mp h with hlevel | ⟨level, hlevel, h⟩
      · exact ⟨[], Level.clashAt_of_error hlevel⟩
      · rcases Outcomes.bind_eq_error.mp h with hparts | ⟨parts, -, hdone⟩
        · obtain ⟨slot, hslot, hfails⟩ := Outcomes.exists_of_mapM_eq_error hparts
          cases slot with
          | fragment selection => simp at hfails
          | field signature head below? =>
              cases below? with
              | none => simp at hfails
              | some below =>
                  have hbelow := ((Level.holds_ofContributions hlevel).below hslot).symm
                  rcases Outcomes.bind_eq_error.mp hfails with hnested | ⟨nested, -, hdone⟩
                  · obtain ⟨path, hclash⟩ := ih hnested
                    exact ⟨signature :: path, (clashAt_below hbelow).mp hclash⟩
                  · simp [pure, Except.pure] at hdone
        · simp [pure, Except.pure] at hdone

/-- **Where a merge succeeds no two selections clash.** -/
theorem Merges.not_clashAt {merged : FieldPath} {contributions : List Contribution}
    {result : MergedSelections} (h : Merges merged contributions result)
    (path : List FieldSignature) (error : MergeError) : ¬ClashAt contributions path error := by
  refine Merges.induction (P := fun _ contributions _ =>
    ∀ path error, ¬ClashAt contributions path error) ?_ h path error
  intro merged contributions level parts aliased hholds hparts path error hclash
  cases path with
  | cons first path =>
      obtain ⟨contribution, hin, head, nested, hselection, rfl⟩ := hclash.exists_field
      obtain ⟨target, below, hslot, hbelow⟩ := hholds.exists_slot_below
        (mem_occurrences.mpr ⟨contribution, hin, _, hselection, rfl⟩) rfl
      obtain ⟨part, -, hpart⟩ := Outcomes.exists_right hparts hslot
      cases hpart with
      | field signature head below result hnested =>
          exact hnested.2 path error ((clashAt_below hbelow).mpr hclash)
  | nil => exact hholds.not_clashAt error hclash

end MergedSelections

/-! ### Calls -/

namespace CallDocument

/-- The call asks for different fields under one response key at one place. -/
def Conflicts (call : CallDocument) (key : String) : Prop :=
  ∃ path a b composite composite', a.responseKey = key ∧ b.responseKey = key ∧ a ≠ b ∧
    Selection.Selects call.ownSelections path a composite ∧
    Selection.Selects call.ownSelections path b composite'

/-- A field of one call has a selection set, and the same field of the other has none. -/
def ShapesDiffer (call other : CallDocument) (key : String) : Prop :=
  ∃ path signature, signature.responseKey = key ∧
    Selection.Selects call.ownSelections path signature true ∧
    Selection.Selects other.ownSelections path signature false

end CallDocument

namespace MergedBatch

/-- What calls that can be merged have in common. -/
structure Mergeable (calls : List CallDocument) : Prop where
  ne_nil : calls ≠ []
  kind : ∀ call ∈ calls, ∀ other ∈ calls, call.operation.kind = other.operation.kind
  /-- No call asks for two things under one response key. -/
  consistent : ∀ call ∈ calls, ∀ key, ¬call.Conflicts key
  /-- All calls agree on which fields have a selection set. -/
  shapes : ∀ call ∈ calls, ∀ other ∈ calls, ∀ key, ¬call.ShapesDiffer other key

/-- Mergeable calls are so in any order. -/
theorem Mergeable.perm {calls others : List CallDocument} (h : Mergeable calls)
    (hperm : others.Perm calls) : Mergeable others where
  ne_nil := fun hnil => h.ne_nil (by
    subst hnil
    exact hperm.nil_eq.symm)
  kind := fun call hcall other hother =>
    h.kind call (hperm.mem_iff.mp hcall) other (hperm.mem_iff.mp hother)
  consistent := fun call hcall => h.consistent call (hperm.mem_iff.mp hcall)
  shapes := fun call hcall other hother =>
    h.shapes call (hperm.mem_iff.mp hcall) other (hperm.mem_iff.mp hother)

/-- What is contributed at the root is what the calls select. -/
theorem selectedBy_rootContributions {calls : List CallDocument} {index : Nat}
    {path : List FieldSignature} {signature : FieldSignature} {composite : Bool} :
    SelectedBy (rootContributions (prepare {} calls).2) index path signature composite ↔
      ∃ call ∈ calls, call.index = index ∧
        Selection.Selects call.ownSelections path signature composite := by
  have hcalls := forall₂_prepare {} calls
  constructor
  · rintro ⟨contribution, hin, hindex, hselects⟩
    obtain ⟨prepared, hprepared, rfl⟩ := mem_rootContributions hin
    obtain ⟨call, hmem, renames, rfl⟩ := Outcomes.exists_left hcalls hprepared
    exact ⟨call, hmem, hindex, Selection.selects_mapSpreadsAll.mp hselects⟩
  · rintro ⟨call, hmem, hindex, hselects⟩
    obtain ⟨prepared, hprepared, renames, rfl⟩ := Outcomes.exists_right hcalls hmem
    exact ⟨_, List.mem_map_of_mem hprepared, hindex, Selection.selects_mapSpreadsAll.mpr hselects⟩

theorem conflicts_iff {calls : List CallDocument}
    (hindices : (calls.map CallDocument.index).Nodup) {index : Nat} {key : String} :
    (∃ path, ClashAt (rootContributions (prepare {} calls).2) path
        (.conflictingField index key)) ↔
      ∃ call ∈ calls, call.index = index ∧ call.Conflicts key := by
  constructor
  · rintro ⟨path, a, b, composite, composite', ha, hb, hne, hfirst, hsecond⟩
    obtain ⟨call, hcall, rfl, hselects⟩ := selectedBy_rootContributions.mp hfirst
    obtain ⟨other, hother, hindex, hselects'⟩ := selectedBy_rootContributions.mp hsecond
    obtain rfl := List.inj_on_of_nodup_map hindices hother hcall hindex
    exact ⟨other, hcall, rfl, path, a, b, composite, composite', ha, hb, hne, hselects, hselects'⟩
  · rintro ⟨call, hcall, hindex, path, a, b, composite, composite', ha, hb, hne, hfirst, hsecond⟩
    exact ⟨path, a, b, composite, composite', ha, hb, hne,
      selectedBy_rootContributions.mpr ⟨call, hcall, hindex, hfirst⟩,
      selectedBy_rootContributions.mpr ⟨call, hcall, hindex, hsecond⟩⟩

theorem shapesDiffer_iff {calls : List CallDocument} {key : String} :
    (∃ path, ClashAt (rootContributions (prepare {} calls).2) path
        (.selectionShapeMismatch key)) ↔
      ∃ call ∈ calls, ∃ other ∈ calls, call.ShapesDiffer other key := by
  constructor
  · rintro ⟨path, _, _, signature, hkey, hfirst, hsecond⟩
    obtain ⟨call, hcall, -, hfirst⟩ := selectedBy_rootContributions.mp hfirst
    obtain ⟨other, hother, -, hsecond⟩ := selectedBy_rootContributions.mp hsecond
    exact ⟨call, hcall, other, hother, path, signature, hkey, hfirst, hsecond⟩
  · rintro ⟨call, hcall, other, hother, path, signature, hkey, hfirst, hsecond⟩
    exact ⟨path, _, _, signature, hkey,
      selectedBy_rootContributions.mpr ⟨call, hcall, rfl, hfirst⟩,
      selectedBy_rootContributions.mpr ⟨other, hother, rfl, hsecond⟩⟩

section Calls

variable {calls : List CallDocument}

/-- What the error of a merge is about. -/
theorem cases_of_error {error : MergeError} (h : ofCalls calls = .error error) :
    calls = [] ∨
    (∃ call ∈ calls, ∃ other ∈ calls, call.operation.kind ≠ other.operation.kind ∧
      error = .mixedOperationKinds call.operation.kind other.operation.kind) ∨
    ∃ path, ClashAt (rootContributions (prepare {} calls).2) path error := by
  rcases ofCalls_cases calls with ⟨hnil, -⟩ | ⟨a, ha, b, hb, hne, hfail⟩ | ⟨kind, -, -, heq⟩
  · exact .inl hnil
  · rw [hfail] at h
    exact .inr (.inl ⟨a, ha, b, hb, hne, (Except.error.inj h).symm⟩)
  · rw [heq, ofOperations] at h
    rcases Outcomes.bind_eq_error.mp h with hmerged | ⟨merged, -, hdone⟩
    · exact .inr (.inr (MergedSelections.exists_clashAt_of_error hmerged))
    · simp [pure, Except.pure] at hdone

theorem Mergeable.not_clashAt (h : Mergeable calls)
    (hindices : (calls.map CallDocument.index).Nodup) (path : List FieldSignature)
    (error : MergeError) : ¬ClashAt (rootContributions (prepare {} calls).2) path error := by
  intro hclash
  cases error with
  | conflictingField index key =>
      obtain ⟨call, hcall, -, hconflicts⟩ := (conflicts_iff hindices).mp ⟨path, hclash⟩
      exact h.consistent call hcall key hconflicts
  | selectionShapeMismatch key =>
      obtain ⟨call, hcall, other, hother, hdiffer⟩ := shapesDiffer_iff.mp ⟨path, hclash⟩
      exact h.shapes call hcall other hother key hdiffer
  | mixedOperationKinds expected found => exact hclash
  | emptyBatch => exact hclash

/-- Calls that are merged are mergeable, and the other way round. -/
theorem isOk_iff_mergeable (hindices : (calls.map CallDocument.index).Nodup) :
    (ofCalls calls).isOk = true ↔ Mergeable calls := by
  constructor
  · intro h
    obtain ⟨batch, hbatch⟩ := Outcomes.exists_of_isOk h
    obtain ⟨registry, operations, merged, hmade⟩ := exists_assembled hbatch
    have hnone := hmade.merges.not_clashAt
    have hoperations : (prepare {} calls).2 = operations := by rw [hmade.made]
    rw [← hoperations] at hnone
    refine ⟨hmade.ne_nil, fun call hcall other hother => ?_, fun call hcall key hconflicts => ?_,
      fun call hcall other hother key hdiffer => ?_⟩
    · rw [hmade.kind call hcall, hmade.kind other hother]
    · obtain ⟨path, hclash⟩ := (conflicts_iff hindices).mpr ⟨call, hcall, rfl, hconflicts⟩
      exact hnone path _ hclash
    · obtain ⟨path, hclash⟩ := shapesDiffer_iff.mpr ⟨call, hcall, other, hother, hdiffer⟩
      exact hnone path _ hclash
  · intro h
    by_contra hfails
    obtain ⟨error, herror⟩ := Outcomes.exists_error_of_isOk (Bool.eq_false_iff.mpr hfails)
    rcases cases_of_error herror with hnil | ⟨call, hcall, other, hother, hne, -⟩ | ⟨path, hclash⟩
    · exact h.ne_nil hnil
    · exact hne (h.kind call hcall other hother)
    · exact h.not_clashAt hindices path error hclash

/--
**What calls can be merged** depends on the calls alone.  They can be exactly if there are any,
all of one kind, none asks for two things under one response key of one place, and wherever two
select the same field both have a selection set or neither has.  So their order is indifferent,
and what a failed merge reports of a response key is there.
-/
theorem ofCalls_succeeds_iff (hindices : (calls.map CallDocument.index).Nodup) :
    ((ofCalls calls).isOk = true ↔ Mergeable calls) ∧
      (∀ others : List CallDocument, others.Perm calls →
        (ofCalls others).isOk = (ofCalls calls).isOk) ∧
      (∀ index key, ofCalls calls = .error (.conflictingField index key) →
        ∃ call ∈ calls, call.index = index ∧ call.Conflicts key) ∧
      ∀ key, ofCalls calls = .error (.selectionShapeMismatch key) →
        ∃ call ∈ calls, ∃ other ∈ calls, call.ShapesDiffer other key := by
  refine ⟨isOk_iff_mergeable hindices, fun others hperm => ?_, fun index key herror => ?_,
    fun key herror => ?_⟩
  · have hothers : (others.map CallDocument.index).Nodup :=
      (hperm.map CallDocument.index).nodup_iff.mpr hindices
    rw [Bool.eq_iff_iff, isOk_iff_mergeable hothers, isOk_iff_mergeable hindices]
    exact ⟨fun h => h.perm hperm.symm, fun h => h.perm hperm⟩
  · rcases cases_of_error herror with rfl | ⟨_, _, _, _, -, heq⟩ | hclash
    · simp [ofCalls] at herror
    · simp at heq
    · exact (conflicts_iff hindices).mp hclash
  · rcases cases_of_error herror with rfl | ⟨_, _, _, _, -, heq⟩ | hclash
    · simp [ofCalls] at herror
    · simp at heq
    · exact shapesDiffer_iff.mp hclash

end Calls

/-- Two calls, the second with two different fields under one key, a level down. -/
theorem ofCalls_succeeds_iff_pair :
    ∃ calls, callsFrom 0
        ["\x7b a \x7b b \x7d \x7d", "\x7b a \x7b b k: b k: c \x7d \x7d"] = .ok calls ∧
      ofCalls calls = .error (.conflictingField 1 "k") ∧ ¬Mergeable calls ∧
      ∃ call ∈ calls, call.index = 1 ∧ call.Conflicts "k" := by
  have hread : (callsFrom 0
      ["\x7b a \x7b b \x7d \x7d", "\x7b a \x7b b k: b k: c \x7d \x7d"]).isOk = true := by
    decide +kernel
  have hrefused : mergeQueries
      ["\x7b a \x7b b \x7d \x7d", "\x7b a \x7b b k: b k: c \x7d \x7d"] =
        .error (.merge (.conflictingField 1 "k")) := by
    decide +kernel
  obtain ⟨calls, hcalls, herror⟩ := exists_of_mergeQueries_eq_error hread hrefused
  obtain ⟨hiff, -, hconflict, -⟩ := ofCalls_succeeds_iff (nodup_callsFrom hcalls)
  refine ⟨calls, hcalls, herror, fun hmergeable => ?_, hconflict 1 "k" herror⟩
  have hok := hiff.mpr hmergeable
  rw [herror] at hok
  exact Bool.false_ne_true hok

end MergedBatch

end QueryBatching
