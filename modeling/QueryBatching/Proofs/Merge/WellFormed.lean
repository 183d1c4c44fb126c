/-
A merged request is a call.

What is sent for a batch is read back as one call whose operation and fragments are the merged
ones.  Everything a merge makes up has to be legal for that: the variables with their numbers,
the keys it invents, the fragments it renames.  And the fragments have to be closed: each is
emitted once, and whatever is spread is emitted under the name it is spread by.  A registry
stays closed because a call is, and because all fragments of a call are emitted before the
next call comes.
-/
import QueryBatching.Proofs.Document.RoundTrip
import QueryBatching.Proofs.Merge.Batch
import QueryBatching.Request

namespace QueryBatching

open Grammar (nestingLimit)

/-! ### Merged selections -/

theorem Level.legal_newHead {room : Nat} {head : Field} (h : head.Legal room) (level : Level)
    (call : Nat) : (level.newHead call head).Legal room := by
  refine ⟨fun key hkey => ?_, h.name, h.arguments, h.directives⟩
  have hfree : IsName (level.freeKey call head) := by
    unfold freeKey
    split
    · exact FreshName.isName_find (h.name.numbered call) _
    · unfold Field.responseKey
      cases halias : head.alias? with
      | none => exact h.name
      | some own => exact h.key own (by simp [halias])
  unfold newHead at hkey
  dsimp only at hkey
  split at hkey
  · simp at hkey
  · exact Option.some.inj hkey ▸ hfree

namespace MergedSelections

/-- All selections of the contributions can be written. -/
def ContributionsLegal (room : Nat) (contributions : List Contribution) : Prop :=
  ∀ contribution ∈ contributions, ∀ selection ∈ contribution.selections, selection.Legal room

/-- What is below a slot can be written with one bracket less, and there is something. -/
theorem ContributionsLegal.below {room : Nat} {contributions below : List Contribution}
    (h : ContributionsLegal room contributions) {signature : FieldSignature}
    (hbelow : contributionsBelow signature (contributions.flatMap Contribution.occurrences) =
      some below) :
    ContributionsLegal (room - 1) below ∧ 0 < room ∧
      ∃ contribution ∈ below, contribution.selections ≠ [] := by
  have hsome : ∀ nested ∈ below, 0 < room ∧ nested.selections ≠ [] ∧
      ∀ selection ∈ nested.selections, selection.Legal (room - 1) := by
    intro nested hmem
    obtain ⟨contribution, hin, head, selections, hselection, -, rfl⟩ :=
      mem_contributionsBelow hbelow hmem
    obtain ⟨-, hroom, hne, hall⟩ := h contribution hin _ hselection
    exact ⟨hroom, hne, Selection.allLegal_iff.mp hall⟩
  obtain ⟨first, rest, rfl⟩ := List.exists_cons_of_ne_nil (contributionsBelow_ne_nil hbelow)
  have hfirst := hsome first List.mem_cons_self
  exact ⟨fun nested hmem => (hsome nested hmem).2.2, hfirst.1, first, List.mem_cons_self,
    hfirst.2.1⟩

/-- What is merged from something is something. -/
theorem selections_ne_nil {merged : FieldPath} {contributions : List Contribution} {level : Level}
    (hholds : Level.Holds merged (contributions.flatMap Contribution.occurrences) level)
    {P : FieldPath → List Contribution → MergedSelections → Prop} {parts : List MergedSelections}
    (hparts : List.Forall₂ (Part P merged) level.slots parts) {contribution : Contribution}
    (hin : contribution ∈ contributions) (hne : contribution.selections ≠ []) :
    parts.flatMap selections ≠ [] := by
  intro hnil
  obtain ⟨selection, hselection⟩ := List.exists_mem_of_ne_nil _ hne
  have hoccurrence := mem_occurrences.mpr ⟨contribution, hin, selection, hselection, rfl⟩
  obtain ⟨placement, -, hplaced⟩ := Outcomes.exists_right hholds.placements hoccurrence
  have hslot : ∃ slot, slot ∈ level.slots := by
    unfold Level.Placed at hplaced
    split at hplaced
    · obtain ⟨target, below?, hmem, -⟩ := hplaced
      exact ⟨_, hmem⟩
    · obtain ⟨⟨kept, hmem, -⟩, -⟩ := hplaced
      exact ⟨_, hmem⟩
  obtain ⟨slot, hslot⟩ := hslot
  obtain ⟨part, hpart, hbecomes⟩ := Outcomes.exists_right hparts hslot
  have hone : part.selections = [] := List.flatMap_eq_nil_iff.mp hnil part hpart
  cases hbecomes <;> simp at hone

/-- **What is merged from legal selections is legal**, and there is something if there was. -/
theorem Merges.legal {merged : FieldPath} {contributions : List Contribution}
    {result : MergedSelections} (h : Merges merged contributions result) {room : Nat}
    (hlegal : ContributionsLegal room contributions) :
    (∀ selection ∈ result.selections, selection.Legal room) ∧
      ((∃ contribution ∈ contributions, contribution.selections ≠ []) →
        result.selections ≠ []) := by
  revert room
  refine Merges.induction (P := fun _ contributions result => ∀ {room : Nat},
    ContributionsLegal room contributions → (∀ selection ∈ result.selections,
      selection.Legal room) ∧ ((∃ contribution ∈ contributions, contribution.selections ≠ []) →
        result.selections ≠ [])) ?_ h
  intro merged contributions level parts aliased hholds hparts room hlegal
  refine ⟨fun selection hmem => ?_, fun ⟨_, hin, hne⟩ => selections_ne_nil hholds hparts hin hne⟩
  obtain ⟨part, hpart, hselection⟩ := List.mem_flatMap.mp hmem
  obtain ⟨slot, hslot, hbecomes⟩ := Outcomes.exists_left hparts hpart
  cases hbecomes with
  | fragment kept =>
      obtain rfl := List.mem_singleton.mp hselection
      obtain ⟨occurrence, hoccurrence, rfl, -⟩ := hholds.fragments hslot
      obtain ⟨contribution, hin, found, hfound, rfl⟩ := mem_occurrences.mp hoccurrence
      exact hlegal contribution hin found hfound
  | leaf signature head =>
      obtain rfl := List.mem_singleton.mp hselection
      obtain ⟨contribution, hin, own, nested?, earlier, hown, -, rfl⟩ :=
        exists_field_of_slot hholds hslot
      exact Level.legal_newHead (hlegal contribution hin _ hown).head earlier _
  | field signature head below nested hnested =>
      obtain rfl := List.mem_singleton.mp hselection
      obtain ⟨contribution, hin, own, nested?, earlier, hown, -, rfl⟩ :=
        exists_field_of_slot hholds hslot
      obtain ⟨hbelow, hroom, hne⟩ := hlegal.below (hholds.below hslot).symm
      obtain ⟨hall, hsome⟩ := hnested.2 hbelow
      exact ⟨Level.legal_newHead (hlegal contribution hin _ hown).head earlier _, hroom,
        hsome hne, Selection.allLegal_iff.mpr hall⟩

/-- **Whatever is collected in merged selections is collected in those they were merged from**, if
it is collected from fields, whatever their aliases, and from all that stands below them. -/
theorem Merges.mem_of_collected {α : Type} {collect : Selection → List α} {own : Field → List α}
    (hleaf : ∀ head, collect (.field head none) = own head)
    (hfield : ∀ head nested, collect (.field head (some nested)) =
      own head ++ nested.flatMap collect)
    (hown : ∀ head alias?, own { head with alias? } = own head)
    {merged : FieldPath} {contributions : List Contribution} {result : MergedSelections}
    (h : Merges merged contributions result) {x : α} (hx : x ∈ result.selections.flatMap collect) :
    ∃ contribution ∈ contributions, x ∈ contribution.selections.flatMap collect := by
  revert hx
  refine Merges.induction (P := fun _ contributions result =>
    x ∈ result.selections.flatMap collect →
      ∃ contribution ∈ contributions, x ∈ contribution.selections.flatMap collect) ?_ h
  intro merged contributions level parts aliased hholds hparts hx
  obtain ⟨selection, hmem, hx⟩ := List.mem_flatMap.mp hx
  obtain ⟨part, hpart, hselection⟩ := List.mem_flatMap.mp hmem
  obtain ⟨slot, hslot, hbecomes⟩ := Outcomes.exists_left hparts hpart
  -- The field of a slot is a contributed one under another alias perhaps.
  have hhead : ∀ {signature target below?}, .field signature target below? ∈ level.slots →
      x ∈ own target → ∃ contribution ∈ contributions,
        x ∈ contribution.selections.flatMap collect := by
    intro signature target below? hslot hx
    obtain ⟨contribution, hin, head, nested?, earlier, hhead, -, rfl⟩ :=
      exists_field_of_slot hholds hslot
    have hx : x ∈ own head := by
      rw [← hown head]
      exact hx
    refine ⟨contribution, hin, List.mem_flatMap.mpr ⟨_, hhead, ?_⟩⟩
    cases nested? with
    | none => rwa [hleaf]
    | some nested =>
        rw [hfield]
        exact List.mem_append_left _ hx
  cases hbecomes with
  | fragment kept =>
      obtain rfl := List.mem_singleton.mp hselection
      obtain ⟨occurrence, hoccurrence, rfl, -⟩ := hholds.fragments hslot
      obtain ⟨contribution, hin, found, hfound, rfl⟩ := mem_occurrences.mp hoccurrence
      exact ⟨contribution, hin, List.mem_flatMap.mpr ⟨found, hfound, hx⟩⟩
  | leaf signature head =>
      obtain rfl := List.mem_singleton.mp hselection
      rw [hleaf] at hx
      exact hhead hslot hx
  | field signature head below nested hnested =>
      obtain rfl := List.mem_singleton.mp hselection
      rw [hfield] at hx
      rcases List.mem_append.mp hx with hx | hx
      · exact hhead hslot hx
      · obtain ⟨inner, hinner, hx⟩ := hnested.2 hx
        obtain ⟨contribution, hin, found, selections, hfound, -, rfl⟩ :=
          mem_contributionsBelow (hholds.below hslot).symm hinner
        refine ⟨contribution, hin, List.mem_flatMap.mpr ⟨_, hfound, ?_⟩⟩
        rw [hfield]
        exact List.mem_append_right _ hx

/-- Whatever is spread in merged selections is spread in those they were merged from. -/
theorem Merges.spreads {merged : FieldPath} {contributions : List Contribution}
    {result : MergedSelections} (h : Merges merged contributions result) {name : String}
    (hname : name ∈ Selection.spreadsOfAll result.selections) :
    ∃ contribution ∈ contributions, name ∈ Selection.spreadsOfAll contribution.selections := by
  simp only [Selection.spreadsOfAll_eq] at hname ⊢
  exact @mem_of_collected _ _ (fun _ => []) (fun _ => rfl)
    (fun _ nested => Selection.spreadsOfAll_eq nested) (fun _ _ => rfl) _ _ _ h _ hname

end MergedSelections

/-! ### Calls up to positions -/

namespace Document

theorem operations_unplaced (document : Document) :
    document.unplaced.operations = document.operations.map Operation.unplaced := by
  unfold operations unplaced
  rw [List.filterMap_map, List.map_filterMap]
  refine List.filterMap_congr fun definition _ => ?_
  cases definition <;> rfl

theorem fragments_unplaced (document : Document) :
    document.unplaced.fragments = document.fragments.map Fragment.unplaced := by
  unfold fragments unplaced
  rw [List.filterMap_map, List.map_filterMap]
  refine List.filterMap_congr fun definition _ => ?_
  cases definition <;> rfl

end Document

/-- Positions do not matter to what a call defines and spreads. -/
theorem CallDocument.Closed.of_unplaced {call other : CallDocument} (h : call.Closed)
    (hoperation : other.operation.unplaced = call.operation.unplaced)
    (hfragments : other.fragments.map Fragment.unplaced = call.fragments.map Fragment.unplaced) :
    other.Closed := by
  have hnames : other.fragments.map Fragment.name = call.fragments.map Fragment.name := by
    have h' := congrArg (List.map Fragment.name) hfragments
    rw [List.map_map, List.map_map] at h'
    exact h'
  refine ⟨hnames ▸ h.names, fun name hname => ?_, fun fragment hmem name hname => ?_⟩
  · have hsame : other.operation.selections = call.operation.selections := by
      show other.operation.unplaced.selections = call.operation.unplaced.selections
      rw [hoperation]
    rw [hnames]
    exact h.operation name (hsame ▸ hname)
  · have hin : fragment.unplaced ∈ call.fragments.map Fragment.unplaced :=
      hfragments ▸ List.mem_map_of_mem hmem
    obtain ⟨same, hsame, heq⟩ := List.mem_map.mp hin
    have hselections : same.selections = fragment.selections := by
      show same.unplaced.selections = fragment.unplaced.selections
      rw [heq]
    rw [hnames]
    exact h.fragments same hsame name (hselections ▸ hname)

/-! ### Merged batches -/

namespace MergedBatch

variable {calls : List CallDocument} {batch : MergedBatch}

/-- One more directive is kept if its text is none of those that are. -/
theorem distinctDirectives_concat (directives : List Directive) (last : Directive) :
    distinctDirectives (directives ++ [last]) =
      if (distinctDirectives directives).any fun other => other.text == last.text
      then distinctDirectives directives else distinctDirectives directives ++ [last] :=
  List.foldl_append

theorem mem_of_mem_distinctDirectives {directives : List Directive} {directive : Directive}
    (h : directive ∈ distinctDirectives directives) : directive ∈ directives := by
  induction directives using List.reverseRecOn with
  | nil => exact absurd h List.not_mem_nil
  | append_singleton front last ih =>
      rw [distinctDirectives_concat] at h
      split at h
      · exact List.mem_append_left _ (ih h)
      · rcases List.mem_append.mp h with h | h
        · exact List.mem_append_left _ (ih h)
        · exact List.mem_append_right _ h

/-- A prepared operation can be written down. -/
theorem Prepared.legal {final : FragmentRegistry} {call : CallDocument} {prepared : Nat × Operation}
    (h : Prepared final call prepared) : prepared.2.Legal nestingLimit := by
  obtain ⟨hparsed, before, -, rfl, -⟩ := h
  have hvariables := hparsed.legal.operation.mapVariables
    fun _ hname => isName_variableName call.index hname
  exact ⟨hvariables.name, hvariables.declarations, hvariables.directives,
    hvariables.selections.mapSpreads fun name hname =>
      (FragmentRegistry.spelled_renamesFor before call.index _ name).isFragmentName hname⟩

/-- All that a prepared operation spreads is registered at the end. -/
theorem Prepared.closed {final : FragmentRegistry} {call : CallDocument}
    {prepared : Nat × Operation} (h : Prepared final call prepared) :
    ∀ name ∈ Selection.spreadsOfAll prepared.2.selections, name ∈ Assoc.keys final.fragments := by
  obtain ⟨hparsed, before, -, rfl, more, hmore⟩ := h
  intro name hname
  have hspread : name ∈ (Selection.spreadsOfAll call.operation.selections).map
      (before.renamesOf call).apply := by
    rw [← Selection.spreadsOfAll_mapVariablesAll (variableName call.index),
      ← Selection.spreadsOfAll_mapSpreadsAll]
    exact hname
  obtain ⟨own, hown, rfl⟩ := List.mem_map.mp hspread
  have hdefined := hparsed.closed.operation own hown
  rw [← CallDocument.map_name_ownFragments] at hdefined
  obtain ⟨fragment, hfragment, rfl⟩ := List.mem_map.mp hdefined
  rw [← hmore, Assoc.keys, List.map_append]
  exact List.mem_append_left _
    ((FragmentRegistry.extends_emit _ before call.ownFragments).emitted fragment hfragment)

variable {registry : FragmentRegistry} {operations : List (Nat × Operation)}
  {merged : MergedSelections}

theorem MadeOf.legal_prepared (h : MadeOf calls batch registry operations merged) :
    ∀ prepared ∈ operations, prepared.2.Legal nestingLimit := by
  intro prepared hmem
  obtain ⟨call, -, hprepared⟩ := Outcomes.exists_left h.prepared hmem
  exact hprepared.legal

theorem MadeOf.legal_contributions (h : MadeOf calls batch registry operations merged) :
    MergedSelections.ContributionsLegal (nestingLimit - 1) (rootContributions operations) := by
  intro contribution hmem
  obtain ⟨prepared, hprepared, rfl⟩ := mem_rootContributions hmem
  exact (h.legal_prepared prepared hprepared).selections.all

/-- **A merged operation can be written down.** -/
theorem MadeOf.legal (h : MadeOf calls batch registry operations merged) :
    batch.operation.Legal nestingLimit := by
  have hall := h.legal_prepared
  obtain ⟨hlegal, hsome⟩ := h.merges.legal h.legal_contributions
  refine ⟨fun name hname => ?_, fun definition hmem => ?_, fun directive hmem => ?_, ?_⟩
  · rw [h.name] at hname
    unfold mergedName? at hname
    split at hname
    · exact (hall _ List.mem_cons_self).name name hname
    · exact absurd hname (Option.not_mem_none name)
  · rw [h.declarations] at hmem
    obtain ⟨prepared, hprepared, hin⟩ := List.mem_flatMap.mp hmem
    exact (hall prepared hprepared).declarations definition hin
  · rw [h.directives] at hmem
    obtain ⟨prepared, hprepared, hin⟩ :=
      List.mem_flatMap.mp (mem_of_mem_distinctDirectives hmem)
    exact (hall prepared hprepared).directives directive hin
  · rw [h.selections]
    refine ⟨by decide, hsome ?_, hlegal⟩
    obtain ⟨call, rest, rfl⟩ := List.exists_cons_of_ne_nil h.ne_nil
    obtain ⟨prepared, hprepared, -⟩ := Outcomes.exists_right h.prepared List.mem_cons_self
    exact ⟨_, List.mem_map_of_mem hprepared, (hall prepared hprepared).selections.ne_nil⟩

/-- **A merged batch is closed**, as a call has to be. -/
theorem MadeOf.closed (h : MadeOf calls batch registry operations merged) (index : Nat) :
    CallDocument.Closed ⟨index, batch.operation, batch.fragments⟩ := by
  have hnames : batch.fragments.map Fragment.name = Assoc.keys registry.fragments := by
    rw [h.fragments, Assoc.values, Assoc.keys, List.map_map]
    exact List.map_congr_left h.valid.names
  refine ⟨?_, fun name hname => ?_, fun fragment hmem name hname => ?_⟩
  · show (batch.fragments.map Fragment.name).Nodup
    rw [hnames]
    exact h.valid.nodup
  · show name ∈ batch.fragments.map Fragment.name
    change name ∈ Selection.spreadsOfAll batch.operation.selections at hname
    rw [h.selections] at hname
    obtain ⟨contribution, hcontribution, hspread⟩ := h.merges.spreads hname
    obtain ⟨prepared, hin, rfl⟩ := mem_rootContributions hcontribution
    obtain ⟨call, -, hprepared⟩ := Outcomes.exists_left h.prepared hin
    rw [hnames]
    exact hprepared.closed name hspread
  · show name ∈ batch.fragments.map Fragment.name
    change fragment ∈ batch.fragments at hmem
    rw [h.fragments] at hmem
    obtain ⟨entry, hentry, rfl⟩ := List.mem_map.mp hmem
    rw [hnames]
    exact h.valid.closed entry hentry name hname

/-! ### Batches of queries -/

/-- Every call that queries make was read from one of them. -/
theorem exists_query_of_callsFrom {queries : List String} {index : Nat}
    (h : callsFrom index queries = .ok calls) {call : CallDocument} (hmem : call ∈ calls) :
    ∃ query ∈ queries, CallDocument.parse call.index query = .ok call := by
  induction queries generalizing index calls with
  | nil =>
      obtain rfl := Except.ok.inj h
      exact absurd hmem List.not_mem_nil
  | cons query rest ih =>
      rw [callsFrom] at h
      split at h
      · simp at h
      · rename_i first hfirst
        obtain ⟨others, hothers, rfl⟩ := Outcomes.map_eq_ok.mp h
        rcases List.mem_cons.mp hmem with rfl | hmem
        · exact ⟨query, List.mem_cons_self, CallDocument.index_of_parse hfirst ▸ hfirst⟩
        · obtain ⟨other, hother, hparse⟩ := ih hothers hmem
          exact ⟨other, List.mem_cons_of_mem _ hother, hparse⟩

/-- Calls that queries make were read. -/
theorem isParsed_of_callsFrom {queries : List String} {index : Nat}
    (h : callsFrom index queries = .ok calls) : ∀ call ∈ calls, call.IsParsed := by
  intro call hmem
  obtain ⟨query, -, hquery⟩ := exists_query_of_callsFrom h hmem
  exact ⟨query, hquery⟩

/-- Queries make one call each, numbered one after another. -/
theorem index_callsFrom {queries : List String} {index : Nat}
    (h : callsFrom index queries = .ok calls) :
    calls.map CallDocument.index = List.range' index queries.length := by
  induction queries generalizing index calls with
  | nil =>
      obtain rfl := Except.ok.inj h
      rfl
  | cons query rest ih =>
      rw [callsFrom] at h
      split at h
      · simp at h
      · rename_i call hcall
        obtain ⟨others, hothers, rfl⟩ := Outcomes.map_eq_ok.mp h
        rw [List.map_cons, List.length_cons, List.range'_succ, CallDocument.index_of_parse hcall,
          ih hothers]

theorem nodup_callsFrom {queries : List String} {index : Nat}
    (h : callsFrom index queries = .ok calls) : (calls.map CallDocument.index).Nodup := by
  rw [index_callsFrom h]
  exact List.nodup_range'

/-- Queries are merged by merging the calls they make. -/
theorem mergeQueries_eq_ok {queries : List String} {text : String} :
    mergeQueries queries = .ok text ↔
      ∃ calls batch, callsFrom 0 queries = .ok calls ∧ ofCalls calls = .ok batch ∧
        batch.text = text := by
  constructor
  · intro h
    unfold mergeQueries at h
    split at h
    · simp at h
    · rename_i calls hcalls
      split at h
      · simp at h
      · rename_i batch hbatch
        exact ⟨calls, batch, hcalls, hbatch, Except.ok.inj h⟩
  · rintro ⟨calls, batch, hcalls, hbatch, rfl⟩
    simp only [mergeQueries, hcalls, hbatch]
    rfl

/-- Queries that are merged make calls that are. -/
theorem exists_of_mergeQueries {queries : List String} (h : (mergeQueries queries).isOk = true) :
    ∃ calls batch, callsFrom 0 queries = .ok calls ∧ ofCalls calls = .ok batch := by
  obtain ⟨text, htext⟩ := Outcomes.exists_of_isOk h
  obtain ⟨calls, batch, hcalls, hbatch, -⟩ := mergeQueries_eq_ok.mp htext
  exact ⟨calls, batch, hcalls, hbatch⟩

/-- Calls that are read but not merged are refused by the merge. -/
theorem exists_of_mergeQueries_eq_error {queries : List String} {error : MergeError}
    (hread : (callsFrom 0 queries).isOk = true)
    (h : mergeQueries queries = .error (.merge error)) :
    ∃ calls, callsFrom 0 queries = .ok calls ∧ ofCalls calls = .error error := by
  obtain ⟨calls, hcalls⟩ := Outcomes.exists_of_isOk hread
  refine ⟨calls, hcalls, ?_⟩
  simp only [mergeQueries, hcalls] at h
  split at h
  · rename_i error' herror
    rw [herror, BatchError.merge.inj (Except.error.inj h)]
  · exact nomatch h

/-! ### The request -/

/-- The document that a merged batch is sent as. -/
def document (batch : MergedBatch) : Document :=
  ⟨.operation batch.operation :: batch.fragments.map .fragment⟩

theorem text_document (batch : MergedBatch) : batch.document.text = batch.text := by
  unfold Document.text document text
  rw [List.map_cons, List.map_map]
  rfl

theorem operations_document (batch : MergedBatch) :
    batch.document.operations = [batch.operation] := by
  have hnone : (batch.fragments.map Definition.fragment).filterMap Definition.operation? = [] := by
    rw [List.filterMap_map, List.filterMap_eq_nil_iff]
    exact fun _ _ => rfl
  show batch.operation :: (batch.fragments.map Definition.fragment).filterMap _ = _
  rw [hnone]

theorem fragments_document (batch : MergedBatch) : batch.document.fragments = batch.fragments := by
  show (batch.fragments.map Definition.fragment).filterMap Definition.fragment? = _
  rw [List.filterMap_map]
  exact List.filterMap_some

/-- The document of a merged batch can be written down. -/
theorem MadeOf.legal_document (h : MadeOf calls batch registry operations merged) :
    batch.document.Legal nestingLimit := by
  refine ⟨List.cons_ne_nil _ _, fun definition hmem => ?_⟩
  rcases List.mem_cons.mp hmem with rfl | hmem
  · exact h.legal
  · obtain ⟨fragment, hfragment, rfl⟩ := List.mem_map.mp hmem
    rw [h.fragments] at hfragment
    obtain ⟨entry, hentry, rfl⟩ := List.mem_map.mp hfragment
    exact h.valid.legal entry hentry

/-- The text of a merged batch is read as a call again. -/
theorem MadeOf.parse_text (h : MadeOf calls batch registry operations merged) (index : Nat) :
    ∃ call, CallDocument.parse index batch.text = .ok call ∧
      call.operation.unplaced = batch.operation.unplaced ∧
      call.fragments.map Fragment.unplaced = batch.fragments.map Fragment.unplaced := by
  obtain ⟨again, hparse, hsame⟩ := Document.parse_text_of_legal h.legal_document
  have hoperations : again.operations.map Operation.unplaced = [batch.operation.unplaced] := by
    rw [← Document.operations_unplaced, hsame, Document.operations_unplaced, operations_document]
    rfl
  have hfragments :
      again.fragments.map Fragment.unplaced = batch.fragments.map Fragment.unplaced := by
    rw [← Document.fragments_unplaced, hsame, Document.fragments_unplaced, fragments_document]
  obtain ⟨operation, hone, hoperation⟩ := List.map_eq_singleton_iff.mp hoperations
  have hcall : CallDocument.ofDocument index again = .ok ⟨index, operation, again.fragments⟩ :=
    CallDocument.ofDocument_eq_ok.mpr
      ⟨rfl, hone, rfl, (h.closed index).of_unplaced hoperation hfragments⟩
  refine ⟨⟨index, operation, again.fragments⟩, ?_, hoperation, hfragments⟩
  rw [← text_document]
  simp only [CallDocument.parse, hparse, hcall, Except.mapError]

/--
**A merged request is a call.**  When the merge of calls that were read succeeds, the query that
is sent for it is read as a call again, and that call has the merged operation and the merged
fragments, up to positions.
-/
theorem parse_query_of_ofCalls (hcalls : ∀ call ∈ calls, call.IsParsed)
    (hmerge : ofCalls calls = .ok batch) (supplied : List CallVariables) (index : Nat) :
    ∃ call, CallDocument.parse index (Request.ofBatch batch supplied).query = .ok call ∧
      call.operation.unplaced = batch.operation.unplaced ∧
      call.fragments.map Fragment.unplaced = batch.fragments.map Fragment.unplaced := by
  obtain ⟨registry, operations, merged, hmade⟩ := exists_madeOf hcalls hmerge
  exact hmade.parse_text index

/-- Two calls with a variable each and with different fragments under one name. -/
theorem parse_query_of_ofCalls_pair :
    ∃ calls batch, callsFrom 0
        ["query($v: Int) \x7b a(x: $v) ...F \x7d fragment F on T \x7b b \x7d",
          "query($v: Int) \x7b a(x: $v) ...F \x7d fragment F on T \x7b c \x7d"] = .ok calls ∧
      ofCalls calls = .ok batch ∧
      ∃ call, CallDocument.parse 0 (Request.ofBatch batch []).query = .ok call ∧
        call.operation.unplaced = batch.operation.unplaced ∧
        call.fragments.map Fragment.unplaced = batch.fragments.map Fragment.unplaced := by
  have hmerged : (mergeQueries
      ["query($v: Int) \x7b a(x: $v) ...F \x7d fragment F on T \x7b b \x7d",
        "query($v: Int) \x7b a(x: $v) ...F \x7d fragment F on T \x7b c \x7d"]).isOk = true := by
    decide +kernel
  obtain ⟨calls, batch, hcalls, hbatch⟩ := exists_of_mergeQueries hmerged
  exact ⟨calls, batch, hcalls, hbatch,
    parse_query_of_ofCalls (isParsed_of_callsFrom hcalls) hbatch [] 0⟩

end MergedBatch

end QueryBatching
