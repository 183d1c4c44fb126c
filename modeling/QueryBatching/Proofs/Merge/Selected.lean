/-
Where the fragments that a call selects end up, and what they say there.

A call may select a spread or an inline fragment at any path of plain fields.  The merged
operation has it at the merged path of those fields, with its spreads pointed at the names
under which the registry has them, and written out it is what it was in the call.  What later
calls register does not come into that.
-/
import QueryBatching.Proofs.Merge.Fragments

namespace QueryBatching

open Grammar (nestingLimit)
open MergedSelections (AtPath ContributionsLegal HasField Merges Part)

/-! ### Selections at a path -/

namespace Selection

/-- A spread or an inline fragment. -/
def IsFragment : Selection → Prop
  | .field _ _ => False
  | .spread _ _ => True
  | .inlineFragment _ _ _ => True

/-- What is selected at the end of a path of plain fields, none of them in a fragment. -/
inductive SelectsAt : List Selection → List String → Selection → Prop
  | here {selections : List Selection} {selection : Selection} (h : selection ∈ selections) :
    SelectsAt selections [] selection
  | inside {selections nested : List Selection} {head : Field} {keys : List String}
      {selection : Selection} (h : .field head (some nested) ∈ selections)
      (hnested : SelectsAt nested keys selection) :
    SelectsAt selections (head.responseKey :: keys) selection

variable {selections : List Selection} {keys : List String} {selection : Selection}

theorem SelectsAt.mapVariables (h : SelectsAt selections keys selection)
    (rename : String → String) :
    SelectsAt (mapVariablesAll rename selections) keys (selection.mapVariables rename) := by
  induction h with
  | here h =>
      rw [mapVariablesAll_eq]
      exact .here (List.mem_map_of_mem h)
  | @inside selections nested head keys selection h _ ih =>
      have hmem := List.mem_map_of_mem (f := Selection.mapVariables rename) h
      rw [← mapVariablesAll_eq] at hmem
      show SelectsAt _ ((head.mapVariables rename).responseKey :: keys) _
      exact .inside hmem ih

theorem SelectsAt.mapSpreads (h : SelectsAt selections keys selection)
    (rename : String → String) :
    SelectsAt (mapSpreadsAll rename selections) keys (selection.mapSpreads rename) := by
  induction h with
  | here h =>
      rw [mapSpreadsAll_eq]
      exact .here (List.mem_map_of_mem h)
  | inside h _ ih =>
      have hmem := List.mem_map_of_mem (f := Selection.mapSpreads rename) h
      rw [← mapSpreadsAll_eq] at hmem
      exact .inside hmem ih

theorem SelectsAt.spreads (h : SelectsAt selections keys selection) {name : String}
    (hname : name ∈ selection.spreads) : name ∈ spreadsOfAll selections := by
  induction h with
  | here h =>
      rw [spreadsOfAll_eq]
      exact List.mem_flatMap.mpr ⟨_, h, hname⟩
  | inside h _ ih =>
      rw [spreadsOfAll_eq]
      exact List.mem_flatMap.mpr ⟨_, h, ih hname⟩

theorem IsFragment.mapVariables (h : selection.IsFragment) (rename : String → String) :
    (selection.mapVariables rename).IsFragment := by
  cases selection with
  | field head nested? => exact h.elim
  | spread name directives => trivial
  | inlineFragment condition? directives nested => trivial

theorem IsFragment.mapSpreads (h : selection.IsFragment) (rename : String → String) :
    (selection.mapSpreads rename).IsFragment := by
  cases selection with
  | field head nested? => exact h.elim
  | spread name directives => trivial
  | inlineFragment condition? directives nested => trivial

end Selection

open Selection (SelectsAt)

/-! ### Selections in a merge -/

/-- The merged path of a call's path: that of its field, or the root for the root. -/
def PathMapping.mergedPath? (mapping : PathMapping) (call : Nat) (own : FieldPath) :
    Option FieldPath :=
  if own = FieldPath.root then some FieldPath.root else mapping.get? call own

namespace MergedSelections

/-- A spread or inline fragment of a level is kept, once, under the slot with its text. -/
theorem mem_selections_of_fragment {merged : FieldPath} {contributions : List Contribution}
    {level : Level}
    (hholds : Level.Holds merged (contributions.flatMap Contribution.occurrences) level)
    {P : FieldPath → List Contribution → MergedSelections → Prop} {parts : List MergedSelections}
    (hparts : List.Forall₂ (Part P merged) level.slots parts) {room : Nat}
    (hlegal : ContributionsLegal room contributions) {contribution : Contribution}
    (hin : contribution ∈ contributions) {selection : Selection}
    (hmem : selection ∈ contribution.selections) (hfragment : selection.IsFragment) :
    selection ∈ parts.flatMap selections := by
  have hoccurrence := mem_occurrences.mpr ⟨contribution, hin, selection, hmem, rfl⟩
  obtain ⟨placement, -, hplaced⟩ := Outcomes.exists_right hholds.placements hoccurrence
  have hkept : ∃ kept, .fragment kept ∈ level.slots ∧ kept.text = selection.text := by
    unfold Level.Placed at hplaced
    split at hplaced
    · rename_i head nested? hfield
      obtain rfl : selection = .field head nested? := hfield
      exact hfragment.elim
    · exact hplaced.1
  obtain ⟨kept, hslot, htext⟩ := hkept
  obtain ⟨occurrence, hoccurrence', rfl, -⟩ := hholds.fragments hslot
  obtain ⟨other, hother, found, hfound, rfl⟩ := mem_occurrences.mp hoccurrence'
  -- No two legal selections have the same text.
  obtain rfl : found = selection := Selection.eq_of_text_eq
    (hlegal other hother found hfound) (hlegal contribution hin selection hmem) htext
  obtain ⟨part, hpart, hbecomes⟩ := Outcomes.exists_right hparts hslot
  cases hbecomes with
  | fragment => exact List.mem_flatMap.mpr ⟨_, hpart, List.mem_cons_self⟩

/-- **What a call selects is selected in the merge**, at the merged path. -/
theorem Merges.selectsAt {merged : FieldPath} {contributions : List Contribution}
    {result : MergedSelections} (h : Merges merged contributions result) {room : Nat}
    (hlegal : ContributionsLegal room contributions) {call : Nat} {path : FieldPath}
    (hpath : AtPath call path contributions) {all : List Placement}
    (hall : all.filter (Placement.isBelow call path) =
      result.placements.filter (Placement.isBelow call path))
    {contribution : Contribution} (hin : contribution ∈ contributions)
    (hcall : contribution.call = call) {keys : List String} {selection : Selection}
    (hfragment : selection.IsFragment)
    (hselects : SelectsAt contribution.selections keys selection) :
    ∃ keys', SelectsAt result.selections keys' selection ∧
      (keys = [] ∧ keys' = [] ∨
        keys ≠ [] ∧ (PathMapping.ofPlacements all).get? call ⟨path.keys ++ keys⟩ =
          some ⟨merged.keys ++ keys'⟩) := by
  revert room path contribution keys
  refine Merges.induction (P := fun merged contributions result => ∀ {room : Nat},
    ContributionsLegal room contributions → ∀ {path : FieldPath},
    AtPath call path contributions →
    all.filter (Placement.isBelow call path) =
      result.placements.filter (Placement.isBelow call path) →
    ∀ {contribution : Contribution}, contribution ∈ contributions → contribution.call = call →
    ∀ {keys : List String}, SelectsAt contribution.selections keys selection →
    ∃ keys', SelectsAt result.selections keys' selection ∧
      (keys = [] ∧ keys' = [] ∨
        keys ≠ [] ∧ (PathMapping.ofPlacements all).get? call ⟨path.keys ++ keys⟩ =
          some ⟨merged.keys ++ keys'⟩)) ?_ h
  intro merged contributions level parts aliased hholds hparts room hlegal path hpath hall
    contribution hin hcall keys hselects
  cases hselects with
  | here hmem =>
      exact ⟨[], .here (mem_selections_of_fragment hholds hparts hlegal hin hmem hfragment),
        .inl ⟨rfl, rfl⟩⟩
  | @inside _ nested head keys _ hmem hnested =>
      obtain ⟨target, below, inner, hslot, hin', hbelow, -, ih, hselected, hplacements⟩ :=
        descend hholds hparts hpath hin hcall hmem
      have hfield : HasField call contributions head.signature :=
        ⟨contribution, hin, hcall, head, some nested, hmem, rfl⟩
      have hhere := get?_field hholds hparts hpath hall hfield hslot
      obtain ⟨keys', hselects, hkeys⟩ := ih (hlegal.below hbelow).1 (hpath.below hbelow)
        ((Placement.filter_isBelow_child hall _).trans hplacements) hin' rfl hnested
      refine ⟨target.responseKey :: keys', .inside hselected hselects,
        .inr ⟨List.cons_ne_nil _ _, ?_⟩⟩
      rcases hkeys with ⟨rfl, rfl⟩ | ⟨-, hkeys⟩
      · exact hhere
      · simpa [Field.signature] using hkeys

end MergedSelections

/-! ### Expansions in a merge -/

namespace CallDocument

variable {call : CallDocument}

/-- The variables of a call do not matter to which fragments spread which. -/
theorem acyclic_ownFragments (h : Fragment.Acyclic call.fragments) :
    Fragment.Acyclic call.ownFragments := by
  refine fun name hcycle => h name (Relation.TransGen.mono ?_ name name hcycle)
  rintro before other ⟨fragment, hmem, rfl, hspread⟩
  obtain ⟨original, horiginal, rfl⟩ := List.mem_map.mp hmem
  refine ⟨original, horiginal, rfl, ?_⟩
  rw [← Selection.spreadsOfAll_mapVariablesAll (variableName call.index)]
  exact hspread

theorem nodup_ownFragments (h : call.Closed) : (call.ownFragments.map Fragment.name).Nodup := by
  rw [map_name_ownFragments]
  exact h.names

end CallDocument

namespace FragmentRegistry

variable {before later : FragmentRegistry} {call : CallDocument}

/-- **Selections say in every later registry what they say in their call.** -/
theorem Valid.expansion?_of_grows (hbefore : before.Valid nestingLimit)
    (hlater : later.Valid nestingLimit)
    (hgrows : (before.after call).fragments <+: later.fragments) (hparsed : call.IsParsed)
    (hacyclic : Fragment.Acyclic call.fragments) {selection : Selection}
    (hspreads : ∀ name ∈ selection.spreads, name ∈ call.fragments.map Fragment.name) :
    (selection.expansion? call.ownFragments).isSome = true ∧
      (selection.mapSpreads (before.renamesOf call).apply).expansion? later.definitions =
        selection.expansion? call.ownFragments := by
  have hlegal := CallDocument.legal_ownFragments hparsed
  have hclosed := CallDocument.closed_ownFragments hparsed.closed
  have hnames := CallDocument.nodup_ownFragments hparsed.closed
  have hafter : (before.after call).Valid nestingLimit := hbefore.register hlegal hclosed
  have hemitted := (extends_emit (before.renamesOf call) before call.ownFragments).emitted
  -- There are at least as many definitions as the call has fragments.
  have hlength : call.ownFragments.length ≤ later.definitions.length := by
    have hle := (List.subperm_of_subset (nodup_renamesFor before call.index hnames)
      (List.forall_mem_map.mpr hemitted)).length_le
    rw [List.length_map, Assoc.keys, List.length_map] at hle
    rw [definitions, Assoc.values, List.length_map]
    exact hle.trans hgrows.length_le
  have hwithin : ∀ name ∈ selection.spreads,
      Fragment.SpreadsWithin call.ownFragments call.ownFragments.length name := by
    intro name hname
    refine Fragment.spreadsWithin_of_acyclic (CallDocument.acyclic_ownFragments hacyclic)
      hclosed ?_
    rw [CallDocument.map_name_ownFragments]
    exact hspreads name hname
  refine ⟨Selection.expand_isSome.mpr fun name hname =>
    Fragment.meaning?_isSome hnames (hwithin name hname), ?_⟩
  refine Selection.expand_mapSpreads fun name hname => ?_
  have hregistered : (before.renamesOf call).apply name ∈
      Assoc.keys (before.after call).fragments := by
    have hdefined := hspreads name hname
    rw [← CallDocument.map_name_ownFragments] at hdefined
    obtain ⟨fragment, hfragment, rfl⟩ := List.mem_map.mp hdefined
    exact hemitted fragment hfragment
  have hmeaning : Fragment.meaning? later.definitions call.ownFragments.length
      ((before.renamesOf call).apply name) =
        Fragment.meaning? call.ownFragments call.ownFragments.length name :=
    (hafter.meaning?_of_grows hlater hgrows _ hregistered).trans
      (hbefore.meaning?_register hlegal hclosed hnames (Nat.le_succ _) (hwithin name hname))
  rw [← hmeaning]
  refine Fragment.meaning?_mono hlength ?_
  rw [hmeaning]
  exact Fragment.meaning?_isSome hnames (hwithin name hname)

end FragmentRegistry

/-! ### Expansions in a batch -/

namespace CallDocument

/-- A selection of a call with its variables under their merged names. -/
def ownSelection (call : CallDocument) (selection : Selection) : Selection :=
  selection.mapVariables (variableName call.index)

/-- A selection of a call as it is emitted: its variables under their merged names, and its spreads
pointed at the names that a registry emits its fragments under. -/
def emittedSelection (call : CallDocument) (registry : FragmentRegistry) (selection : Selection) :
    Selection :=
  (call.ownSelection selection).mapSpreads (registry.renamesOf call).apply

end CallDocument

namespace MergedBatch

/-- What has been registered once the calls have been prepared. -/
def registryOf (calls : List CallDocument) : FragmentRegistry := (prepare {} calls).1

theorem registryOf_append (front : List CallDocument) (call : CallDocument) :
    registryOf (front ++ [call]) = (registryOf front).after call := by
  rw [registryOf, prepare_append]
  rfl

/--
**Merging keeps the meaning of every call's fragments.**  A spread or inline fragment that a
call selects at a path of plain fields is selected at the merged path, with its spreads pointed
at the emitted names.  Written out through the fragments of the batch it is what it is written
out through the call's own, and so it is already when only the calls up to this one have been
registered.
-/
theorem selects_expansion {front back : List CallDocument} {call : CallDocument}
    {batch : MergedBatch} (hcalls : ∀ other ∈ front ++ call :: back, other.IsParsed)
    (hmerge : ofCalls (front ++ call :: back) = .ok batch)
    (hacyclic : Fragment.Acyclic call.fragments) {own : FieldPath} {selection : Selection}
    (hfragment : selection.IsFragment)
    (hselects : SelectsAt call.operation.selections own.keys selection) :
    ∃ merged tree, batch.mapping.mergedPath? call.index own = some merged ∧
      SelectsAt batch.operation.selections merged.keys
        (call.emittedSelection (registryOf front) selection) ∧
      (call.ownSelection selection).expansion? call.ownFragments = some tree ∧
      (call.emittedSelection (registryOf front) selection).expansion?
        (registryOf (front ++ [call])).definitions = some tree ∧
      (call.emittedSelection (registryOf front) selection).expansion? batch.fragments =
        some tree := by
  obtain ⟨registry, operations, merged, hmade⟩ := exists_madeOf hcalls hmerge
  obtain ⟨hbefore, hgrows, hin⟩ := hmade.split
  have hparsed : call.IsParsed := hcalls call (List.mem_append_right _ List.mem_cons_self)
  have hpath : AtPath call.index FieldPath.root (rootContributions operations) :=
    fun contribution hmem _ => path_of_mem_rootContributions hmem
  have hown := (hselects.mapVariables (variableName call.index)).mapSpreads
    ((registryOf front).renamesOf call).apply
  obtain ⟨keys, hmerged, hkeys⟩ := hmade.merges.selectsAt hmade.legal_contributions hpath rfl
    (List.mem_map_of_mem hin) rfl
    ((hfragment.mapVariables (variableName call.index)).mapSpreads _) hown
  have hspreads : ∀ name ∈ (call.ownSelection selection).spreads,
      name ∈ call.fragments.map Fragment.name := by
    intro name hname
    rw [CallDocument.ownSelection, Selection.spreads_mapVariables] at hname
    exact hparsed.closed.operation name (hselects.spreads hname)
  have hafter : ((registryOf front).after call).Valid nestingLimit :=
    hbefore.register (CallDocument.legal_ownFragments hparsed)
      (CallDocument.closed_ownFragments hparsed.closed)
  obtain ⟨hsome, hfinal⟩ := hbefore.expansion?_of_grows hmade.valid hgrows hparsed hacyclic hspreads
  obtain ⟨-, hearly⟩ := hbefore.expansion?_of_grows hafter List.prefix_rfl hparsed hacyclic hspreads
  obtain ⟨tree, htree⟩ := Option.isSome_iff_exists.mp hsome
  refine ⟨⟨keys⟩, tree, ?_, ?_, htree, ?_, ?_⟩
  · rw [hmade.mapping, PathMapping.mergedPath?]
    rcases hkeys with ⟨hroot, rfl⟩ | ⟨hne, hget⟩
    · obtain rfl : own = FieldPath.root := congrArg FieldPath.mk hroot
      exact if_pos rfl
    · have hown : own ≠ FieldPath.root := fun heq => hne (congrArg FieldPath.keys heq)
      rw [if_neg hown]
      exact hget
  · rw [hmade.selections]
    exact hmerged
  · rw [registryOf_append]
    exact hearly.trans htree
  · rw [hmade.fragments]
    exact hfinal.trans htree

/-- Two calls whose fragments differ two spreads down, so that both of the second are renamed. -/
def sameNames : List String :=
  ["\x7b a \x7b ...F \x7d \x7d fragment F on T \x7b ...G \x7d fragment G on T \x7b b \x7d",
    "\x7b a \x7b ...F \x7d \x7d fragment F on T \x7b ...G \x7d fragment G on T \x7b c \x7d"]

theorem ofCalls_sameNames :
    (match callsFrom 0 sameNames with
      | .ok [first, second] =>
        (match ofCalls [first, second], second.operation.selections with
          | .ok _, [.field head (some [.spread "F" []])] => head.responseKey == "a"
          | _, _ => false) &&
        second.fragments.map (fun fragment =>
          (fragment.name, Selection.spreadsOfAll fragment.selections)) == [("F", ["G"]), ("G", [])]
      | _ => false) = true := by
  decide +kernel

theorem selects_expansion_pair :
    ∃ first second batch, callsFrom 0 sameNames = .ok [first, second] ∧
      ofCalls [first, second] = .ok batch ∧
      ∃ merged tree, batch.mapping.mergedPath? second.index ⟨["a"]⟩ = some merged ∧
        SelectsAt batch.operation.selections merged.keys
          (second.emittedSelection (registryOf [first]) (.spread "F" [])) ∧
        (second.ownSelection (.spread "F" [])).expansion? second.ownFragments = some tree ∧
        (second.emittedSelection (registryOf [first]) (.spread "F" [])).expansion?
          (registryOf [first, second]).definitions = some tree ∧
        (second.emittedSelection (registryOf [first]) (.spread "F" [])).expansion?
          batch.fragments = some tree := by
  have hcheck := ofCalls_sameNames
  split at hcheck
  · rename_i first second hcalls
    rw [Bool.and_eq_true, beq_iff_eq] at hcheck
    obtain ⟨hselections, hfragments⟩ := hcheck
    split at hselections
    · rename_i batch head hbatch hselected
      rw [beq_iff_eq] at hselections
      have hstep : ∀ name other, Fragment.Spreads second.fragments name other →
          name = "F" ∧ other = "G" := by
        rintro name other ⟨fragment, hmem, rfl, hother⟩
        have hpair := List.mem_map_of_mem (f := fun fragment : Fragment =>
          (fragment.name, Selection.spreadsOfAll fragment.selections)) hmem
        rw [hfragments] at hpair
        simp only [List.mem_cons, Prod.mk.injEq, List.not_mem_nil, or_false] at hpair
        rcases hpair with ⟨hname, hspreads⟩ | ⟨-, hspreads⟩
        · rw [hspreads, List.mem_singleton] at hother
          exact ⟨hname, hother⟩
        · rw [hspreads] at hother
          exact absurd hother List.not_mem_nil
      have hacyclic : Fragment.Acyclic second.fragments := by
        intro name hcycle
        obtain ⟨before, -, hlast⟩ := Relation.TransGen.tail'_iff.mp hcycle
        obtain ⟨after, hfirst, -⟩ := Relation.TransGen.head'_iff.mp hcycle
        have hends := (hstep _ _ hlast).2.symm.trans (hstep _ _ hfirst).1
        exact absurd hends (by decide)
      have hselects : SelectsAt second.operation.selections ["a"] (.spread "F" []) := by
        rw [hselected, ← hselections]
        exact .inside List.mem_cons_self (.here List.mem_cons_self)
      exact ⟨first, second, batch, hcalls, hbatch,
        @selects_expansion [first] [] second batch (isParsed_of_callsFrom hcalls) hbatch hacyclic
          ⟨["a"]⟩ (.spread "F" []) trivial hselects⟩
    · simp at hselections
  · simp at hcheck

end MergedBatch

end QueryBatching
