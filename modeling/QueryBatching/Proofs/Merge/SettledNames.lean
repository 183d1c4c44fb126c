/-
Names that settle.

The name of a fragment depends on the names of what it spreads, and those are right after as
many rounds as it is deep.  It also depends on the names that the fragments in front of it have
claimed, and with that the dependencies can run in a circle: then the rounds end on names that
another round would change, and a definition may be dropped that is not the one under its name.
None of the names that are claimed is one for the fragment if no fragment of the call is called
like another with the number of the call behind it.  Then the names settle, wherever no fragment
spreads itself.
-/
import QueryBatching.Proofs.Merge.Selected

namespace QueryBatching

/-! ### Renamed spreads -/

namespace Selection

/-- Selections are renamed alike by what renames their spreads alike. -/
theorem mapSpreads_congr {rename rename' : String → String} {selection : Selection}
    (h : ∀ name ∈ selection.spreads, rename name = rename' name) :
    selection.mapSpreads rename = selection.mapSpreads rename' := by
  have hnested : ∀ nested : List Selection, (∀ inner ∈ nested,
      (∀ name ∈ inner.spreads, rename name = rename' name) →
        inner.mapSpreads rename = inner.mapSpreads rename') →
      (∀ name ∈ spreadsOfAll nested, rename name = rename' name) →
      mapSpreadsAll rename nested = mapSpreadsAll rename' nested := by
    intro nested ih hall
    rw [spreadsOfAll_eq] at hall
    rw [mapSpreadsAll_eq, mapSpreadsAll_eq]
    exact List.map_congr_left fun inner hinner => ih inner hinner fun name hname =>
      hall name (List.mem_flatMap.mpr ⟨inner, hinner, hname⟩)
  induction selection using Selection.induction with
  | leaf head => rfl
  | field head nested ih => rw [mapSpreads, mapSpreads, hnested nested ih h]
  | spread name directives => rw [mapSpreads, mapSpreads, h name List.mem_cons_self]
  | inlineFragment condition? directives nested ih =>
      rw [mapSpreads, mapSpreads, hnested nested ih h]

end Selection

theorem Fragment.renameSpreads_congr {fragment : Fragment} {renames renames' : FragmentRenames}
    (h : ∀ name ∈ Selection.spreadsOfAll fragment.selections,
      renames.apply name = renames'.apply name) :
    fragment.renameSpreads renames = fragment.renameSpreads renames' := by
  have hselections : Selection.mapSpreadsAll renames.apply fragment.selections =
      Selection.mapSpreadsAll renames'.apply fragment.selections := by
    rw [Selection.spreadsOfAll_eq] at h
    rw [Selection.mapSpreadsAll_eq, Selection.mapSpreadsAll_eq]
    exact List.map_congr_left fun selection hmem => Selection.mapSpreads_congr fun name hname =>
      h name (List.mem_flatMap.mpr ⟨selection, hmem, hname⟩)
  rw [renameSpreads, renameSpreads, hselections]

namespace FragmentRegistry

variable {registry : FragmentRegistry} {call : Nat} {fragments : List Fragment}
  {renames : FragmentRenames}

/-! ### What is stored -/

/-- **A fragment that shares its emitted name is stored there as it is emitted**, now or since
before. -/
theorem stored_of_shares
    (hdistinct : (fragments.map fun fragment => renames.apply fragment.name).Nodup)
    {fragment : Fragment} (hmem : fragment ∈ fragments)
    (hshares : registry.Shares (fragment.renameSpreads renames) (renames.apply fragment.name)) :
    ∃ stored, Assoc.get? (fragments.foldl (emit renames) registry).fragments
        (renames.apply fragment.name) = some stored ∧
      stored.text = (fragment.emitted renames).text := by
  have hextends := extends_emit renames registry fragments
  obtain ⟨added, hadded, hentries⟩ := hextends.added
  cases hbefore : Assoc.get? registry.fragments (renames.apply fragment.name) with
  | some existing =>
      refine ⟨existing, ?_, hshares existing hbefore⟩
      rw [hadded]
      exact Assoc.get?_append_of_some hbefore
  | none =>
      obtain ⟨stored, hstored⟩ := exists_get?_of_mem_keys (hextends.emitted fragment hmem)
      refine ⟨stored, hstored, ?_⟩
      have hnew : (renames.apply fragment.name, stored) ∈ added := by
        have hin := Assoc.mem_of_get? hstored
        rw [hadded] at hin
        exact (List.mem_append.mp hin).resolve_left fun hold =>
          Assoc.get?_eq_none_iff.mp hbefore (List.mem_map_of_mem hold)
      obtain ⟨-, other, hother, heq⟩ := hentries _ hnew
      obtain ⟨hname, rfl⟩ := Prod.mk.inj heq
      rw [List.inj_on_of_nodup_map hdistinct hmem hother hname]

/-- The names of a call's fragments are those that another round would give, and under each of
them the registry has the fragment as it is emitted. -/
structure Settled (registry : FragmentRegistry) (call : Nat) (fragments : List Fragment) :
    Prop where
  fixed : registry.assign call fragments (registry.renamesFor call fragments) =
    registry.renamesFor call fragments
  stored : ∀ fragment ∈ fragments, ∃ stored,
    Assoc.get? (registry.register call fragments).1.fragments
        ((registry.renamesFor call fragments).apply fragment.name) = some stored ∧
      stored.text = (fragment.emitted (registry.renamesFor call fragments)).text

/-- Where another round changes nothing, no definition is lost. -/
theorem settled_of_fixed (hnames : (fragments.map Fragment.name).Nodup)
    (hfixed : registry.assign call fragments (registry.renamesFor call fragments) =
      registry.renamesFor call fragments) : Settled registry call fragments where
  fixed := hfixed
  stored := by
    intro fragment hmem
    have hround := round_assign registry call hnames (registry.renamesFor call fragments)
    rw [hfixed] at hround
    exact stored_of_shares hround.distinct hmem (hround.shares fragment hmem)

/-- The names at the end are those after one of the rounds. -/
theorem exists_settle_eq (registry : FragmentRegistry) (call : Nat) (fragments : List Fragment)
    (rounds : Nat) (renames : FragmentRenames) :
    ∃ count ≤ rounds, registry.settle call fragments rounds renames =
      (registry.assign call fragments)^[count] renames := by
  induction rounds generalizing renames with
  | zero => exact ⟨0, le_rfl, rfl⟩
  | succ rounds ih =>
      rw [settle]
      split
      · exact ⟨0, Nat.zero_le _, rfl⟩
      · obtain ⟨count, hle, heq⟩ := ih (registry.assign call fragments renames)
        exact ⟨count + 1, Nat.succ_le_succ hle, heq⟩

/-- A round that changes nothing is the last that is looked at. -/
theorem settled_of_fixed_round (hnames : (fragments.map Fragment.name).Nodup) {rounds : Nat}
    (hle : rounds ≤ fragments.length + 1)
    (hfixed : (registry.assign call fragments)^[rounds + 1] [] =
      (registry.assign call fragments)^[rounds] []) : Settled registry call fragments := by
  refine settled_of_fixed hnames ?_
  rcases settle_eq registry call fragments (fragments.length + 1) [] with hsettled | hall
  · exact hsettled
  · rw [Function.iterate_succ_apply'] at hfixed
    have hrest : registry.renamesFor call fragments =
        (registry.assign call fragments)^[rounds] [] := by
      obtain ⟨more, hmore⟩ := Nat.exists_eq_add_of_le' hle
      refine hall.trans ?_
      rw [hmore, Function.iterate_add_apply]
      exact Function.iterate_fixed hfixed more
    rw [hrest]
    exact hfixed

/-! ### Names that are not claimed -/

/-- No fragment is called like another, or itself, with the number of the call behind it. -/
def Apart (call : Nat) (fragments : List Fragment) : Prop :=
  ∀ fragment ∈ fragments, ∀ other ∈ fragments, ∀ count,
    other.name ≠ FreshName.spelling (fragment.name ++ "_" ++ toString call) count

/-- Of fragments whose names are apart none can be given a name that another can be given. -/
theorem Apart.name_eq (h : Apart call fragments) {fragment other : Fragment}
    (hmem : fragment ∈ fragments) (hother : other ∈ fragments) {name : String}
    (hspelled : Spelled call fragment.name name) (hspelled' : Spelled call other.name name) :
    fragment.name = other.name := by
  rcases hspelled with rfl | ⟨count, rfl⟩
  · rcases hspelled' with hname | ⟨count, hname⟩
    · exact hname
    · exact absurd hname (h other hother fragment hmem count)
  · rcases hspelled' with hname | ⟨count', hname⟩
    · exact absurd hname.symm (h fragment hmem other hother count)
    · rcases FreshName.cases_of_spelling_eq hname with ⟨hsame, -⟩ | hnumbered | hnumbered
      · exact hsame
      · exact absurd hnumbered (h other hother fragment hmem 0)
      · exact absurd hnumbered (h fragment hmem other hother 0)

/-- The name of a fragment does not depend on claims that are no names for it. -/
theorem freeName_of_notMem (registry : FragmentRegistry) {fragment : Fragment}
    {claimed : List String} (hclaimed : ∀ name, Spelled call fragment.name name → name ∉ claimed) :
    registry.freeName call fragment claimed = registry.freeName call fragment [] := by
  have hsame : ∀ name, Spelled call fragment.name name →
      registry.fits fragment claimed name = registry.fits fragment [] name := by
    intro name hname
    unfold fits
    rw [decide_eq_true (hclaimed name hname), decide_eq_true List.not_mem_nil]
  have hfits := fits_freeName registry call fragment claimed
  have hfits' := fits_freeName registry call fragment []
  unfold freeName at hfits hfits' ⊢
  dsimp only at hfits hfits' ⊢
  rw [hsame fragment.name (.inl rfl)] at hfits ⊢
  split
  · rfl
  · rename_i hno
    rw [if_neg hno] at hfits hfits'
    exact FreshName.search_congr (fun count => hsame _ (.inr ⟨count, rfl⟩)) hfits hfits'

/-- One round gives every fragment the name that it would be given alone. -/
theorem assignFrom_eq_append (registry : FragmentRegistry) (renames : FragmentRenames)
    (hnames : (fragments.map Fragment.name).Nodup) (hapart : Apart call fragments)
    {claimed : List String} {assigned : FragmentRenames}
    (hclaimed : ∀ fragment ∈ fragments, ∀ name, Spelled call fragment.name name → name ∉ claimed)
    (hassigned : ∀ fragment ∈ fragments, fragment.name ∉ Assoc.keys assigned) :
    registry.assignFrom call renames claimed assigned fragments =
      assigned ++ fragments.map fun fragment =>
        (fragment.name, registry.freeName call (fragment.renameSpreads renames) []) := by
  induction fragments generalizing claimed assigned with
  | nil => rw [assignFrom, List.map_nil, List.append_nil]
  | cons fragment rest ih =>
      rw [List.map_cons, List.nodup_cons] at hnames
      rw [List.forall_mem_cons] at hclaimed hassigned
      have hspelled : Spelled call fragment.name
          (registry.freeName call (fragment.renameSpreads renames) []) :=
        spelled_freeName registry call (fragment.renameSpreads renames) []
      have hrest : Apart call rest := fun a ha b hb =>
        hapart a (List.mem_cons_of_mem _ ha) b (List.mem_cons_of_mem _ hb)
      have halone : registry.freeName call (fragment.renameSpreads renames) claimed =
          registry.freeName call (fragment.renameSpreads renames) [] :=
        freeName_of_notMem registry hclaimed.1
      rw [assignFrom, halone, Assoc.insert_of_notMem hassigned.1, ih hnames.2 hrest,
        List.append_assoc, List.singleton_append, List.map_cons]
      · intro other hother name hname hmem
        rcases List.mem_cons.mp hmem with rfl | hmem
        · have hsame := hapart.name_eq List.mem_cons_self (List.mem_cons_of_mem _ hother) hspelled
            hname
          exact hnames.1 (hsame ▸ List.mem_map_of_mem hother)
        · exact hclaimed.2 other hother name hname hmem
      · intro other hother hmem
        rw [Assoc.keys, List.map_append] at hmem
        rcases List.mem_append.mp hmem with hmem | hmem
        · exact hassigned.2 other hother hmem
        · have hsame : other.name = fragment.name := List.mem_singleton.mp hmem
          exact hnames.1 (hsame ▸ List.mem_map_of_mem hother)

section Alone

variable (hnames : (fragments.map Fragment.name).Nodup) (hapart : Apart call fragments)

include hnames hapart

theorem assign_eq_map (registry : FragmentRegistry) (renames : FragmentRenames) :
    registry.assign call fragments renames = fragments.map fun fragment =>
      (fragment.name, registry.freeName call (fragment.renameSpreads renames) []) :=
  assignFrom_eq_append registry renames hnames hapart (fun _ _ _ _ => List.not_mem_nil)
    fun _ _ => List.not_mem_nil

theorem apply_assign (registry : FragmentRegistry) (renames : FragmentRenames)
    {fragment : Fragment} (hmem : fragment ∈ fragments) :
    (registry.assign call fragments renames).apply fragment.name =
      registry.freeName call (fragment.renameSpreads renames) [] := by
  have hkeys : Assoc.keys (registry.assign call fragments renames) =
      fragments.map Fragment.name := by
    rw [assign_eq_map hnames hapart, Assoc.keys, List.map_map]
    rfl
  have hentry : (fragment.name, registry.freeName call (fragment.renameSpreads renames) []) ∈
      registry.assign call fragments renames := by
    rw [assign_eq_map hnames hapart]
    exact List.mem_map_of_mem hmem
  rw [FragmentRenames.apply, Assoc.get?_of_mem (hkeys ▸ hnames) hentry, Option.getD_some]

/-! ### Rounds that change nothing -/

/-- **After as many rounds as a fragment is deep** its name stays. -/
theorem apply_iterate_succ (registry : FragmentRegistry) (start : FragmentRenames)
    {depth rounds : Nat} {name : String} (hdepth : Fragment.SpreadsWithin fragments depth name)
    (hle : depth ≤ rounds) :
    ((registry.assign call fragments)^[rounds + 1] start).apply name =
      ((registry.assign call fragments)^[rounds] start).apply name := by
  induction depth generalizing rounds name with
  | zero => exact hdepth.elim
  | succ depth ih =>
      obtain ⟨fragment, hmem, rfl, hspreads⟩ := hdepth
      obtain ⟨rounds, rfl⟩ : ∃ before, rounds = before + 1 := ⟨rounds - 1, by omega⟩
      rw [Function.iterate_succ_apply', Function.iterate_succ_apply',
        apply_assign hnames hapart registry _ hmem, apply_assign hnames hapart registry _ hmem]
      have hsame : fragment.renameSpreads
          (registry.assign call fragments ((registry.assign call fragments)^[rounds] start)) =
            fragment.renameSpreads ((registry.assign call fragments)^[rounds] start) := by
        refine Fragment.renameSpreads_congr fun other hother => ?_
        rw [← Function.iterate_succ_apply' (registry.assign call fragments)]
        exact ih (hspreads other hother) (by omega)
      rw [hsame]

/-- A round reads of the names before only those of what is spread. -/
theorem assign_congr (registry : FragmentRegistry) {renames renames' : FragmentRenames}
    (h : ∀ fragment ∈ fragments, ∀ name ∈ Selection.spreadsOfAll fragment.selections,
      renames.apply name = renames'.apply name) :
    registry.assign call fragments renames = registry.assign call fragments renames' := by
  rw [assign_eq_map hnames hapart, assign_eq_map hnames hapart]
  refine List.map_congr_left fun fragment hmem => ?_
  rw [Fragment.renameSpreads_congr (h fragment hmem)]

/-- **Names settle** where no fragment of the call spreads itself. -/
theorem settled_of_acyclic (registry : FragmentRegistry)
    (hclosed : ∀ fragment ∈ fragments, ∀ name ∈ Selection.spreadsOfAll fragment.selections,
      name ∈ fragments.map Fragment.name)
    (hacyclic : Fragment.Acyclic fragments) : Settled registry call fragments := by
  refine settled_of_fixed_round hnames le_rfl ?_
  rw [Function.iterate_succ_apply', Function.iterate_succ_apply' _ fragments.length]
  refine assign_congr hnames hapart registry fun fragment hmem name hname => ?_
  rw [← Function.iterate_succ_apply' (registry.assign call fragments)]
  exact apply_iterate_succ hnames hapart registry []
    (Fragment.spreadsWithin_of_acyclic hacyclic hclosed (hclosed fragment hmem name hname)) le_rfl

end Alone

/--
**When names settle**: exactly if one of the rounds gives the names of the round before.  They do
wherever no fragment of the call spreads itself, directly or through others, and none is called
like another with the number of the call behind it.
-/
theorem settled_iff (registry : FragmentRegistry) (call : Nat) {fragments : List Fragment}
    (hnames : (fragments.map Fragment.name).Nodup) :
    (Settled registry call fragments ↔ ∃ rounds ≤ fragments.length + 1,
      (registry.assign call fragments)^[rounds + 1] [] =
        (registry.assign call fragments)^[rounds] []) ∧
      ((∀ fragment ∈ fragments, ∀ name ∈ Selection.spreadsOfAll fragment.selections,
          name ∈ fragments.map Fragment.name) →
        Fragment.Acyclic fragments → Apart call fragments →
        Settled registry call fragments) := by
  refine ⟨⟨fun hsettled => ?_, fun ⟨rounds, hle, hfixed⟩ =>
    settled_of_fixed_round hnames hle hfixed⟩, fun hclosed hacyclic hapart =>
    settled_of_acyclic hnames hapart registry hclosed hacyclic⟩
  obtain ⟨rounds, hle, hrounds⟩ :=
    exists_settle_eq registry call fragments (fragments.length + 1) []
  have hfixed := hsettled.fixed
  rw [renamesFor, hrounds] at hfixed
  refine ⟨rounds, hle, ?_⟩
  rw [Function.iterate_succ_apply']
  exact hfixed

/-- Names without an underscore are no names with a number behind. -/
theorem apart_of_unmarked (call : Nat) (h : ∀ fragment ∈ fragments, '_' ∉ fragment.name.toList) :
    Apart call fragments := by
  intro fragment _ other hother count hname
  refine h other hother ?_
  have hmark : '_' ∈ (fragment.name ++ "_" ++ toString call).toList := by simp
  rw [hname]
  cases count with
  | zero => exact hmark
  | succ count => simp [FreshName.spelling]

end FragmentRegistry

/-- Fragments that spread only fragments of a lower rank do not spread themselves. -/
theorem Fragment.acyclic_of_rank {fragments : List Fragment} (rank : String → Nat)
    (h : ∀ fragment ∈ fragments, ∀ name ∈ Selection.spreadsOfAll fragment.selections,
      rank name < rank fragment.name) : Acyclic fragments := by
  have hstep : ∀ name other, Spreads fragments name other → rank other < rank name := by
    rintro name other ⟨fragment, hmem, rfl, hother⟩
    exact h fragment hmem other hother
  intro name hcycle
  have hlt : ∀ other, Relation.TransGen (Spreads fragments) name other →
      rank other < rank name := by
    intro other hpath
    induction hpath with
    | single hfirst => exact hstep _ _ hfirst
    | tail _ hlast ih => exact (hstep _ _ hlast).trans ih
  exact absurd (hlt name hcycle) (lt_irrefl _)

namespace MergedBatch

theorem callsFrom_sameNames :
    (match callsFrom 0 sameNames with
      | .ok [_, second] => second.ownFragments.all fun fragment =>
          decide ('_' ∉ fragment.name.toList) &&
            (Selection.spreadsOfAll fragment.selections).all fun name =>
              name == "G" && fragment.name != "G"
      | _ => false) = true := by
  decide +kernel

/-- Two calls with different fragments under the same names, of which one spreads the other. -/
theorem settled_iff_sameNames :
    ∃ first second, callsFrom 0 sameNames = .ok [first, second] ∧
      (second.ownFragments.map Fragment.name).Nodup ∧
      (registryOf [first]).Settled second.index second.ownFragments := by
  have hcheck := callsFrom_sameNames
  split at hcheck
  · rename_i first second hcalls
    have hparsed := isParsed_of_callsFrom hcalls second (by simp)
    have hall : ∀ fragment ∈ second.ownFragments, '_' ∉ fragment.name.toList ∧
        ∀ name ∈ Selection.spreadsOfAll fragment.selections, name = "G" ∧ fragment.name ≠ "G" := by
      simpa using hcheck
    have hapart : FragmentRegistry.Apart second.index second.ownFragments :=
      FragmentRegistry.apart_of_unmarked _ fun fragment hmem => (hall fragment hmem).1
    have hnames := CallDocument.nodup_ownFragments hparsed.closed
    refine ⟨first, second, hcalls, hnames, (FragmentRegistry.settled_iff _ _ hnames).2
      (CallDocument.closed_ownFragments hparsed.closed)
      (Fragment.acyclic_of_rank (fun name => if name = "G" then 0 else 1) ?_) hapart⟩
    intro fragment hmem name hname
    obtain ⟨hspread, hother⟩ := (hall fragment hmem).2 name hname
    rw [if_pos hspread, if_neg hother]
    exact Nat.one_pos
  · simp at hcheck

/-- Two calls of which the second has names that depend on each other in a circle: what one of its
fragments spreads is called after a claim of the other. -/
def crossedNames : List String :=
  ["\x7b ...X \x7d fragment X on T \x7b ...Y_1_1 \x7d fragment Y on T \x7b ...X_1_1 \x7d " ++
      "fragment X_1_1 on T \x7b a \x7d fragment Y_1_1 on T \x7b b \x7d",
    "\x7b ...X ...Y ...Z \x7d fragment X on T \x7b ...Y_1 \x7d fragment X_1 on T \x7b a \x7d " ++
      "fragment Y on T \x7b ...X_1 \x7d fragment Y_1 on T \x7b b \x7d fragment Z on T \x7b c \x7d"]

/-- The names that the second call is left with. -/
def crossedRenames : FragmentRenames :=
  ["X", "X_1", "Y", "Y_1", "Z"].map fun name => (name, name)

theorem callsFrom_crossedNames :
    (match callsFrom 0 crossedNames with
      | .ok [first, second] =>
        (registryOf [first]).renamesOf second == crossedRenames &&
          (registryOf [first]).assign second.index second.ownFragments crossedRenames !=
            crossedRenames &&
          second.ownFragments.any fun fragment =>
            (Assoc.get? (second.ownFragments.foldl (FragmentRegistry.emit crossedRenames)
              (registryOf [first])).fragments (crossedRenames.apply fragment.name)).map
                Fragment.text != some (fragment.emitted crossedRenames).text
      | _ => false) = true := by
  decide +kernel

/-- **Names need not settle**: here another round gives others, and a definition is lost. -/
theorem not_settled_crossedNames :
    ∃ first second, callsFrom 0 crossedNames = .ok [first, second] ∧
      (second.ownFragments.map Fragment.name).Nodup ∧
      (∀ fragment ∈ second.ownFragments, ∀ name ∈ Selection.spreadsOfAll fragment.selections,
        name ∈ second.ownFragments.map Fragment.name) ∧
      (registryOf [first]).assign second.index second.ownFragments
          ((registryOf [first]).renamesFor second.index second.ownFragments) ≠
        (registryOf [first]).renamesFor second.index second.ownFragments ∧
      ∃ fragment ∈ second.ownFragments,
        (Assoc.get? ((registryOf [first]).register second.index second.ownFragments).1.fragments
          (((registryOf [first]).renamesFor second.index second.ownFragments).apply
            fragment.name)).map Fragment.text ≠
        some (fragment.emitted
          ((registryOf [first]).renamesFor second.index second.ownFragments)).text := by
  have hcheck := callsFrom_crossedNames
  split at hcheck
  · rename_i first second hcalls
    have hparsed := isParsed_of_callsFrom hcalls second (by simp)
    simp only [Bool.and_eq_true, beq_iff_eq, bne_iff_ne, List.any_eq_true] at hcheck
    obtain ⟨⟨hrenames, hunsettled⟩, fragment, hmem, hlost⟩ := hcheck
    change (registryOf [first]).renamesFor second.index second.ownFragments = _ at hrenames
    refine ⟨first, second, hcalls, CallDocument.nodup_ownFragments hparsed.closed,
      CallDocument.closed_ownFragments hparsed.closed, ?_, fragment, hmem, ?_⟩
    · rw [hrenames]
      exact hunsettled
    · rw [FragmentRegistry.register, hrenames]
      exact hlost
  · simp at hcheck

end MergedBatch

end QueryBatching
