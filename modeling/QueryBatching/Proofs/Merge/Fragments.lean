/-
Merging keeps what the fragments of a call say.

A call's fragments are emitted under new names, and not even each of them is emitted: where the
registry has a definition of the same text under a name, that one is used.  What it spreads has
been given names by another call.  Still it says the same, at every depth: the text of a
definition has the names of what it spreads in it, the registry is closed, and so those names
are registered too, and shared for the same reason.

That the rounds of assigning names may not have settled does not matter.  A fragment whose
spreads go through so many others needs as many rounds to be right, and there are as many
rounds as a call has fragments.
-/
import QueryBatching.Proofs.Document.Expansion
import QueryBatching.Proofs.Document.RoundTrip
import QueryBatching.Proofs.Merge.Batch
import QueryBatching.Proofs.Merge.Rounds
import QueryBatching.Proofs.Merge.Routes
import QueryBatching.Proofs.Merge.WellFormed

namespace QueryBatching

open Grammar (nestingLimit)
open Fragment (SpreadsWithin)

/-! ### Two definitions that say the same -/

/-- A definition says the same as another if its spreads say the same as the other's. -/
theorem Fragment.meaning?_eq {fragments others : List Fragment} {rename : String → String}
    {a b : Fragment} {name other : String}
    (ha : fragments.find? (fun fragment => fragment.name = name) = some a)
    (hb : others.find? (fun fragment => fragment.name = other) = some b)
    (hcondition : a.condition = b.condition) (hdirectives : a.directives = b.directives)
    (hselections : a.selections = Selection.mapSpreadsAll rename b.selections) {depth : Nat}
    (hspreads : ∀ spread ∈ Selection.spreadsOfAll b.selections,
      meaning? fragments depth (rename spread) = meaning? others depth spread) :
    meaning? fragments (depth + 1) name = meaning? others (depth + 1) other := by
  rw [meaning?_of_find ha, meaning?_of_find hb, hcondition, hdirectives, hselections,
    Selection.expandAll_mapSpreadsAll hspreads]

namespace FragmentRegistry

variable {room : Nat} {registry later : FragmentRegistry} {call : Nat} {fragments : List Fragment}

/-- The fragments of a registry, in their order. -/
def definitions (registry : FragmentRegistry) : List Fragment := Assoc.values registry.fragments

theorem Valid.find?_definitions (h : registry.Valid room) {name : String} {fragment : Fragment}
    (hget : Assoc.get? registry.fragments name = some fragment) :
    registry.definitions.find? (fun other => other.name = name) = some fragment := by
  have hmem := Assoc.mem_of_get? hget
  have hnames : registry.definitions.map Fragment.name = Assoc.keys registry.fragments := by
    rw [definitions, Assoc.values, Assoc.keys, List.map_map]
    exact List.map_congr_left h.names
  have hname : fragment.name = name := h.names _ hmem
  rw [← hname]
  exact Fragment.find?_of_mem (hnames ▸ h.nodup) (List.mem_map_of_mem hmem)

theorem exists_get?_of_mem_keys {name : String} (h : name ∈ Assoc.keys registry.fragments) :
    ∃ fragment, Assoc.get? registry.fragments name = some fragment := by
  rw [← Option.isSome_iff_exists]
  exact (Assoc.contains_iff_mem_keys _ _).mpr h

/-! ### Registries that grow -/

/-- **What is registered later changes nothing** for what was registered before. -/
theorem Valid.meaning?_of_grows (h : registry.Valid room) (hlater : later.Valid room)
    (hgrows : registry.fragments <+: later.fragments) (depth : Nat) {name : String}
    (hname : name ∈ Assoc.keys registry.fragments) :
    Fragment.meaning? later.definitions depth name =
      Fragment.meaning? registry.definitions depth name := by
  induction depth generalizing name with
  | zero => rfl
  | succ depth ih =>
      obtain ⟨fragment, hget⟩ := exists_get?_of_mem_keys hname
      obtain ⟨more, hmore⟩ := hgrows
      have hget' : Assoc.get? later.fragments name = some fragment :=
        hmore ▸ Assoc.get?_append_of_some hget
      have hself : fragment.selections = Selection.mapSpreadsAll id fragment.selections :=
        (Selection.mapSpreadsAll_eq_self fun _ _ => rfl).symm
      exact Fragment.meaning?_eq (hlater.find?_definitions hget') (h.find?_definitions hget) rfl rfl
        hself fun spread hspread => ih (h.closed _ (Assoc.mem_of_get? hget) spread hspread)

/-! ### Names that were there before -/

/-- A definition that shares its name with a fragment is that fragment with its spreads renamed. -/
theorem Shares.eq {fragment existing : Fragment} {renames : FragmentRenames} {name : String}
    (h : registry.Shares (fragment.renameSpreads renames) name)
    (hget : Assoc.get? registry.fragments name = some existing) (hexisting : existing.Legal room)
    (hfragment : fragment.Legal room) (hname : IsFragmentName name)
    (hrenames : ∀ name, IsFragmentName name → IsFragmentName (renames.apply name)) :
    existing.condition = fragment.condition ∧ existing.directives = fragment.directives ∧
      existing.selections = Selection.mapSpreadsAll renames.apply fragment.selections := by
  have hlegal : (fragment.renameSpreads renames).Legal room :=
    ⟨hfragment.name, hfragment.condition, hfragment.directives,
      hfragment.selections.mapSpreads hrenames⟩
  exact Fragment.body_eq_of_text_eq hexisting hlegal hname (h existing hget)

/-- **A fragment whose name is registered already says what is registered under it**, once there
have been as many rounds as its spreads are deep. -/
theorem Valid.meaning?_of_registered (h : registry.Valid room)
    (hlegal : ∀ fragment ∈ fragments, fragment.Legal room)
    (hnames : (fragments.map Fragment.name).Nodup) {start : FragmentRenames}
    (hstart : ∀ name, Spelled call name (start.apply name)) {depth : Nat} {name : String}
    (hdepth : SpreadsWithin fragments depth name)
    (hname : ((registry.assign call fragments)^[depth] start).apply name ∈
      Assoc.keys registry.fragments) :
    Fragment.meaning? registry.definitions depth
        (((registry.assign call fragments)^[depth] start).apply name) =
      Fragment.meaning? fragments depth name := by
  induction depth generalizing name with
  | zero => exact hdepth.elim
  | succ depth ih =>
      obtain ⟨fragment, hmem, rfl, hspreads⟩ := hdepth
      rw [Function.iterate_succ_apply'] at hname ⊢
      have hspelled := spelled_iterate registry call fragments hstart depth
      have hspelled' : Spelled call fragment.name
          ((registry.assign call fragments
            ((registry.assign call fragments)^[depth] start)).apply fragment.name) :=
        spelled_assignFrom registry call _ (fun _ => .inl rfl) fragment.name
      have hround := round_assign registry call hnames
        ((registry.assign call fragments)^[depth] start)
      obtain ⟨existing, hget⟩ := exists_get?_of_mem_keys hname
      have hin := Assoc.mem_of_get? hget
      obtain ⟨hcondition, hdirectives, hselections⟩ := (hround.shares fragment hmem).eq hget
        (h.legal _ hin) (hlegal fragment hmem)
        (hspelled'.isFragmentName (hlegal fragment hmem).name)
        fun other hother => (hspelled other).isFragmentName hother
      refine Fragment.meaning?_eq (h.find?_definitions hget) (Fragment.find?_of_mem hnames hmem)
        hcondition hdirectives hselections fun spread hspread => ih (hspreads spread hspread) ?_
      -- The definition spreads the renamed name, and the registry is closed.
      refine h.closed _ hin _ ?_
      rw [hselections, Selection.spreadsOfAll_mapSpreadsAll]
      exact List.mem_map_of_mem hspread

/-! ### All names of a call -/

/-- **Every fragment of a call says what is registered under its emitted name.** -/
theorem Valid.meaning?_register (h : registry.Valid room)
    (hlegal : ∀ fragment ∈ fragments, fragment.Legal room)
    (hclosed : ∀ fragment ∈ fragments, ∀ name ∈ Selection.spreadsOfAll fragment.selections,
      name ∈ fragments.map Fragment.name)
    (hnames : (fragments.map Fragment.name).Nodup) {depth : Nat} {name : String}
    (hrounds : depth ≤ fragments.length + 1) (hdepth : SpreadsWithin fragments depth name) :
    Fragment.meaning? (registry.register call fragments).1.definitions depth
        ((registry.renamesFor call fragments).apply name) =
      Fragment.meaning? fragments depth name := by
  have hlater : (registry.register call fragments).1.Valid room := h.register hlegal hclosed
  have hextends : Extends (registry.renamesFor call fragments) fragments registry
      (registry.register call fragments).1 := extends_emit _ registry fragments
  obtain ⟨added, hadded, hentries⟩ := hextends.added
  induction depth generalizing name with
  | zero => exact hdepth.elim
  | succ depth ih =>
      by_cases hthere : (registry.renamesFor call fragments).apply name ∈
          Assoc.keys registry.fragments
      · rw [h.meaning?_of_grows hlater ⟨added, hadded.symm⟩ (depth + 1) hthere]
        obtain ⟨start, hstart, heq⟩ := exists_renamesFor_eq registry call fragments hrounds
        rw [heq] at hthere ⊢
        exact h.meaning?_of_registered hlegal hnames hstart hdepth hthere
      · obtain ⟨fragment, hmem, rfl, hspreads⟩ := hdepth
        obtain ⟨existing, hget⟩ := exists_get?_of_mem_keys (hextends.emitted fragment hmem)
        have hnew : ((registry.renamesFor call fragments).apply fragment.name, existing) ∈
            added := by
          have hin := Assoc.mem_of_get? hget
          rw [hadded] at hin
          exact (List.mem_append.mp hin).resolve_left fun hin =>
            hthere (List.mem_map_of_mem hin)
        obtain ⟨-, other, hother, heq⟩ := hentries _ hnew
        obtain ⟨hsame, rfl⟩ := Prod.mk.inj heq
        -- Emitted names are different, so this is the fragment itself.
        obtain rfl : fragment = other := List.inj_on_of_nodup_map
          (nodup_renamesFor registry call hnames) hmem hother hsame
        exact Fragment.meaning?_eq (hlater.find?_definitions hget)
          (Fragment.find?_of_mem hnames hmem) rfl rfl rfl fun spread hspread =>
            ih (by omega) (hspreads spread hspread)

end FragmentRegistry

end QueryBatching
