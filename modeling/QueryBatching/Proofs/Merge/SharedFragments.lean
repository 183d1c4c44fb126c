/-
Definitions that several calls share.

A call looks for a definition like its own under two kinds of names: the fragment's name, and
that with the number of the call behind it.  Other calls have other numbers, so two calls share
a definition of one name only under that name itself.  Both are given it exactly if nothing else
is registered under it when the first of them comes, and neither gives it to another of its
fragments.  A definition that has been renamed is not found by the calls after.
-/
import QueryBatching.Proofs.Merge.OwnNames
import QueryBatching.Proofs.Merge.SettledNames

namespace QueryBatching

namespace Fragment

variable {fragment : Fragment} (hspreads : Selection.spreadsOfAll fragment.selections = [])

include hspreads

theorem renameSpreads_of_plain (renames : FragmentRenames) :
    fragment.renameSpreads renames = fragment := by
  rw [renameSpreads, Selection.mapSpreadsAll_eq_self (by simp [hspreads])]

/-- A fragment that spreads nothing and keeps its name is emitted as it is. -/
theorem emitted_of_plain {renames : FragmentRenames}
    (hself : renames.apply fragment.name = fragment.name) :
    fragment.emitted renames = fragment := by
  rw [emitted, renameSpreads_of_plain hspreads, hself]

end Fragment

namespace FragmentRegistry

variable {registry : FragmentRegistry} {call : Nat} {fragments : List Fragment}
  {renames : FragmentRenames}

/-! ### Fragments that keep their names -/

/-- A fragment that no other fragment's name takes its own from keeps it, if it is shared there. -/
theorem apply_assignFrom_self (hnames : (fragments.map Fragment.name).Nodup) {claimed : List String}
    {assigned : FragmentRenames} {fragment : Fragment} (hmem : fragment ∈ fragments)
    (hclaimed : fragment.name ∉ claimed)
    (hothers : ∀ other ∈ fragments, other.name ≠ fragment.name →
      (registry.assignFrom call renames claimed assigned fragments).apply other.name ≠
        fragment.name)
    (hshares : registry.Shares (fragment.renameSpreads renames) fragment.name) :
    (registry.assignFrom call renames claimed assigned fragments).apply fragment.name =
      fragment.name := by
  induction fragments generalizing claimed assigned with
  | nil => exact absurd hmem List.not_mem_nil
  | cons first rest ih =>
      rw [List.map_cons, List.nodup_cons] at hnames
      rw [List.forall_mem_cons] at hothers
      have hfirst : ∀ name, (registry.assignFrom call renames (name :: claimed)
          (Assoc.insert assigned first.name name) rest).apply first.name = name := by
        intro name
        rw [apply_assignFrom_of_notMem hnames.1, apply_insert, if_pos rfl]
      rw [assignFrom] at hothers ⊢
      rcases List.mem_cons.mp hmem with rfl | hmem
      · rw [hfirst]
        exact freeName_of_fits (fits_eq_true.mpr ⟨hclaimed, hshares⟩)
      · have hne : first.name ≠ fragment.name := fun heq =>
          hnames.1 (heq ▸ List.mem_map_of_mem hmem)
        have hname := hothers.1 hne
        rw [hfirst] at hname
        refine ih hnames.2 hmem (fun hin => ?_) hothers.2
        rcases List.mem_cons.mp hin with heq | hin
        · exact hname heq.symm
        · exact hclaimed hin

section Plain

variable (registry : FragmentRegistry) (call : Nat) (hnames : (fragments.map Fragment.name).Nodup)
  {fragment : Fragment} (hmem : fragment ∈ fragments)
  (hspreads : Selection.spreadsOfAll fragment.selections = [])

include hnames hmem hspreads

/-- **When a fragment that spreads nothing keeps its name.** -/
theorem apply_renamesFor_self_iff :
    (registry.renamesFor call fragments).apply fragment.name = fragment.name ↔
      registry.Shares fragment fragment.name ∧ ∀ other ∈ fragments, other.name ≠ fragment.name →
        (registry.renamesFor call fragments).apply other.name ≠ fragment.name := by
  obtain ⟨start, -, heq⟩ := exists_renamesFor_eq registry call fragments
    (Nat.succ_le_succ (Nat.zero_le fragments.length))
  have hplain := Fragment.renameSpreads_of_plain hspreads start
  constructor
  · intro hself
    constructor
    · have hshares := (round_assign registry call hnames start).shares fragment hmem
      rw [heq] at hself
      rw [hplain] at hshares
      exact hself ▸ hshares
    · intro other hother hne hname
      have hsame := List.inj_on_of_nodup_map (nodup_renamesFor registry call hnames) hother hmem
        (hname.trans hself.symm)
      exact hne (congrArg Fragment.name hsame)
  · rintro ⟨hshares, hothers⟩
    rw [heq] at hothers ⊢
    exact apply_assignFrom_self hnames hmem List.not_mem_nil hothers (hplain.symm ▸ hshares)

/-- One that keeps its name is registered under it, whatever is registered later. -/
theorem shares_of_kept
    (hself : (registry.renamesFor call fragments).apply fragment.name = fragment.name)
    {later : FragmentRegistry}
    (hgrows : (registry.register call fragments).1.fragments <+: later.fragments)
    {other : Fragment} (hname : other.name = fragment.name) (htext : other.text = fragment.text) :
    later.Shares other fragment.name := by
  obtain ⟨hshares, -⟩ :=
    (apply_renamesFor_self_iff registry call hnames hmem hspreads).mp hself
  have hplain := Fragment.renameSpreads_of_plain hspreads (registry.renamesFor call fragments)
  obtain ⟨stored, hstored, hsame⟩ := stored_of_shares (nodup_renamesFor registry call hnames) hmem
    (by rwa [hplain, hself])
  rw [hself] at hstored
  rw [Fragment.emitted_of_plain hspreads hself] at hsame
  obtain ⟨more, hmore⟩ := hgrows
  intro existing hexisting
  have hfound : Assoc.get? later.fragments fragment.name = some stored :=
    hmore ▸ Assoc.get?_append_of_some hstored
  rw [hfound] at hexisting
  rw [← Option.some.inj hexisting, hsame, ← htext, ← hname]

end Plain

/-- Calls of different numbers give fragments of one name the same name only if both keep it. -/
theorem name_eq_of_spelled {other : Nat} {name emitted : String} (hne : call ≠ other)
    (h : Spelled call name emitted) (h' : Spelled other name emitted) : emitted = name := by
  rcases h with heq | ⟨count, heq⟩
  · exact heq
  · rcases h' with heq' | ⟨count', heq'⟩
    · exact heq'
    · rcases FreshName.cases_of_spelling_eq (heq.symm.trans heq') with ⟨-, hsame⟩ | hname | hname
      · exact absurd hsame hne
      · exact absurd hname (ne_numbered name other)
      · exact absurd hname (ne_numbered name call)

end FragmentRegistry

/-! ### Sharing in a batch -/

namespace MergedBatch

/-- The name that a call's spreads of a fragment are pointed at, behind the calls in front. -/
def emittedName (front : List CallDocument) (call : CallDocument) (name : String) : String :=
  ((registryOf front).renamesOf call).apply name

theorem emittedSelection_spread (front : List CallDocument) (call : CallDocument) (name : String)
    (directives : List Directive) :
    call.emittedSelection (registryOf front) (.spread name directives) =
      .spread (emittedName front call name)
        (directives.map (Directive.mapVariables (variableName call.index))) := rfl

/-- What a call has registered stays there while the calls behind it are prepared. -/
theorem fragments_registryOf (front mid : List CallDocument) (call : CallDocument) :
    ((registryOf front).after call).fragments <+:
      (registryOf (front ++ call :: mid)).fragments := by
  have hall : registryOf (front ++ call :: mid) =
      (prepare ((registryOf front).after call) mid).1 := by
    rw [registryOf, prepare_append, prepare_cons]
    rfl
  rw [hall]
  exact fragments_prepare _ mid

/-- A call gives the name to none of its fragments but the one that has it. -/
def GivesToNoOther (front : List CallDocument) (call : CallDocument) (name : String) : Prop :=
  ∀ fragment ∈ call.ownFragments, fragment.name ≠ name →
    emittedName front call fragment.name ≠ name

/--
**When two calls share a definition.**  Calls of different numbers that define a fragment of one
name with the same text, spreading nothing, have their spreads of it pointed at the same name
exactly if nothing with another text has been registered under its name when the first of them
comes, and neither of the two gives that name to another of its fragments.
-/
theorem emittedName_eq_iff {front mid : List CallDocument} {a b : CallDocument}
    (hparsed : a.IsParsed) (hparsed' : b.IsParsed) (hindices : a.index ≠ b.index)
    {fragment other : Fragment} (hmem : fragment ∈ a.ownFragments) (hother : other ∈ b.ownFragments)
    (hspreads : Selection.spreadsOfAll fragment.selections = [])
    (hspreads' : Selection.spreadsOfAll other.selections = [])
    (hname : other.name = fragment.name) (htext : other.text = fragment.text) :
    emittedName front a fragment.name = emittedName (front ++ a :: mid) b fragment.name ↔
      (registryOf front).Shares fragment fragment.name ∧ GivesToNoOther front a fragment.name ∧
        GivesToNoOther (front ++ a :: mid) b fragment.name := by
  have hnames := CallDocument.nodup_ownFragments hparsed.closed
  have hnames' := CallDocument.nodup_ownFragments hparsed'.closed
  have hfirst : emittedName front a fragment.name = fragment.name ↔
      (registryOf front).Shares fragment fragment.name ∧ GivesToNoOther front a fragment.name :=
    FragmentRegistry.apply_renamesFor_self_iff _ a.index hnames hmem hspreads
  have hsecond : emittedName (front ++ a :: mid) b fragment.name = fragment.name ↔
      (registryOf (front ++ a :: mid)).Shares other fragment.name ∧
        GivesToNoOther (front ++ a :: mid) b fragment.name := by
    have hiff := FragmentRegistry.apply_renamesFor_self_iff (registryOf (front ++ a :: mid))
      b.index hnames' hother hspreads'
    rw [hname] at hiff
    exact hiff
  constructor
  · intro hsame
    have hspelled : FragmentRegistry.Spelled b.index fragment.name
        (emittedName front a fragment.name) :=
      hsame ▸ FragmentRegistry.spelled_renamesFor _ b.index b.ownFragments fragment.name
    have hself : emittedName front a fragment.name = fragment.name :=
      FragmentRegistry.name_eq_of_spelled hindices
        (FragmentRegistry.spelled_renamesFor _ a.index a.ownFragments fragment.name) hspelled
    obtain ⟨hshares, hgives⟩ := hfirst.mp hself
    exact ⟨hshares, hgives, (hsecond.mp (hsame.symm.trans hself)).2⟩
  · rintro ⟨hshares, hgives, hgives'⟩
    have hself := hfirst.mpr ⟨hshares, hgives⟩
    have hshares' := FragmentRegistry.shares_of_kept _ a.index hnames hmem hspreads hself
      (fragments_registryOf front mid a) hname htext
    exact hself.trans (hsecond.mpr ⟨hshares', hgives'⟩).symm

/-- Three calls, of which the first and the last define the same, and the one between them
something else. -/
def outerAlike : List String :=
  ["\x7b ...F \x7d fragment F on Query \x7b a \x7d",
    "\x7b ...F \x7d fragment F on Query \x7b b \x7d",
    "\x7b ...F \x7d fragment F on Query \x7b a \x7d"]

theorem callsFrom_outerAlike :
    (match callsFrom 0 outerAlike with
      | .ok [first, _, third] =>
        (match first.ownFragments, third.ownFragments with
          | [fragment], [other] =>
            fragment.name == "F" && other.name == "F" && other.text == fragment.text &&
              Selection.spreadsOfAll fragment.selections == [] &&
              Selection.spreadsOfAll other.selections == [] && first.index != third.index
          | _, _ => false)
      | _ => false) = true := by
  decide +kernel

theorem emittedName_eq_iff_outerAlike :
    ∃ first second third fragment other, callsFrom 0 outerAlike = .ok [first, second, third] ∧
      first.ownFragments = [fragment] ∧ third.ownFragments = [other] ∧
      other.text = fragment.text ∧
      emittedName [] first fragment.name = emittedName [first, second] third fragment.name := by
  have hcheck := callsFrom_outerAlike
  split at hcheck
  · rename_i first second third hcalls
    split at hcheck
    · rename_i fragment other hfirst hthird
      simp only [Bool.and_eq_true, beq_iff_eq, bne_iff_ne] at hcheck
      obtain ⟨⟨⟨⟨⟨hname, hname'⟩, htext⟩, hspreads⟩, hspreads'⟩, hindices⟩ := hcheck
      have hparsed := isParsed_of_callsFrom hcalls
      have hmem : fragment ∈ first.ownFragments := hfirst ▸ List.mem_cons_self
      have hmem' : other ∈ third.ownFragments := hthird ▸ List.mem_cons_self
      refine ⟨first, second, third, fragment, other, hcalls, hfirst, hthird, htext,
        (@emittedName_eq_iff [] [second] first third (hparsed first (by simp))
          (hparsed third (by simp)) hindices fragment other hmem hmem' hspreads hspreads'
          (hname'.trans hname.symm) htext).mpr ⟨?_, ?_, ?_⟩⟩
      · intro existing hexisting
        exact absurd hexisting (by simp [registryOf, prepare, Assoc.get?])
      · intro own hown hne
        rw [hfirst, List.mem_singleton] at hown
        exact absurd (congrArg Fragment.name hown) hne
      · intro own hown hne
        rw [hthird, List.mem_singleton] at hown
        exact absurd (hown ▸ hname'.trans hname.symm) hne
    · simp at hcheck
  · simp at hcheck

/-- Three calls, of which the last two define the same, and the first something else. -/
def lastAlike : List String :=
  ["\x7b ...F \x7d fragment F on Query \x7b a \x7d",
    "\x7b ...F \x7d fragment F on Query \x7b b \x7d",
    "\x7b ...F \x7d fragment F on Query \x7b b \x7d"]

theorem callsFrom_lastAlike :
    (match callsFrom 0 lastAlike with
      | .ok [first, second, third] =>
        (ofCalls [first, second, third]).isOk &&
          (match second.ownFragments, third.ownFragments with
            | [fragment], [other] =>
              other.name == fragment.name && other.text == fragment.text &&
                Selection.spreadsOfAll fragment.selections == [] &&
                Selection.spreadsOfAll other.selections == [] &&
                emittedName [first] second fragment.name !=
                  emittedName [first, second] third fragment.name
            | _, _ => false)
      | _ => false) = true := by
  decide +kernel

/-- **A definition that has been renamed is not shared**: both calls get a name of their own. -/
theorem emittedName_ne_lastAlike :
    ∃ first second third batch fragment other, callsFrom 0 lastAlike = .ok [first, second, third] ∧
      ofCalls [first, second, third] = .ok batch ∧
      fragment ∈ second.ownFragments ∧ other ∈ third.ownFragments ∧
      other.name = fragment.name ∧ other.text = fragment.text ∧
      Selection.spreadsOfAll fragment.selections = [] ∧
      Selection.spreadsOfAll other.selections = [] ∧
      emittedName [first] second fragment.name ≠
        emittedName [first, second] third fragment.name := by
  have hcheck := callsFrom_lastAlike
  split at hcheck
  · rename_i first second third hcalls
    rw [Bool.and_eq_true] at hcheck
    obtain ⟨hmerged, hcheck⟩ := hcheck
    obtain ⟨batch, hbatch⟩ := Outcomes.exists_of_isOk hmerged
    split at hcheck
    · rename_i fragment other hsecond hthird
      simp only [Bool.and_eq_true, beq_iff_eq, bne_iff_ne] at hcheck
      obtain ⟨⟨⟨⟨hname, htext⟩, hspreads⟩, hspreads'⟩, hne⟩ := hcheck
      exact ⟨first, second, third, batch, fragment, other, hcalls, hbatch,
        hsecond ▸ List.mem_cons_self, hthird ▸ List.mem_cons_self, hname, htext, hspreads,
        hspreads', hne⟩
    · simp at hcheck
  · simp at hcheck

end MergedBatch

end QueryBatching
