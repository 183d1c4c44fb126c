/-
Fragments that keep their names.

A registry that has nothing under the names of a call's fragments, or has just these fragments
there, gives each of them its own name, in every round: no other fragment of the call claims it,
and what is registered has the same text.  So a call that comes first registers its fragments as
they are, and further copies of the call register nothing and are prepared like the first.
-/
import QueryBatching.Proofs.Merge.Rounds
import QueryBatching.Proofs.Merge.WithoutVariables

namespace QueryBatching

/-! ### Own names -/

/-- Every fragment is emitted under its own name. -/
def FragmentRenames.AllOwn (renames : FragmentRenames) : Prop :=
  ∀ name, renames.apply name = name

namespace Fragment

variable {renames : FragmentRenames}

theorem renameSpreads_of_allOwn (h : renames.AllOwn) (fragment : Fragment) :
    fragment.renameSpreads renames = fragment := by
  rw [renameSpreads, Selection.mapSpreadsAll_eq_self fun name _ => h name]

theorem emitted_of_allOwn (h : renames.AllOwn) (fragment : Fragment) :
    fragment.emitted renames = fragment := by
  rw [emitted, renameSpreads_of_allOwn h, h]

/-- Fragments under their own names. -/
def named (fragments : List Fragment) : Assoc String Fragment :=
  fragments.map fun fragment => (fragment.name, fragment)

theorem keys_named (fragments : List Fragment) :
    Assoc.keys (named fragments) = fragments.map Fragment.name := by
  rw [Assoc.keys, named, List.map_map]
  rfl

theorem values_named (fragments : List Fragment) : Assoc.values (named fragments) = fragments := by
  rw [Assoc.values, named, List.map_map]
  exact List.map_id fragments

end Fragment

open Fragment (named)

namespace FragmentRegistry

variable {registry : FragmentRegistry} {call : Nat} {fragments : List Fragment}

/-- A fragment whose own name fits is given that name. -/
theorem freeName_of_fits {fragment : Fragment} {claimed : List String}
    (h : registry.fits fragment claimed fragment.name = true) :
    registry.freeName call fragment claimed = fragment.name :=
  if_pos h

theorem allOwn_assignFrom (hnames : (fragments.map Fragment.name).Nodup)
    (hshares : ∀ fragment ∈ fragments, registry.Shares fragment fragment.name)
    {renames assigned : FragmentRenames} (hrenames : renames.AllOwn) (hassigned : assigned.AllOwn)
    {claimed : List String} (hclaimed : ∀ fragment ∈ fragments, fragment.name ∉ claimed) :
    (registry.assignFrom call renames claimed assigned fragments).AllOwn := by
  induction fragments generalizing claimed assigned with
  | nil => exact hassigned
  | cons fragment rest ih =>
      rw [List.map_cons, List.nodup_cons] at hnames
      rw [List.forall_mem_cons] at hshares hclaimed
      have hname : registry.freeName call (fragment.renameSpreads renames) claimed =
          fragment.name := by
        rw [Fragment.renameSpreads_of_allOwn hrenames]
        exact freeName_of_fits (fits_eq_true.mpr ⟨hclaimed.1, hshares.1⟩)
      rw [assignFrom, hname]
      refine ih hnames.2 hshares.2 (fun name => ?_) fun other hother hmem => ?_
      · rw [apply_insert, hassigned name]
        split
        · assumption
        · rfl
      · rcases List.mem_cons.mp hmem with heq | hmem
        · exact hnames.1 (heq ▸ List.mem_map_of_mem hother)
        · exact hclaimed.2 other hother hmem

/-- **Fragments that the registry shares under their own names keep them.** -/
theorem allOwn_renamesFor (hnames : (fragments.map Fragment.name).Nodup)
    (hshares : ∀ fragment ∈ fragments, registry.Shares fragment fragment.name) :
    (registry.renamesFor call fragments).AllOwn :=
  renamesFor_of_assign (fun _ => rfl) fun _ hrenames =>
    allOwn_assignFrom hnames hshares hrenames (fun _ => rfl) fun _ _ => List.not_mem_nil

/-- The registry has nothing yet, or the fragments under their own names. -/
def NewOrNamed (registry : FragmentRegistry) (fragments : List Fragment) : Prop :=
  registry.fragments = [] ∨ registry.fragments = named fragments

/-- A registry that has nothing yet shares the fragments, and so does one that has them. -/
theorem NewOrNamed.shares (h : registry.NewOrNamed fragments)
    (hnames : (fragments.map Fragment.name).Nodup) :
    ∀ fragment ∈ fragments, registry.Shares fragment fragment.name := by
  intro fragment hmem existing hexisting
  rcases h with hnone | hnamed
  · rw [hnone] at hexisting
    simp [Assoc.get?] at hexisting
  · have hentry := Assoc.mem_of_get? hexisting
    rw [hnamed] at hentry
    obtain ⟨other, hother, heq⟩ := List.mem_map.mp hentry
    obtain ⟨hname, rfl⟩ := Prod.mk.inj heq
    rw [List.inj_on_of_nodup_map hnames hother hmem hname]

section Emit

variable {renames : FragmentRenames} (hrenames : renames.AllOwn)

include hrenames

/-- Fragments with new names are registered one after another. -/
theorem fragments_emit_of_new (hnew : (Assoc.keys registry.fragments ++
      fragments.map Fragment.name).Nodup) :
    (fragments.foldl (emit renames) registry).fragments =
      registry.fragments ++ named fragments := by
  induction fragments generalizing registry with
  | nil => exact (List.append_nil _).symm
  | cons fragment rest ih =>
      rw [List.map_cons] at hnew
      have hnot : ¬Assoc.contains registry.fragments fragment.name = true := by
        rw [Assoc.contains_iff_mem_keys]
        exact fun hmem => (List.nodup_append.mp hnew).2.2 _ hmem _ List.mem_cons_self rfl
      have hemit : (registry.emit renames fragment).fragments =
          registry.fragments ++ [(fragment.name, fragment)] := by
        rw [emit, Fragment.emitted_of_allOwn hrenames, Assoc.insertNew, if_neg hnot]
      rw [List.foldl_cons, ih, hemit, List.append_assoc]
      · rfl
      · rw [hemit, Assoc.keys, List.map_append, List.append_assoc]
        exact hnew

/-- Fragments whose names are there are not registered again. -/
theorem fragments_emit_of_known
    (hknown : ∀ fragment ∈ fragments, fragment.name ∈ Assoc.keys registry.fragments) :
    (fragments.foldl (emit renames) registry).fragments = registry.fragments := by
  obtain ⟨⟨added, hadded, hentries⟩, -, -⟩ := extends_emit renames registry fragments
  have hnone : added = [] := by
    rw [List.eq_nil_iff_forall_not_mem]
    intro entry hentry
    obtain ⟨hnew, fragment, hfragment, rfl⟩ := hentries entry hentry
    rw [hrenames] at hnew
    exact hnew (hknown fragment hfragment)
  rw [hadded, hnone, List.append_nil]

end Emit

/-- **The fragments of a call that comes first, or came before, are registered as they are.** -/
theorem fragments_register (hregistry : registry.NewOrNamed fragments)
    (hnames : (fragments.map Fragment.name).Nodup) :
    (registry.register call fragments).1.fragments = named fragments := by
  have hown : (registry.renamesFor call fragments).AllOwn :=
    allOwn_renamesFor hnames (hregistry.shares hnames)
  show (fragments.foldl (emit (registry.renamesFor call fragments)) registry).fragments = _
  rcases hregistry with hnone | hnamed
  · rw [fragments_emit_of_new hown, hnone, List.nil_append]
    rw [hnone]
    exact hnames
  · rw [fragments_emit_of_known hown, hnamed]
    intro fragment hmem
    rw [hnamed, Fragment.keys_named]
    exact List.mem_map_of_mem hmem

end FragmentRegistry

/-! ### Copies of a call -/

/-- The call under another number. -/
def CallDocument.copy (call : CallDocument) (index : Nat) : CallDocument := { call with index }

namespace MergedBatch

variable {call : CallDocument} (hvariables : call.variableNames = []) (hclosed : call.Closed)

include hvariables hclosed

/-- A copy of a call without variables is prepared as it was read, and leaves its fragments in
the registry. -/
theorem prepare_copy {registry : FragmentRegistry}
    (hregistry : registry.NewOrNamed call.fragments) (index : Nat) :
    (call.copy index).ownOperation (registry.renamesOf (call.copy index)) = call.operation ∧
      (registry.after (call.copy index)).fragments = named call.fragments := by
  have hfragments : (call.copy index).ownFragments = call.fragments :=
    @CallDocument.ownFragments_eq (call.copy index) hvariables
  have hown : (registry.renamesOf (call.copy index)).AllOwn := by
    rw [FragmentRegistry.renamesOf, hfragments]
    exact FragmentRegistry.allOwn_renamesFor hclosed.names (hregistry.shares hclosed.names)
  constructor
  · rw [CallDocument.ownOperation,
      @CallDocument.mapVariables_operation (call.copy index) hvariables,
      Selection.mapSpreadsAll_eq_self fun name _ => hown name]
    rfl
  · rw [FragmentRegistry.after, hfragments]
    exact FragmentRegistry.fragments_register hregistry hclosed.names

/-- **All copies of a call without variables are prepared as the call was read.** -/
theorem operations_prepare_copies {registry : FragmentRegistry}
    (hregistry : registry.NewOrNamed call.fragments) (indices : List Nat) :
    (prepare registry (indices.map call.copy)).2 =
      indices.map fun index => (index, call.operation) := by
  induction indices generalizing registry with
  | nil => rfl
  | cons index rest ih =>
      obtain ⟨hoperation, hafter⟩ := prepare_copy hvariables hclosed hregistry index
      rw [List.map_cons, prepare_cons, hoperation, ih (.inr hafter)]
      rfl

/-- The fragments of all copies of a call without variables are registered once. -/
theorem fragments_prepare_copies {registry : FragmentRegistry}
    (hregistry : registry.NewOrNamed call.fragments) {indices : List Nat} (hne : indices ≠ []) :
    (prepare registry (indices.map call.copy)).1.fragments = named call.fragments := by
  induction indices generalizing registry with
  | nil => exact absurd rfl hne
  | cons index rest ih =>
      obtain ⟨-, hafter⟩ := prepare_copy hvariables hclosed hregistry index
      show (prepare (registry.after (call.copy index)) (rest.map call.copy)).1.fragments = _
      cases rest with
      | nil => exact hafter
      | cons next rest => exact ih (.inr hafter) (List.cons_ne_nil _ _)

end MergedBatch

end QueryBatching
