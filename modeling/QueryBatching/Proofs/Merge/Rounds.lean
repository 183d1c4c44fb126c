/-
What the rounds of assigning names come to.

One round gives no two fragments of a call the same name, and gives a fragment a name that the
registry knows only if the text registered under it is the text of the fragment, with the
spreads renamed as in the round before.

The rounds may end before they have settled.  All that is used of the names at the end is that
they are the names after as many rounds as one cares to ask for, up to the number of fragments
and one more, from some names or other: if they have settled, from themselves.
-/
import Mathlib.Logic.Function.Iterate
import QueryBatching.Proofs.Merge.Registry

namespace QueryBatching.FragmentRegistry

variable {registry : FragmentRegistry} {call : Nat} {fragments : List Fragment}
  {renames : FragmentRenames}

/-! ### Free names -/

/-- The registry knows the name for something that has the text of the fragment, if at all. -/
def Shares (registry : FragmentRegistry) (fragment : Fragment) (name : String) : Prop :=
  ∀ existing, Assoc.get? registry.fragments name = some existing →
    existing.text = { fragment with name := name }.text

theorem fits_eq_true {fragment : Fragment} {claimed : List String} {name : String} :
    registry.fits fragment claimed name = true ↔
      name ∉ claimed ∧ registry.Shares fragment name := by
  unfold fits Shares
  rw [Bool.and_eq_true, decide_eq_true_eq]
  refine and_congr_right fun _ => ?_
  cases Assoc.get? registry.fragments name with
  | none => simp
  | some existing => simp

/-- A name that does not fit is claimed or registered. -/
theorem mem_of_not_fits {fragment : Fragment} {claimed : List String} {name : String}
    (h : registry.fits fragment claimed name = false) :
    name ∈ claimed ++ Assoc.keys registry.fragments := by
  by_contra hnot
  rw [List.mem_append, not_or] at hnot
  have hfits : registry.fits fragment claimed name = true := by
    refine fits_eq_true.mpr ⟨hnot.1, fun existing hexisting => ?_⟩
    rw [Assoc.get?_eq_none_iff.mpr hnot.2] at hexisting
    exact absurd hexisting (Option.some_ne_none _).symm
  rw [h] at hfits
  exact Bool.false_ne_true hfits

/-- **The name a fragment is given fits.** -/
theorem fits_freeName (registry : FragmentRegistry) (call : Nat) (fragment : Fragment)
    (claimed : List String) :
    registry.fits fragment claimed (registry.freeName call fragment claimed) = true := by
  unfold freeName
  dsimp only
  split
  · assumption
  · refine @FreshName.fits_search _ _ _ _ (claimed ++ Assoc.keys registry.fragments) ?_
      fun _ _ hbad => mem_of_not_fits hbad
    simp [Assoc.keys]

/-- The name a fragment is given is not claimed yet. -/
theorem freeName_notMem (registry : FragmentRegistry) (call : Nat) (fragment : Fragment)
    (claimed : List String) : registry.freeName call fragment claimed ∉ claimed :=
  (fits_eq_true.mp (fits_freeName registry call fragment claimed)).1

/-- The name a fragment is given is not known for anything else. -/
theorem shares_freeName (registry : FragmentRegistry) (call : Nat) (fragment : Fragment)
    (claimed : List String) :
    registry.Shares fragment (registry.freeName call fragment claimed) :=
  (fits_eq_true.mp (fits_freeName registry call fragment claimed)).2

/-! ### One round -/

theorem apply_assignFrom_of_notMem {claimed : List String} {assigned : FragmentRenames}
    {name : String} (h : name ∉ fragments.map Fragment.name) :
    (registry.assignFrom call renames claimed assigned fragments).apply name =
      assigned.apply name := by
  induction fragments generalizing claimed assigned with
  | nil => rfl
  | cons fragment rest ih =>
      rw [List.map_cons, List.mem_cons, not_or] at h
      rw [assignFrom, ih h.2, apply_insert, if_neg fun heq => h.1 heq.symm]

/-- The names of a round are new to those claimed before, different, and fit. -/
structure Round (registry : FragmentRegistry) (renames : FragmentRenames) (claimed : List String)
    (fragments : List Fragment) (assigned : FragmentRenames) : Prop where
  new : ∀ fragment ∈ fragments, assigned.apply fragment.name ∉ claimed
  distinct : (fragments.map fun fragment => assigned.apply fragment.name).Nodup
  shares : ∀ fragment ∈ fragments,
    registry.Shares (fragment.renameSpreads renames) (assigned.apply fragment.name)

theorem round_assignFrom (hnames : (fragments.map Fragment.name).Nodup) (claimed : List String)
    (assigned : FragmentRenames) :
    Round registry renames claimed fragments
      (registry.assignFrom call renames claimed assigned fragments) := by
  induction fragments generalizing claimed assigned with
  | nil =>
      exact ⟨fun _ h => absurd h List.not_mem_nil, List.nodup_nil,
        fun _ h => absurd h List.not_mem_nil⟩
  | cons fragment rest ih =>
      rw [List.map_cons, List.nodup_cons] at hnames
      rw [assignFrom]
      have hnew := freeName_notMem registry call (fragment.renameSpreads renames) claimed
      have hshares := shares_freeName registry call (fragment.renameSpreads renames) claimed
      generalize registry.freeName call (fragment.renameSpreads renames) claimed = name
        at hnew hshares
      have hrest := ih hnames.2 (name :: claimed) (Assoc.insert assigned fragment.name name)
      have hname : (registry.assignFrom call renames (name :: claimed)
          (Assoc.insert assigned fragment.name name) rest).apply fragment.name = name := by
        rw [apply_assignFrom_of_notMem hnames.1, apply_insert, if_pos rfl]
      generalize registry.assignFrom call renames (name :: claimed)
        (Assoc.insert assigned fragment.name name) rest = result at hname hrest ⊢
      refine ⟨List.forall_mem_cons.mpr ⟨hname ▸ hnew, fun other hother hmem =>
        hrest.new other hother (List.mem_cons_of_mem _ hmem)⟩, ?_,
        List.forall_mem_cons.mpr ⟨hname ▸ hshares, hrest.shares⟩⟩
      rw [List.map_cons, List.nodup_cons, hname]
      refine ⟨fun hmem => ?_, hrest.distinct⟩
      obtain ⟨other, hother, heq⟩ := List.mem_map.mp hmem
      exact hrest.new other hother (heq ▸ List.mem_cons_self)

/-- **What one round gives.** -/
theorem round_assign (registry : FragmentRegistry) (call : Nat)
    (hnames : (fragments.map Fragment.name).Nodup) (renames : FragmentRenames) :
    Round registry renames [] fragments (registry.assign call fragments renames) :=
  round_assignFrom hnames [] []

/-! ### All rounds -/

/-- The rounds end with names that another round would give again, or after all of them. -/
theorem settle_eq (registry : FragmentRegistry) (call : Nat) (fragments : List Fragment)
    (rounds : Nat) (renames : FragmentRenames) :
    registry.assign call fragments (registry.settle call fragments rounds renames) =
        registry.settle call fragments rounds renames ∨
      registry.settle call fragments rounds renames =
        (registry.assign call fragments)^[rounds] renames := by
  induction rounds generalizing renames with
  | zero => exact .inr rfl
  | succ rounds ih =>
      rw [settle]
      split
      · rename_i hfixed
        exact .inl hfixed
      · exact ih (registry.assign call fragments renames)

theorem spelled_iterate (registry : FragmentRegistry) (call : Nat) (fragments : List Fragment)
    {renames : FragmentRenames} (h : ∀ name, Spelled call name (renames.apply name)) (rounds : Nat)
    (name : String) :
    Spelled call name (((registry.assign call fragments)^[rounds] renames).apply name) := by
  cases rounds with
  | zero => exact h name
  | succ rounds =>
      rw [Function.iterate_succ_apply']
      exact spelled_assignFrom registry call _ (fun _ => .inl rfl) name

/-- **The names at the end are those after any number of rounds**, up to the number of fragments
and one more. -/
theorem exists_renamesFor_eq (registry : FragmentRegistry) (call : Nat)
    (fragments : List Fragment) {rounds : Nat} (h : rounds ≤ fragments.length + 1) :
    ∃ start, (∀ name, Spelled call name (start.apply name)) ∧
      registry.renamesFor call fragments = (registry.assign call fragments)^[rounds] start := by
  rcases settle_eq registry call fragments (fragments.length + 1) [] with hfixed | hall
  · exact ⟨_, spelled_renamesFor registry call fragments,
      (Function.iterate_fixed hfixed rounds).symm⟩
  · refine ⟨(registry.assign call fragments)^[fragments.length + 1 - rounds] [],
      spelled_iterate registry call fragments (fun _ => .inl rfl) _, ?_⟩
    rw [← Function.iterate_add_apply, Nat.add_sub_cancel' h]
    exact hall

/-- No two fragments of a call are emitted under the same name. -/
theorem nodup_renamesFor (registry : FragmentRegistry) (call : Nat)
    (hnames : (fragments.map Fragment.name).Nodup) :
    (fragments.map fun fragment =>
      (registry.renamesFor call fragments).apply fragment.name).Nodup := by
  obtain ⟨start, -, heq⟩ := exists_renamesFor_eq registry call fragments
    (Nat.succ_le_succ (Nat.zero_le fragments.length))
  rw [heq]
  exact (round_assign registry call hnames start).distinct

end QueryBatching.FragmentRegistry
