/-
Searches for a fresh name come to an end.

A search is given as many attempts as it can need.  Here are the searches once more as loops that
know of no such number: each goes from one candidate to the next until one fits, and is cut off
only after as many candidates as one cares to wait for.

The candidates of a search are all different, whatever numbers the name ends in already, and
what does not fit is taken, claimed or registered.  So a loop passes over each of the names in
the way at most once, and the candidate after those is the one that the search gives.  The number
behind it is at most one more than there are names in the way.

The names that a round gives to the fragments of a call are claimed one after another, each of
them new to those claimed before.
-/
import Mathlib.Data.Finset.Card
import QueryBatching.Proofs.Document.RoundTrip
import QueryBatching.Proofs.Merge.Rounds

namespace QueryBatching

/-! ### Loops -/

/-- The run of a loop, cut off after `rounds` candidates, comes to an end: it finds the name with
the `tried`-th candidate, one of the first `most`, and finds nothing before. -/
def EndsWithin (run : (rounds : Nat) → Option String) (most : Nat) (found : String) : Prop :=
  ∃ tried ≤ most, ∀ rounds, run rounds = if tried ≤ rounds then some found else none

namespace FreshName

/-- The loop of a search: it looks at a candidate, then at the base with the number behind it and
with every number after, until one fits. -/
def seek (fits : String → Bool) (base : String) :
    (rounds : Nat) → (candidate : String) → (number : Nat) → Option String
  | 0, _, _ => none
  | rounds + 1, candidate, number =>
    if fits candidate then some candidate
    else seek fits base rounds (base ++ "_" ++ toString number) (number + 1)

/-- The loop that finds a key among those that are not taken. -/
def findWithin (base : String) (taken : List String) (rounds : Nat) : Option String :=
  seek (fun name => name ∉ taken) base rounds base 2

variable {fits : String → Bool} {base : String}

/-- A loop that has come to a spelling ends with the first that fits from there on. -/
theorem seek_spelling {start count : Nat} (hfits : fits (spelling base (start + count)) = true)
    (hpassed : ∀ other < count, fits (spelling base (start + other)) = false) (rounds : Nat) :
    seek fits base rounds (spelling base start) (start + 2) =
      if count + 1 ≤ rounds then some (spelling base (start + count)) else none := by
  induction rounds generalizing start count with
  | zero => rfl
  | succ rounds ih =>
      rw [seek]
      cases count with
      | zero =>
          have hfirst : fits (spelling base start) = true := hfits
          rw [if_pos hfirst, if_pos (Nat.succ_le_succ (Nat.zero_le rounds))]
          rfl
      | succ count =>
          have hfirst : fits (spelling base start) = false := hpassed 0 (Nat.succ_pos count)
          have hshift : ∀ other, start + (other + 1) = start + 1 + other := by omega
          rw [hshift count] at hfits ⊢
          have hrest := ih hfits fun other hlt => by
            rw [← hshift]
            exact hpassed (other + 1) (Nat.succ_lt_succ hlt)
          rw [if_neg (by simp [hfirst])]
          exact hrest.trans (if_congr Nat.succ_le_succ_iff.symm rfl rfl)

/-- The loop ends with the first spelling that fits. -/
theorem seek_base {count : Nat} (hfits : fits (spelling base count) = true)
    (hpassed : ∀ other < count, fits (spelling base other) = false) (rounds : Nat) :
    seek fits base rounds base 2 =
      if count + 1 ≤ rounds then some (spelling base count) else none := by
  have hloop := @seek_spelling fits base 0 count
  simp only [Nat.zero_add] at hloop
  exact hloop hfits hpassed rounds

/-- No more spellings are passed over than there are names in the way. -/
theorem le_card_of_passed {count : Nat} {inTheWay : Finset String}
    (h : ∀ other < count, spelling base other ∈ inTheWay) : count ≤ inTheWay.card := by
  have hcard := @Finset.card_le_card_of_injOn _ _ (Finset.range count) inTheWay (spelling base)
    (fun other hother => h other (Finset.mem_range.mp hother))
    fun _ _ _ _ hsame => spelling_injective hsame
  rwa [Finset.card_range] at hcard

/-- **The search for a key ends** after at most one more candidate than there are keys. -/
theorem endsWithin_find (base : String) (taken : List String) :
    EndsWithin (findWithin base taken) (taken.toFinset.card + 1) (find base taken) := by
  obtain ⟨count, hcount, hpassed⟩ := exists_find_first base taken
  have hfree := find_notMem base taken
  rw [hcount] at hfree ⊢
  refine ⟨count + 1, Nat.succ_le_succ (le_card_of_passed fun other hlt =>
    List.mem_toFinset.mpr (hpassed other hlt)), fun rounds => ?_⟩
  exact seek_base (decide_eq_true hfree) (fun other hlt => by simpa using hpassed other hlt) rounds

end FreshName

/-! ### The name of one fragment -/

/-- The fragment has the body that another has under the name: the same text, and, where both can be
written down, the same condition, directives and selections. -/
structure Fragment.HasBody (existing fragment : Fragment) (name : String) : Prop where
  text : existing.text = { fragment with name := name }.text
  parts : ∀ room room', existing.Legal room → fragment.Legal room' →
    existing.condition = fragment.condition ∧ existing.directives = fragment.directives ∧
      existing.selections = fragment.selections

namespace FragmentRegistry

variable {registry : FragmentRegistry} {call : Nat} {fragment : Fragment}
  {claimed : List String}

/-- The loop that finds the name of a fragment: it looks at the fragment's own name first. -/
def freeNameWithin (registry : FragmentRegistry) (call : Nat) (fragment : Fragment)
    (claimed : List String) : (rounds : Nat) → Option String
  | 0 => none
  | rounds + 1 =>
    let fits := registry.fits fragment claimed
    let base := fragment.name ++ "_" ++ toString call
    if fits fragment.name then some fragment.name else FreshName.seek fits base rounds base 2

/-- The own name is in the way when the spellings are looked at, and is none of them. -/
theorem passed_lt {count : Nat} (hown : registry.fits fragment claimed fragment.name = false)
    (hpassed : ∀ other < count, registry.fits fragment claimed
      (FreshName.spelling (fragment.name ++ "_" ++ toString call) other) = false) :
    count < claimed.toFinset.card + registry.fragments.length := by
  have hway : ∀ name, registry.fits fragment claimed name = false →
      name ∈ claimed.toFinset ∪ (Assoc.keys registry.fragments).toFinset := by
    intro name hno
    rw [← List.toFinset_append]
    exact List.mem_toFinset.mpr (mem_of_not_fits hno)
  have hspellings : count ≤ ((claimed.toFinset ∪
      (Assoc.keys registry.fragments).toFinset).erase fragment.name).card :=
    FreshName.le_card_of_passed fun other hlt => Finset.mem_erase.mpr
      ⟨(FreshName.ne_spelling fragment.name call other).symm, hway _ (hpassed other hlt)⟩
  have hlength : (Assoc.keys registry.fragments).length = registry.fragments.length :=
    List.length_map _
  calc count
      ≤ ((claimed.toFinset ∪ (Assoc.keys registry.fragments).toFinset).erase fragment.name).card :=
        hspellings
    _ < (claimed.toFinset ∪ (Assoc.keys registry.fragments).toFinset).card :=
        Finset.card_erase_lt_of_mem (hway fragment.name hown)
    _ ≤ claimed.toFinset.card + (Assoc.keys registry.fragments).toFinset.card :=
        Finset.card_union_le _ _
    _ ≤ claimed.toFinset.card + registry.fragments.length :=
        Nat.add_le_add_left (hlength ▸ List.toFinset_card_le _) _

/-- **The search for a fragment's name ends** after at most one more candidate than there are names
claimed and fragments registered. -/
theorem endsWithin_freeName (registry : FragmentRegistry) (call : Nat) (fragment : Fragment)
    (claimed : List String) :
    EndsWithin (registry.freeNameWithin call fragment claimed)
      (claimed.toFinset.card + registry.fragments.length + 1)
      (registry.freeName call fragment claimed) := by
  have hfound := fits_freeName registry call fragment claimed
  unfold freeName at hfound ⊢
  dsimp only at hfound ⊢
  split
  · rename_i hown
    refine ⟨1, Nat.le_add_left 1 _, fun rounds => ?_⟩
    cases rounds with
    | zero => rfl
    | succ rounds => rw [freeNameWithin, if_pos hown, if_pos (Nat.le_add_left 1 rounds)]
  · rename_i hown
    rw [if_neg hown] at hfound
    obtain ⟨count, -, hcount, hpassed⟩ := FreshName.exists_search_first
      (registry.fits fragment claimed) (fragment.name ++ "_" ++ toString call)
      (claimed.length + registry.fragments.length) 0
    rw [hcount] at hfound ⊢
    have hbefore := fun other hlt => hpassed other (Nat.zero_le other) hlt
    have hless := passed_lt (Bool.eq_false_iff.mpr hown) hbefore
    refine ⟨count + 2, Nat.succ_le_succ hless, fun rounds => ?_⟩
    cases rounds with
    | zero => rfl
    | succ rounds =>
        rw [freeNameWithin, if_neg hown]
        exact (FreshName.seek_base hfound hbefore rounds).trans
          (if_congr Nat.succ_le_succ_iff.symm rfl rfl)

/-- **What is registered under the name of a fragment has its body.** -/
theorem hasBody_of_freeName {existing : Fragment}
    (h : Assoc.get? registry.fragments (registry.freeName call fragment claimed) = some existing) :
    existing.HasBody fragment (registry.freeName call fragment claimed) := by
  have hspelled := spelled_freeName registry call fragment claimed
  have htext := shares_freeName registry call fragment claimed existing h
  exact ⟨htext, fun room room' hexisting hfragment =>
    Fragment.body_eq_of_text_eq hexisting hfragment (hspelled.isFragmentName hfragment.name)
      htext⟩

end FragmentRegistry

/-! ### The names of a call -/

/-- No two names are assigned the same. -/
def FragmentRenames.Injective (renames : FragmentRenames) : Prop :=
  ∀ own other name, Assoc.get? renames own = some name →
    Assoc.get? renames other = some name → own = other

/-- Every fragment is assigned a name, and no two fragments of different names the same. -/
structure FragmentRenames.Apart (renames : FragmentRenames) (fragments : List Fragment) :
    Prop where
  given : ∀ fragment ∈ fragments, fragment.name ∈ Assoc.keys renames
  injective : renames.Injective

namespace FragmentRegistry

variable {registry : FragmentRegistry} {call : Nat} {claimed : List String}
  {renames assigned : FragmentRenames} {fragments : List Fragment}

/-- The names that have been assigned are claimed, and are different. -/
structure Claimed (claimed : List String) (assigned : FragmentRenames) : Prop where
  mem : ∀ own name, Assoc.get? assigned own = some name → name ∈ claimed
  injective : assigned.Injective

theorem claimed_nil : Claimed [] [] where
  mem := fun _ _ h => absurd h (Option.some_ne_none _).symm
  injective := fun _ _ _ h => absurd h (Option.some_ne_none _).symm

/-- A name that is new is assigned and claimed next. -/
theorem Claimed.insert (h : Claimed claimed assigned) {name : String} (hnew : name ∉ claimed)
    (own : String) : Claimed (name :: claimed) (Assoc.insert assigned own name) where
  mem := by
    intro other found hfound
    rw [Assoc.get?_insert] at hfound
    split at hfound
    · exact Option.some.inj hfound ▸ List.mem_cons_self
    · exact List.mem_cons_of_mem _ (h.mem other found hfound)
  injective := by
    intro first second found hfirst hsecond
    rw [Assoc.get?_insert] at hfirst hsecond
    split at hfirst
    · rename_i hown
      obtain rfl := Option.some.inj hfirst
      split at hsecond
      · rename_i hown'
        exact hown.symm.trans hown'
      · exact absurd (h.mem second _ hsecond) hnew
    · split at hsecond
      · obtain rfl := Option.some.inj hsecond
        exact absurd (h.mem first _ hfirst) hnew
      · exact h.injective first second found hfirst hsecond

/-- However many names are assigned after, those that have been assigned are different. -/
theorem Claimed.injective_assignFrom (h : Claimed claimed assigned) :
    (registry.assignFrom call renames claimed assigned fragments).Injective := by
  induction fragments generalizing claimed assigned with
  | nil => exact h.injective
  | cons fragment rest ih =>
      rw [assignFrom]
      exact ih (h.insert (freeName_notMem registry call _ claimed) fragment.name)

/-- What has been assigned a name keeps one, and every fragment after is assigned one. -/
theorem mem_keys_assignFrom {own : String}
    (h : own ∈ Assoc.keys assigned ++ fragments.map Fragment.name) :
    own ∈ Assoc.keys (registry.assignFrom call renames claimed assigned fragments) := by
  induction fragments generalizing claimed assigned with
  | nil => simpa [assignFrom] using h
  | cons fragment rest ih =>
      rw [assignFrom]
      refine ih ?_
      rw [Assoc.keys_insert]
      split
      · rename_i hkey
        rw [List.map_cons, List.mem_append, List.mem_cons] at h
        rcases h with hmem | rfl | hmem
        · exact List.mem_append_left _ hmem
        · exact List.mem_append_left _ hkey
        · exact List.mem_append_right _ hmem
      · rwa [List.map_cons, List.append_cons] at h

/-- **A round gives every fragment of a call a name of its own.** -/
theorem apart_assign (registry : FragmentRegistry) (call : Nat) (fragments : List Fragment)
    (renames : FragmentRenames) : (registry.assign call fragments renames).Apart fragments where
  given := fun _ hmem => mem_keys_assignFrom (List.mem_append_right _ (List.mem_map_of_mem hmem))
  injective := claimed_nil.injective_assignFrom

end FragmentRegistry

/-! ### Both searches -/

/--
**Fresh names are found, and are fresh.**  The search for a response key ends after at most one
more candidate than there are keys taken, with one that is not among them.  The search for the
name of a fragment ends after at most one more candidate than there are names claimed and
fragments registered, its own name being the first, with one that is not claimed, and under which
nothing is registered or something with its body.  So a round gives every fragment of a call a
name, and different fragments different ones.
-/
theorem searches_end_fresh (name : String) (call : Nat) (taken : List String)
    (registry : FragmentRegistry) (fragment : Fragment) (claimed : List String)
    (fragments : List Fragment) (renames : FragmentRenames) :
    (EndsWithin (FreshName.findWithin (name ++ "_" ++ toString call) taken)
        (taken.toFinset.card + 1) (FreshName.find (name ++ "_" ++ toString call) taken) ∧
      FreshName.find (name ++ "_" ++ toString call) taken ∉ taken) ∧
    (EndsWithin (registry.freeNameWithin call fragment claimed)
        (claimed.toFinset.card + registry.fragments.length + 1)
        (registry.freeName call fragment claimed) ∧
      registry.freeName call fragment claimed ∉ claimed ∧
      ∀ existing,
        Assoc.get? registry.fragments (registry.freeName call fragment claimed) = some existing →
        existing.HasBody fragment (registry.freeName call fragment claimed)) ∧
    (registry.assign call fragments renames).Apart fragments :=
  ⟨⟨FreshName.endsWithin_find _ taken, FreshName.find_notMem _ taken⟩,
    ⟨registry.endsWithin_freeName call fragment claimed,
      registry.freeName_notMem call fragment claimed,
      fun _ hexisting => FragmentRegistry.hasBody_of_freeName hexisting⟩,
    registry.apart_assign call fragments renames⟩

/-- A fragment that selects one field. -/
def Fragment.selecting (name field : String) : Fragment :=
  ⟨name, "T", [], [.field ⟨none, field, [], []⟩ none], {}⟩

/-- A registry with two fragments, of which the second had to take a number. -/
def FragmentRegistry.numbered : FragmentRegistry where
  fragments := [("F", .selecting "F" "a"), ("F_1_2", .selecting "F_1_2" "b")]

/-- Names that end in numbers are passed over, and what had to take one before is found again. -/
theorem searches_end_fresh_numbered :
    EndsWithin (FreshName.findWithin "a_1_1" ["a_1", "a_1_1", "a_1_1_2"]) 4 "a_1_1_3" ∧
    EndsWithin (FragmentRegistry.numbered.freeNameWithin 1 (.selecting "F" "b") ["F_1"]) 4
      "F_1_2" ∧
    (Fragment.selecting "F_1_2" "b").HasBody (.selecting "F" "b") "F_1_2" ∧
    FragmentRenames.Apart [("F_1", "F_1"), ("F", "F_1_2")]
      [.selecting "F_1" "a", .selecting "F" "b"] := by
  have hkey : FreshName.find "a_1_1" ["a_1", "a_1_1", "a_1_1_2"] = "a_1_1_3" := by decide +kernel
  have hname : FragmentRegistry.numbered.freeName 1 (.selecting "F" "b") ["F_1"] = "F_1_2" := by
    decide +kernel
  have hround : FragmentRegistry.numbered.assign 1
      [.selecting "F_1" "a", .selecting "F" "b"] [] = [("F_1", "F_1"), ("F", "F_1_2")] := by
    decide +kernel
  obtain ⟨⟨hfind, -⟩, ⟨hfree, -, hbody⟩, hapart⟩ := searches_end_fresh "a_1" 1
    ["a_1", "a_1_1", "a_1_1_2"] FragmentRegistry.numbered (.selecting "F" "b") ["F_1"]
    [.selecting "F_1" "a", .selecting "F" "b"] []
  rw [hname] at hfree hbody
  rw [hround] at hapart
  have hbase : "a_1" ++ "_" ++ toString 1 = "a_1_1" := by decide +kernel
  rw [hbase, hkey] at hfind
  exact ⟨hfind, hfree, hbody _ rfl, hapart⟩

end QueryBatching
