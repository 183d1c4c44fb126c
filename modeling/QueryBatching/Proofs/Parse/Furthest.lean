/-
Which failure a parse reports.

A parse carries one failure along and merges into it whatever else it meets, and the combinators
group these merges as their parts happen to be combined: a repetition from the left, a sequence
pair by pair, alternatives one after another.  None of that matters.  `Failure.furthest` is
associative and a missing failure is its identity, so the failures alone, in the order in which they
are met, decide: what is reported stands at the greatest position among them and expects what those
at that position expect, in order of first appearance.

The order in which two failures are merged is another matter.  A merge keeps the first list as it is
and adds from the second what is not there yet, so a kind that a list repeats stays repeated if the
list comes first and is listed once if it comes second.  Only with lists that repeat no kind, or
repeat the same kinds equally often, does it come down to the order of the kinds.
-/
import Mathlib.Data.List.Perm.Basic
import QueryBatching.Proofs.FirstAppearances
import QueryBatching.Proofs.Parse.Failures

namespace QueryBatching.Parse

open Token (Kind)

namespace Failure

/-! ### Expected kinds together -/

theorem addKind_of_mem {kinds : List Kind} {kind : Kind} (h : kind ∈ kinds) :
    addKind kinds kind = kinds :=
  if_pos h

theorem addKind_of_not_mem {kinds : List Kind} {kind : Kind} (h : kind ∉ kinds) :
    addKind kinds kind = kinds ++ [kind] :=
  if_neg h

/-- Kinds can be added to a list one after another, or first be put together among themselves. -/
theorem foldl_addKind_assoc (first second third : List Kind) :
    third.foldl addKind (second.foldl addKind first) =
      (third.foldl addKind second).foldl addKind first := by
  induction third using List.reverseRecOn with
  | nil => rfl
  | append_singleton front last ih =>
      simp only [List.foldl_append, List.foldl_cons, List.foldl_nil, ih]
      by_cases hold : last ∈ front.foldl addKind second
      · -- What is in the second list by now is in the whole of the two as well.
        rw [addKind_of_mem hold, addKind_of_mem (mem_foldl_addKind.mpr (.inr hold))]
      · rw [addKind_of_not_mem hold, List.foldl_append, List.foldl_cons, List.foldl_nil]

theorem foldl_addKind_nil (kinds : List Kind) : kinds.foldl addKind [] = kinds.eraseDups := by
  induction kinds using List.reverseRecOn with
  | nil => rfl
  | append_singleton front last ih =>
      rw [List.foldl_append, List.foldl_cons, List.foldl_nil, ih, eraseDups_concat]
      by_cases hold : last ∈ front
      · rw [if_pos hold, addKind_of_mem (List.mem_eraseDups.mpr hold)]
      · rw [if_neg hold, addKind_of_not_mem (fun hmem => hold (List.mem_eraseDups.mp hmem))]

/-- Kinds put together behind a list that repeats none are those of both, by first appearance. -/
theorem foldl_addKind_of_nodup {kinds : List Kind} (h : kinds.Nodup) (more : List Kind) :
    more.eraseDups.foldl addKind kinds = (kinds ++ more).eraseDups := by
  rw [← foldl_addKind_nil more, ← foldl_addKind_assoc, List.foldl_nil, ← foldl_addKind_nil,
    List.foldl_append, foldl_addKind_nil kinds, eraseDups_of_nodup h]

/-- What a list repeats stays repeated; what comes new is listed once. -/
theorem count_foldl_addKind (kinds more : List Kind) (kind : Kind) :
    (more.foldl addKind kinds).count kind = max (kinds.count kind) (min 1 (more.count kind)) := by
  induction more using List.reverseRecOn with
  | nil => simp
  | append_singleton front last ih =>
      rw [List.foldl_append, List.foldl_cons, List.foldl_nil, List.count_append]
      by_cases hold : last ∈ front.foldl addKind kinds
      · rw [addKind_of_mem hold, ih]
        by_cases heq : last = kind
        · -- The kind is there already, so that it comes once more makes no difference.
          have hpos := List.count_pos_iff.mpr (heq ▸ hold)
          rw [ih] at hpos
          simp only [heq, List.count_singleton_self]
          omega
        · simp [heq]
      · rw [addKind_of_not_mem hold, List.count_append, ih]
        by_cases heq : last = kind
        · have hzero := List.count_eq_zero.mpr (heq ▸ hold)
          rw [ih] at hzero
          simp only [heq, List.count_singleton_self]
          omega
        · simp [heq]

/-! ### Merging -/

theorem merge_of_lt {a b : Failure} (h : a.index < b.index) : a.merge b = b := if_pos h

theorem merge_of_gt {a b : Failure} (h : b.index < a.index) : a.merge b = a := by
  unfold merge
  rw [if_neg (by omega), if_neg (by omega)]

theorem merge_of_eq {a b : Failure} (h : a.index = b.index) :
    a.merge b = ⟨a.index, b.expected.foldl addKind a.expected⟩ := by
  unfold merge
  rw [if_neg (by omega), if_pos h]

theorem index_merge (a b : Failure) : (a.merge b).index = max a.index b.index := by
  rcases Nat.lt_trichotomy a.index b.index with h | h | h
  · rw [merge_of_lt h]
    omega
  · rw [merge_of_eq h]
    show a.index = max a.index b.index
    omega
  · rw [merge_of_gt h]
    omega

theorem merge_assoc (a b c : Failure) : (a.merge b).merge c = a.merge (b.merge c) := by
  rcases Nat.lt_trichotomy a.index b.index with hab | hab | hab
  · -- The first one is behind the second, and so behind whatever the second is merged with.
    have hlt : a.index < (b.merge c).index := by
      rw [index_merge]
      omega
    rw [merge_of_lt hab, merge_of_lt hlt]
  · rcases Nat.lt_trichotomy b.index c.index with hbc | hbc | hbc
    · have hac : a.index < c.index := by omega
      have hless : (a.merge b).index < c.index := by
        rw [index_merge]
        omega
      rw [merge_of_lt hbc, merge_of_lt hless, merge_of_lt hac]
    · rw [merge_of_eq hab, merge_of_eq hbc, merge_of_eq (by show a.index = c.index; omega),
        merge_of_eq (by show a.index = b.index; exact hab)]
      simp only [foldl_addKind_assoc]
    · have hless : c.index < (a.merge b).index := by
        rw [index_merge]
        omega
      rw [merge_of_gt hbc, merge_of_gt hless]
  · rw [merge_of_gt hab]
    rcases Nat.lt_trichotomy b.index c.index with hbc | hbc | hbc
    · rw [merge_of_lt hbc]
    · have hless : (b.merge c).index < a.index := by
        rw [index_merge]
        omega
      rw [merge_of_gt hless, merge_of_gt (by omega)]
    · rw [merge_of_gt hbc, merge_of_gt hab, merge_of_gt (by omega)]

/-! ### The furthest of several -/

@[simp] theorem furthest_none_left (a? : Option Failure) : furthest none a? = a? := by
  cases a? <;> rfl

@[simp] theorem furthest_none_right (a? : Option Failure) : furthest a? none = a? := by
  cases a? <;> rfl

theorem furthest_assoc (a? b? c? : Option Failure) :
    furthest (furthest a? b?) c? = furthest a? (furthest b? c?) := by
  cases a? with
  | none => simp
  | some a =>
      cases b? with
      | none => simp
      | some b =>
          cases c? with
          | none => simp
          | some c => exact congrArg some (merge_assoc a b c)

theorem mergedWith_eq_furthest (a : Failure) (b? : Option Failure) :
    some (a.mergedWith b?) = furthest (some a) b? := by
  cases b? <;> rfl

/-- The failure at the greatest position, expecting each kind that is expected there once, in order
of first appearance. -/
def together (failures : List Failure) : Option Failure :=
  (failures.map index).max?.map fun position =>
    ⟨position, ((failures.filter fun failure => failure.index = position).flatMap
      expected).eraseDups⟩

theorem index_foldr_furthest (failures : List Failure) :
    ((failures.map some).foldr furthest none).map index = (failures.map index).max? := by
  induction failures with
  | nil => rfl
  | cons first rest ih =>
      rw [List.map_cons, List.foldr_cons, List.map_cons, List.max?_cons, ← ih]
      cases (rest.map some).foldr furthest none with
      | none => rfl
      | some later => exact congrArg some (index_merge first later)

theorem foldr_furthest_eq_together {failures : List Failure}
    (h : ∀ failure ∈ failures, failure.expected.Nodup) :
    (failures.map some).foldr furthest none = together failures := by
  induction failures with
  | nil => rfl
  | cons first rest ih =>
      have hrest := ih fun failure hmem => h failure (by simp [hmem])
      have hfirst := h first (by simp)
      rw [List.map_cons, List.foldr_cons, hrest]
      unfold together
      rw [List.map_cons, List.max?_cons]
      cases hmax : (rest.map index).max? with
      | none =>
          have hnil : rest = [] := by simpa using hmax
          simp [hnil, eraseDups_of_nodup hfirst]
      | some greatest =>
          have hle : ∀ failure ∈ rest, failure.index ≤ greatest := by
            intro failure hmem
            exact (List.max?_eq_some_iff.mp hmax).2 _ (List.mem_map_of_mem hmem)
          simp only [Option.map_some, Option.elim_some, furthest]
          rcases Nat.lt_trichotomy first.index greatest with hlt | heq | hgt
          · rw [merge_of_lt hlt, Nat.max_eq_right (Nat.le_of_lt hlt),
              List.filter_cons_of_neg (by simpa using Nat.ne_of_lt hlt)]
          · rw [merge_of_eq heq, heq, Nat.max_self, List.filter_cons_of_pos (by simpa using heq),
              List.flatMap_cons, foldl_addKind_of_nodup hfirst]
          · have hnone : (rest.filter fun failure => failure.index = first.index) = [] := by
              refine List.filter_eq_nil_iff.mpr fun failure hmem => ?_
              have := hle failure hmem
              simp only [decide_eq_true_eq]
              omega
            rw [merge_of_gt hgt, Nat.max_eq_left (Nat.le_of_lt hgt),
              List.filter_cons_of_pos (by simp), hnone]
            simp [eraseDups_of_nodup hfirst]

/-! ### In whatever order they are put together -/

/-- A way to put failures together two at a time, where some may be missing. -/
inductive Grouping where
  | one (failure? : Option Failure)
  | join (first second : Grouping)

namespace Grouping

/-- The failures there are, in order. -/
def failures : Grouping → List Failure
  | .one failure? => failure?.toList
  | .join first second => first.failures ++ second.failures

/-- What they are together. -/
def fold : Grouping → Option Failure
  | .one failure? => failure?
  | .join first second => furthest first.fold second.fold

theorem foldr_furthest_append (failures : List Failure) (later? : Option Failure) :
    (failures.map some).foldr furthest later? =
      furthest ((failures.map some).foldr furthest none) later? := by
  induction failures with
  | nil => simp
  | cons first rest ih => rw [List.map_cons, List.foldr_cons, List.foldr_cons, ih, furthest_assoc]

/-- The grouping makes no difference. -/
theorem fold_eq_foldr (grouping : Grouping) :
    grouping.fold = (grouping.failures.map some).foldr furthest none := by
  induction grouping with
  | one failure? => cases failure? <;> rfl
  | join first second ih ih' =>
      rw [fold, failures, List.map_append, List.foldr_append, foldr_furthest_append, ← ih, ← ih']

end Grouping

/-! ### Two failures in the other order -/

/-- The same failure, or none in both cases, apart from the order of the expected kinds. -/
def Reordered : Option Failure → Option Failure → Prop :=
  Option.Rel fun a b => a.index = b.index ∧ a.expected.Perm b.expected

/-- The same failure, or none in both cases, apart from how often and in which order the expected
kinds are listed. -/
def ExpectAlike : Option Failure → Option Failure → Prop :=
  Option.Rel fun a b => a.index = b.index ∧ ∀ kind, kind ∈ a.expected ↔ kind ∈ b.expected

theorem Reordered.refl (a? : Option Failure) : Reordered a? a? := by
  cases a? with
  | none => exact .none
  | some a => exact .some ⟨rfl, .refl _⟩

theorem ExpectAlike.refl (a? : Option Failure) : ExpectAlike a? a? := by
  cases a? with
  | none => exact .none
  | some a => exact .some ⟨rfl, fun _ => Iff.rfl⟩

/-- A kind is listed as often as in the first list, or once if it is only in the second. -/
theorem count_merge {a b : Failure} (h : a.index = b.index) (kind : Kind) :
    (a.merge b).expected.count kind =
      max (a.expected.count kind) (min 1 (b.expected.count kind)) := by
  rw [merge_of_eq h]
  exact count_foldl_addKind _ _ kind

/-- Failures at different positions can change places. -/
theorem merge_comm_of_ne {a b : Failure} (h : a.index ≠ b.index) : a.merge b = b.merge a := by
  rcases Nat.lt_or_gt_of_ne h with hless | hless
  · rw [merge_of_lt hless, merge_of_gt hless]
  · rw [merge_of_gt hless, merge_of_lt hless]

theorem expectAlike_furthest_swap (a? b? : Option Failure) :
    ExpectAlike (furthest a? b?) (furthest b? a?) := by
  cases a? with
  | none => simpa using ExpectAlike.refl b?
  | some a =>
      cases b? with
      | none => simpa using ExpectAlike.refl (some a)
      | some b =>
          refine .some ⟨by rw [index_merge, index_merge, Nat.max_comm], fun kind => ?_⟩
          by_cases h : a.index = b.index
          · rw [merge_of_eq h, merge_of_eq h.symm, mem_foldl_addKind, mem_foldl_addKind, or_comm]
          · rw [merge_comm_of_ne h]

theorem reordered_furthest_swap_iff (a? b? : Option Failure) :
    Reordered (furthest a? b?) (furthest b? a?) ↔
      ∀ a ∈ a?, ∀ b ∈ b?, a.index = b.index →
        ∀ kind, max 1 (a.expected.count kind) = max 1 (b.expected.count kind) := by
  cases a? with
  | none => simpa using Reordered.refl b?
  | some a =>
      cases b? with
      | none => simpa using Reordered.refl (some a)
      | some b =>
          simp only [Option.mem_some_iff, forall_eq']
          by_cases h : a.index = b.index
          · have hperm : Reordered (furthest (some a) (some b)) (furthest (some b) (some a)) ↔
                (a.merge b).expected.Perm (b.merge a).expected := by
              constructor
              · rintro ⟨-, hperm⟩
                exact hperm
              · intro hperm
                exact .some ⟨by rw [index_merge, index_merge, Nat.max_comm], hperm⟩
            rw [hperm, List.perm_iff_count]
            constructor
            · intro hcount _ kind
              have := hcount kind
              rw [count_merge h, count_merge h.symm] at this
              omega
            · intro hcount kind
              have := hcount h kind
              rw [count_merge h, count_merge h.symm]
              omega
          · have hsame : furthest (some a) (some b) = furthest (some b) (some a) :=
              congrArg some (merge_comm_of_ne h)
            rw [hsame]
            exact ⟨fun _ heq => absurd heq h, fun _ => .refl _⟩

/-- Lists that repeat no kind repeat the same kinds. -/
theorem reordered_furthest_swap_of_nodup {a? b? : Option Failure}
    (ha : ∀ a ∈ a?, a.expected.Nodup) (hb : ∀ b ∈ b?, b.expected.Nodup) :
    Reordered (furthest a? b?) (furthest b? a?) := by
  refine (reordered_furthest_swap_iff a? b?).mpr fun a hmem b hmem' _ kind => ?_
  have hle := List.nodup_iff_count_le_one.mp (ha a hmem) kind
  have hle' := List.nodup_iff_count_le_one.mp (hb b hmem') kind
  omega

/-! ### The laws -/

/--
**Failures form a monoid, and which one several amount to can be read off them.**  However they are
grouped, the greatest position counts, and unless a list repeats a kind the kinds expected there do,
each once and in order of first appearance.  In the other order two failures are at the same
position and expect the same kinds; only the order of these differs exactly if no kind is repeated
more often in the one than in the other.  For a kind that the first list repeats stays repeated, and
one that only the second repeats is listed once.
-/
theorem furthest_laws :
    (∀ a? b? c? : Option Failure,
      furthest (furthest a? b?) c? = furthest a? (furthest b? c?)) ∧
    (∀ a? : Option Failure, furthest none a? = a? ∧ furthest a? none = a?) ∧
    (∀ grouping : Grouping,
      grouping.fold.map index = (grouping.failures.map index).max? ∧
      ((∀ failure ∈ grouping.failures, failure.expected.Nodup) →
        grouping.fold = together grouping.failures)) ∧
    (∀ a? b? : Option Failure,
      ExpectAlike (furthest a? b?) (furthest b? a?) ∧
      (Reordered (furthest a? b?) (furthest b? a?) ↔
        ∀ a ∈ a?, ∀ b ∈ b?, a.index = b.index →
          ∀ kind, max 1 (a.expected.count kind) = max 1 (b.expected.count kind)) ∧
      ((∀ a ∈ a?, a.expected.Nodup) → (∀ b ∈ b?, b.expected.Nodup) →
        Reordered (furthest a? b?) (furthest b? a?))) ∧
    (∀ a b : Failure, a.index = b.index → ∀ kind, (a.merge b).expected.count kind =
      max (a.expected.count kind) (min 1 (b.expected.count kind))) ∧
    ∀ (a : Failure) (b? : Option Failure), some (a.mergedWith b?) = furthest (some a) b? := by
  refine ⟨furthest_assoc, fun a? => ⟨furthest_none_left a?, furthest_none_right a?⟩,
    fun grouping => ⟨?_, ?_⟩, fun a? b? => ⟨expectAlike_furthest_swap a? b?,
      reordered_furthest_swap_iff a? b?, reordered_furthest_swap_of_nodup⟩,
    fun _ _ h kind => count_merge h kind, mergedWith_eq_furthest⟩
  · rw [grouping.fold_eq_foldr, index_foldr_furthest]
  · intro h
    rw [grouping.fold_eq_foldr, foldr_furthest_eq_together h]

/-- Four failures, two of them at the furthest position, and one missing. -/
def scattered : Grouping :=
  .join (.join (.one (some ⟨3, [.name, .colon]⟩)) (.one none))
    (.join (.one (some ⟨1, [.bang]⟩)) (.join (.one (some ⟨3, [.atSign, .name]⟩))
      (.one (some ⟨2, [.dollar]⟩))))

theorem furthest_laws_scattered :
    (∀ failure ∈ scattered.failures, failure.expected.Nodup) ∧
      scattered.fold = some ⟨3, [.name, .colon, .atSign]⟩ ∧
      Reordered (furthest (some ⟨3, [.name, .colon]⟩) (some ⟨3, [.atSign, .name]⟩))
        (furthest (some ⟨3, [.atSign, .name]⟩) (some ⟨3, [.name, .colon]⟩)) := by
  have hnodup : ∀ failure ∈ scattered.failures, failure.expected.Nodup := by decide
  have hfold : together scattered.failures = some ⟨3, [.name, .colon, .atSign]⟩ := by decide
  obtain ⟨-, -, hgrouping, hswap, -⟩ := furthest_laws
  exact ⟨hnodup, ((hgrouping scattered).2 hnodup).trans hfold,
    (hswap _ _).2.2 (by simp) (by simp)⟩

/-- A kind that is listed twice stays so if its list comes first, and not if it comes second. -/
theorem not_reordered_repeated :
    ¬ Reordered (furthest (some ⟨0, [.name, .name]⟩) (some ⟨0, [.name]⟩))
      (furthest (some ⟨0, [.name]⟩) (some ⟨0, [.name, .name]⟩)) := by
  rintro ⟨-, hperm⟩
  exact absurd hperm.length_eq (by decide)

end Failure

end QueryBatching.Parse
