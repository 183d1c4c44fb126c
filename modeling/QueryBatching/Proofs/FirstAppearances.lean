/-
The items of a list in order of first appearance.

`List.eraseDups` keeps each item where it first stands.  Tables that are filled one item after
another list their keys that way, and so do the failures of a parse the kinds they expected.
-/
import Mathlib.Data.List.Induction
import Mathlib.Data.List.Nodup

namespace QueryBatching

variable {α β : Type} [DecidableEq α] [DecidableEq β]

theorem eraseDups_concat (xs : List α) (x : α) :
    (xs ++ [x]).eraseDups = if x ∈ xs then xs.eraseDups else xs.eraseDups ++ [x] := by
  rw [List.eraseDups_append]
  split
  · rename_i hmem
    simp [List.removeAll, hmem]
  · rename_i hnew
    simp [List.removeAll, hnew, List.eraseDups_cons]

theorem nodup_eraseDups (xs : List α) : xs.eraseDups.Nodup := by
  induction xs using List.reverseRecOn with
  | nil => exact List.nodup_nil
  | append_singleton front last ih =>
      rw [eraseDups_concat]
      split
      · exact ih
      · rename_i hnew
        refine List.nodup_append.mpr ⟨ih, List.nodup_singleton last, fun x hx y hy heq => hnew ?_⟩
        rw [← List.mem_singleton.mp hy, ← heq]
        exact List.mem_eraseDups.mp hx

theorem eraseDups_map {f : α → β} (hf : Function.Injective f) (xs : List α) :
    (xs.map f).eraseDups = xs.eraseDups.map f := by
  induction xs using List.reverseRecOn with
  | nil => rfl
  | append_singleton front last ih =>
      rw [List.map_append, List.map_cons, List.map_nil, eraseDups_concat, eraseDups_concat, ih]
      simp only [List.mem_map_of_injective hf]
      split
      · rfl
      · rw [List.map_append]
        rfl

theorem filter_eraseDups (p : α → Bool) (xs : List α) :
    xs.eraseDups.filter p = (xs.filter p).eraseDups := by
  induction xs using List.reverseRecOn with
  | nil => rfl
  | append_singleton front last ih =>
      rw [List.filter_append, eraseDups_concat]
      cases hlast : p last with
      | true =>
          rw [List.filter_cons_of_pos hlast, List.filter_nil, eraseDups_concat, ← ih]
          simp only [List.mem_filter, hlast, and_true]
          split
          · rfl
          · rw [List.filter_append, List.filter_cons_of_pos hlast, List.filter_nil]
      | false =>
          have hskip : [last].filter p = [] := List.filter_cons_of_neg (by simp [hlast])
          rw [hskip, List.append_nil, ← ih]
          split
          · rfl
          · rw [List.filter_append, hskip, List.append_nil]

theorem eraseDups_of_nodup {xs : List α} (h : xs.Nodup) : xs.eraseDups = xs := by
  induction xs using List.reverseRecOn with
  | nil => rfl
  | append_singleton front last ih =>
      obtain ⟨hfront, -, hlast⟩ := List.nodup_append.mp h
      have hnew : last ∉ front := fun hmem => hlast last hmem last (by simp) rfl
      rw [eraseDups_concat, if_neg hnew, ih hfront]

end QueryBatching
