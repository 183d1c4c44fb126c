/-
What a merge makes of repetitions.

Selections and directives are merged by keeping the first of each, in their order.  Whatever keeps
the first of each does not see repetitions: saying everything once more adds nothing, and where
nothing is said twice everything is kept.  The union of selections does so at every level, so the
union of several copies of some selections is the union of the selections.
-/
import QueryBatching.Proofs.Merge.Union

namespace QueryBatching

/-! ### Keeping the first of each -/

/-- The function keeps those items of a list whose key no item before them has. -/
structure KeepsFirsts {α κ : Type} [DecidableEq κ] (key : α → κ) (keep : List α → List α) :
    Prop where
  nil : keep [] = []
  concat : ∀ items last, keep (items ++ [last]) =
    if key last ∈ (keep items).map key then keep items else keep items ++ [last]

namespace KeepsFirsts

variable {α β κ : Type} [DecidableEq κ] {key : α → κ} {keep : List α → List α}

/-- Keeping the first of each loses no key. -/
theorem mem_map_key_iff (h : KeepsFirsts key keep) {items : List α} {k : κ} :
    k ∈ (keep items).map key ↔ k ∈ items.map key := by
  induction items using List.reverseRecOn with
  | nil => rw [h.nil]
  | append_singleton front last ih =>
      rw [h.concat, List.map_append, List.mem_append, ← ih]
      split
      · rename_i hseen
        have hlast : k ∈ [last].map key → k ∈ (keep front).map key := by
          intro hmem
          rw [List.map_singleton, List.mem_singleton] at hmem
          exact hmem ▸ hseen
        exact ⟨.inl, fun hmem => hmem.elim id hlast⟩
      · rw [List.map_append, List.mem_append]

/-- Keeping the first of each keeps no key twice. -/
theorem nodup_map_key (h : KeepsFirsts key keep) (items : List α) :
    ((keep items).map key).Nodup := by
  induction items using List.reverseRecOn with
  | nil =>
      rw [h.nil]
      exact List.nodup_nil
  | append_singleton front last ih =>
      rw [h.concat]
      split
      · exact ih
      · rename_i hnew
        rw [List.map_append]
        refine List.Nodup.append ih (List.nodup_singleton _) ?_
        exact List.disjoint_singleton.mpr hnew

/-- Items whose keys have come before add nothing. -/
theorem append_of_mem (h : KeepsFirsts key keep) {items more : List α}
    (hmore : ∀ item ∈ more, key item ∈ items.map key) : keep (items ++ more) = keep items := by
  induction more using List.reverseRecOn with
  | nil => rw [List.append_nil]
  | append_singleton front last ih =>
      rw [List.forall_mem_append] at hmore
      have hlast : key last ∈ (keep (items ++ front)).map key := by
        rw [ih hmore.1, h.mem_map_key_iff]
        exact hmore.2 last List.mem_cons_self
      rw [← List.append_assoc, h.concat, if_pos hlast, ih hmore.1]

/-- Items without repetitions are all kept. -/
theorem eq_self_of_nodup (h : KeepsFirsts key keep) {items : List α}
    (hnodup : (items.map key).Nodup) : keep items = items := by
  induction items using List.reverseRecOn with
  | nil => exact h.nil
  | append_singleton front last ih =>
      rw [List.map_append, List.nodup_append] at hnodup
      have hnew : key last ∉ (keep front).map key := by
        rw [h.mem_map_key_iff]
        exact fun hmem => hnodup.2.2 _ hmem _ List.mem_cons_self rfl
      rw [h.concat, if_neg hnew, ih hnodup.1]

/-- **Several copies of the items are kept as one.** -/
theorem copies (h : KeepsFirsts key keep) {indices : List β} (hne : indices ≠ [])
    (items : List α) : keep (indices.flatMap fun _ => items) = keep items := by
  obtain ⟨first, rest, rfl⟩ := List.exists_cons_of_ne_nil hne
  rw [List.flatMap_cons]
  refine h.append_of_mem fun item hmem => ?_
  obtain ⟨_, -, hitem⟩ := List.mem_flatMap.mp hmem
  exact List.mem_map_of_mem hitem

end KeepsFirsts

/-! ### Directives -/

/-- Directives are kept by their text. -/
theorem MergedBatch.keepsFirsts_distinctDirectives :
    KeepsFirsts Directive.text distinctDirectives where
  nil := rfl
  concat := by
    intro directives last
    have hany : ((distinctDirectives directives).any fun other => other.text == last.text) =
        decide (last.text ∈ (distinctDirectives directives).map Directive.text) := by
      rw [Bool.eq_iff_iff, List.any_eq_true, decide_eq_true_eq, List.mem_map]
      simp only [beq_iff_eq]
    rw [distinctDirectives_concat]
    simp only [hany, decide_eq_true_eq]

/-! ### Selections -/

namespace Selection

/-- Selections are kept by their identity. -/
theorem keepsFirsts_firsts : KeepsFirsts identity firsts where
  nil := rfl
  concat := by
    intro selections last
    rw [firsts_concat]
    simp only [mem_identity_firsts]

theorem unionWithin_copies {indices : List Nat} (hne : indices ≠ []) (depth : Nat)
    (selections : List Selection) :
    unionWithin depth (indices.flatMap fun _ => selections) = unionWithin depth selections := by
  induction depth generalizing selections with
  | zero => rfl
  | succ depth ih =>
      have hbelow : ∀ signature,
          unionWithin depth (selectedBelow (indices.flatMap fun _ => selections) signature) =
            unionWithin depth (selectedBelow selections signature) := by
        intro signature
        rw [selectedBelow_flatMap, ih]
      rw [unionWithin, unionWithin, keepsFirsts_firsts.copies hne, funext hbelow]

/-- **The union of several copies of some selections is the union of the selections.** -/
theorem union_copies {indices : List Nat} (hne : indices ≠ []) (selections : List Selection) :
    union (indices.flatMap fun _ => selections) = union selections := by
  have hdepth : depthOfAll (indices.flatMap fun _ => selections) ≤ depthOfAll selections := by
    rw [depthOfAll_le]
    intro selection hmem
    obtain ⟨_, -, hselection⟩ := List.mem_flatMap.mp hmem
    exact depth_le_depthOfAll hselection
  rw [union, unionWithin_eq le_rfl hdepth, unionWithin_copies hne, union]

end Selection

end QueryBatching
