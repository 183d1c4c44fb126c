/-
Looking entries up.

What is found under a key is an entry, and where no key is written twice every entry is found
and is written where it stands.
-/
import QueryBatching.Assoc

namespace QueryBatching

namespace Assoc

variable {κ ν : Type} [DecidableEq κ]

theorem get?_eq_none_iff {entries : Assoc κ ν} {key : κ} :
    get? entries key = none ↔ key ∉ keys entries := by
  rw [← contains_iff_mem_keys, contains]
  simp

theorem mem_of_get? {entries : Assoc κ ν} {key : κ} {value : ν}
    (h : get? entries key = some value) : (key, value) ∈ entries := by
  induction entries with
  | nil => simp [get?] at h
  | cons entry rest ih =>
      obtain ⟨k, v⟩ := entry
      rw [get?] at h
      split at h
      · rename_i hk
        obtain rfl := Option.some.inj h
        exact hk ▸ List.mem_cons_self
      · exact List.mem_cons_of_mem _ (ih h)

/-- Where no key is written twice, an entry is what is found under its key. -/
theorem get?_of_mem {entries : Assoc κ ν} (hnodup : (keys entries).Nodup) {key : κ} {value : ν}
    (h : (key, value) ∈ entries) : get? entries key = some value := by
  induction entries with
  | nil => exact absurd h List.not_mem_nil
  | cons entry rest ih =>
      obtain ⟨k, v⟩ := entry
      rw [keys, List.map_cons, List.nodup_cons] at hnodup
      rcases List.mem_cons.mp h with heq | h
      · obtain ⟨rfl, rfl⟩ := Prod.mk.inj heq
        rw [get?, if_pos rfl]
      · rw [get?, if_neg, ih hnodup.2 h]
        intro heq
        exact hnodup.1 (List.mem_map.mpr ⟨_, h, heq.symm⟩)

/-- Where no key is written twice, the order of the entries does not matter. -/
theorem get?_eq_of_perm {entries others : Assoc κ ν} (hnodup : (keys entries).Nodup)
    (h : entries.Perm others) (key : κ) : get? entries key = get? others key := by
  have hkeys : (keys entries).Perm (keys others) := h.map Prod.fst
  cases hfound : get? entries key with
  | none =>
      rw [get?_eq_none_iff] at hfound
      exact (get?_eq_none_iff.mpr fun hmem => hfound (hkeys.mem_iff.mpr hmem)).symm
  | some value =>
      exact (get?_of_mem (hkeys.nodup_iff.mp hnodup) (h.mem_iff.mp (mem_of_get? hfound))).symm

/-- A new key is written at the end. -/
theorem insert_of_notMem {entries : Assoc κ ν} {key : κ} (h : key ∉ keys entries) (value : ν) :
    insert entries key value = entries ++ [(key, value)] := by
  induction entries with
  | nil => rfl
  | cons entry rest ih =>
      obtain ⟨k, v⟩ := entry
      rw [keys, List.map_cons, List.mem_cons, not_or] at h
      rw [insert, if_neg (Ne.symm h.1), ih h.2, List.cons_append]

/-- Writing entries whose keys are all new puts them behind what is there. -/
theorem foldl_insert_of_nodup (entries : Assoc κ ν) {more : Assoc κ ν}
    (h : (keys (entries ++ more)).Nodup) :
    more.foldl (fun written (entry : κ × ν) => insert written entry.1 entry.2) entries =
      entries ++ more := by
  induction more generalizing entries with
  | nil => rw [List.foldl_nil, List.append_nil]
  | cons entry rest ih =>
      have hnew : entry.1 ∉ keys entries := by
        rw [keys, List.map_append, List.nodup_append] at h
        exact fun hmem => h.2.2 _ hmem _ List.mem_cons_self rfl
      rw [List.append_cons] at h
      rw [List.foldl_cons, insert_of_notMem hnew, ih _ h, ← List.append_cons]

theorem get?_append_of_some {entries more : Assoc κ ν} {key : κ} {value : ν}
    (h : get? entries key = some value) : get? (entries ++ more) key = some value := by
  induction entries with
  | nil => simp [get?] at h
  | cons entry rest ih =>
      obtain ⟨k, v⟩ := entry
      rw [get?] at h
      rw [List.cons_append, get?]
      split at h
      · rename_i hk
        rw [if_pos hk, h]
      · rename_i hk
        rw [if_neg hk, ih h]

end Assoc

end QueryBatching
