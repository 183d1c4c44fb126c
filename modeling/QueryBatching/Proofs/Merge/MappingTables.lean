/-
The tables of a path mapping agree.

A mapping holds its entries twice over: by calls, in the order in which they came, and by calls
and parents, for taking a response apart.  One operation writes both, and writes the second only
where the entry is new, so what has to be seen is that an entry is new in one table exactly when
it is new in the other.  Everything is answered from the list of what was recorded, as in
`Proofs/Merge/Mapping.lean`, and the two tables agree because their answers do.
-/
import Mathlib.Data.Finset.Card
import Mathlib.Data.Finset.Dedup
import QueryBatching.Proofs.Merge.Mapping

namespace QueryBatching

/-! ### Association lists -/

namespace Assoc

variable {κ ν : Type} [DecidableEq κ]

/-- Where no key is written twice, looking up every key gives the entries back. -/
theorem filterMap_get?_keys {entries : Assoc κ ν} (hnodup : (keys entries).Nodup)
    (p : κ → Bool) :
    ((keys entries).filter p).filterMap
        (fun key => (get? entries key).map fun value => (key, value)) =
      entries.filter fun entry => p entry.1 := by
  rw [keys, List.filter_map, List.filterMap_map]
  have hsome : ∀ entry ∈ entries.filter (p ∘ Prod.fst),
      ((fun key => (get? entries key).map fun value => (key, value)) ∘ Prod.fst) entry =
        some entry := by
    rintro ⟨key, value⟩ hmem
    have hfound := get?_of_mem hnodup (List.mem_filter.mp hmem).1
    simp only [Function.comp_apply, hfound, Option.map_some]
  rw [List.filterMap_congr hsome, List.filterMap_some]
  rfl

/-- A write makes a list longer by its key, if that is new. -/
theorem length_insert (entries : Assoc κ ν) (key : κ) (value : ν) :
    (insert entries key value).length =
      if contains entries key then entries.length else entries.length + 1 := by
  have hlength : ∀ entries : Assoc κ ν, entries.length = (keys entries).length := fun _ =>
    (List.length_map _).symm
  rw [hlength, keys_insert, hlength]
  simp only [← contains_iff_mem_keys]
  split
  · rfl
  · rw [List.length_append, List.length_singleton]

/-- Writing a list under a key puts it in the place of what was there. -/
theorem length_flatMap_insert {μ : Type} (entries : Assoc κ (List μ)) (key : κ)
    (value : List μ) :
    ((insert entries key value).flatMap Prod.snd).length +
        ((get? entries key).getD []).length =
      (entries.flatMap Prod.snd).length + value.length := by
  induction entries with
  | nil => simp [insert, get?]
  | cons entry rest ih =>
      obtain ⟨k, v⟩ := entry
      rw [insert, get?]
      split
      · simp only [List.flatMap_cons, List.length_append, Option.getD_some]
        omega
      · simp only [List.flatMap_cons, List.length_append]
        omega

end Assoc

/-! ### What was recorded -/

namespace Placement

/-- The merged path, if the placement is of that field of the call. -/
def target? (call : Nat) (own : FieldPath) : Placement → Option FieldPath
  | .field other path merged => if other = call ∧ path = own then some merged else none
  | .fragments _ _ => none

/-- The call and its own path, if the placement is of a field; the root is none. -/
def pair? : Placement → Option (Nat × FieldPath)
  | .field call own _ => if own.parent? = none then none else some (call, own)
  | .fragments _ _ => none

theorem pair?_eq_some {call : Nat} {own : FieldPath} {placement : Placement} :
    placement.pair? = some (call, own) ↔
      own.parent? ≠ none ∧ ∃ merged, placement = .field call own merged := by
  cases placement with
  | fragments other level => simp [pair?]
  | field other path merged =>
      rw [pair?]
      split
      · rename_i hroot
        simp only [reduceCtorEq, field.injEq, false_iff]
        rintro ⟨hne, target, -, rfl, -⟩
        exact hne hroot
      · rename_i hroot
        simp only [Option.some.injEq, Prod.mk.injEq, field.injEq, exists_and_left]
        constructor
        · rintro ⟨rfl, rfl⟩
          exact ⟨hroot, rfl, rfl, merged, rfl⟩
        · rintro ⟨-, rfl, rfl, -⟩
          exact ⟨rfl, rfl⟩

end Placement

namespace PathMapping

variable {mapping : PathMapping} {placements : List Placement}

theorem parent?_eq_none_iff {own : FieldPath} : own.parent? = none ↔ own = .root := by
  obtain ⟨keys⟩ := own
  simp [FieldPath.parent?, FieldPath.root]

/-- Nothing is ever recorded of the root. -/
theorem get?_ofPlacements_root (call : Nat) : (ofPlacements placements).get? call .root = none := by
  rw [get?, Assoc.get?_eq_none_iff, keys_entries_ofPlacements, List.mem_eraseDups,
    List.mem_filterMap]
  rintro ⟨placement, -, hroot⟩
  exact (Placement.entered?_eq_some.mp hroot).1 rfl

/-- **The last word on a field counts.** -/
theorem get?_ofPlacements_eq (call : Nat) {own : FieldPath} (hroot : own.parent? ≠ none) :
    (ofPlacements placements).get? call own =
      (placements.filterMap (Placement.target? call own)).getLast? := by
  induction placements using List.reverseRecOn with
  | nil => rfl
  | append_singleton front last ih =>
      rw [ofPlacements_append, get?_record last call hroot, ih, List.filterMap_append]
      cases last with
      | fragments other level => simp [Placement.target?]
      | field other path merged =>
          dsimp only
          split
          · rename_i hhere
            simp [Placement.target?, hhere]
          · rename_i hother
            simp [Placement.target?, hother]

/-- Recording a field makes the mapping larger by the field, if it is new. -/
theorem size_insert {call : Nat} {own merged : FieldPath} (hroot : own.parent? ≠ none) :
    (mapping.insert call own merged).size =
      if (mapping.get? call own).isSome then mapping.size else mapping.size + 1 := by
  obtain ⟨parent, hparent⟩ := Option.ne_none_iff_exists'.mp hroot
  have hlength := Assoc.length_flatMap_insert mapping.calls call
    (Assoc.insert (mapping.entries call) own merged)
  have hentries : ((Assoc.get? mapping.calls call).getD []).length =
      (mapping.entries call).length := rfl
  rw [hentries, Assoc.length_insert, contains_entries] at hlength
  have hsize : (mapping.insert call own merged).size =
      ((Assoc.insert mapping.calls call
        (Assoc.insert (mapping.entries call) own merged)).flatMap Prod.snd).length := by
    rw [size, insert, hparent]
  rw [hsize, size]
  split at hlength
  · rename_i hknown
    rw [if_pos hknown]
    omega
  · rename_i hnew
    rw [if_neg hnew]
    omega

/-- A mapping has as many entries as calls and fields were recorded. -/
theorem size_ofPlacements :
    (ofPlacements placements).size = (placements.filterMap Placement.pair?).toFinset.card := by
  induction placements using List.reverseRecOn with
  | nil => rfl
  | append_singleton front last ih =>
      rw [ofPlacements_append, List.filterMap_append]
      cases last with
      | fragments other level =>
          have hsize : ((ofPlacements front).record (.fragments other level)).size =
              (ofPlacements front).size := by
            rw [record, markFragments]
            split <;> rfl
          rw [hsize, ih]
          exact congrArg (fun pairs : List (Nat × FieldPath) => pairs.toFinset.card)
            (List.append_nil _).symm
      | field call own merged =>
          by_cases hroot : own.parent? = none
          · have hsame : (ofPlacements front).record (.field call own merged) =
                ofPlacements front := by
              rw [record, insert, hroot]
            have hskip : Placement.pair? (.field call own merged) = none := by
              rw [Placement.pair?, if_pos hroot]
            rw [hsame, ih, List.filterMap_cons_none hskip, List.filterMap_nil, List.append_nil]
          · have hpair : Placement.pair? (.field call own merged) = some (call, own) := by
              rw [Placement.pair?, if_neg hroot]
            have hknown : ((ofPlacements front).get? call own).isSome = true ↔
                (call, own) ∈ front.filterMap Placement.pair? := by
              rw [get?_ofPlacements_isSome call hroot, List.mem_filterMap]
              constructor
              · rintro ⟨target, hmem⟩
                exact ⟨_, hmem, Placement.pair?_eq_some.mpr ⟨hroot, target, rfl⟩⟩
              · rintro ⟨placement, hmem, hfield⟩
                obtain ⟨-, target, rfl⟩ := Placement.pair?_eq_some.mp hfield
                exact ⟨target, hmem⟩
            rw [record, size_insert hroot, ih, List.filterMap_cons_some hpair,
              List.filterMap_nil, List.toFinset_append, List.toFinset_cons, List.toFinset_nil,
              insert_empty_eq, Finset.union_singleton, Finset.card_insert_eq_ite]
            simp only [hknown, List.mem_toFinset]

/-! ### The tables agree -/

/-- A mapping holds what was recorded, and the same in both of its tables. -/
structure Records (mapping : PathMapping) (placements : List Placement) : Prop where
  /-- The entries below a path are those of the call with the path as their parent, in order. -/
  children : ∀ call parent, mapping.childrenOf call parent =
    (mapping.entries call).filter fun entry => entry.1.parent? = some parent
  /-- There are entries below a path exactly if the mapping says so. -/
  hasChildren : ∀ call parent, mapping.hasChildren call parent = true ↔
    ((mapping.entries call).filter fun entry => entry.1.parent? = some parent) ≠ []
  /-- A field is found where it was last placed, and the root never. -/
  found : ∀ call own, mapping.get? call own =
    if own = .root then none else (placements.filterMap (Placement.target? call own)).getLast?
  /-- The entries of a call are its fields, each once, in the order in which they first came. -/
  entries : ∀ call, Assoc.keys (mapping.entries call) =
    (placements.filterMap (Placement.entered? call)).eraseDups
  /-- An entry says of its field what is found of it. -/
  values : ∀ call, ∀ entry ∈ mapping.entries call, mapping.get? call entry.1 = some entry.2
  /-- Each call and field counts once. -/
  size : mapping.size = (placements.filterMap Placement.pair?).toFinset.card

theorem nodup_keys_entries_ofPlacements (call : Nat) :
    (Assoc.keys ((ofPlacements placements).entries call)).Nodup := by
  rw [keys_entries_ofPlacements]
  exact nodup_eraseDups _

/-- The fields below a path are the entries with that parent. -/
theorem childrenOf_eq_filter_entries (call : Nat) (parent : FieldPath) :
    (ofPlacements placements).childrenOf call parent =
      ((ofPlacements placements).entries call).filter
        fun entry => entry.1.parent? = some parent := by
  rw [childrenOf_ofPlacements, ← filter_keys_entries_ofPlacements]
  exact Assoc.filterMap_get?_keys (nodup_keys_entries_ofPlacements call) _

/-- There are entries below a path exactly if one was recorded. -/
theorem filter_entries_ne_nil_iff (call : Nat) (parent : FieldPath) :
    (((ofPlacements placements).entries call).filter
        fun entry => entry.1.parent? = some parent) ≠ [] ↔
      ownChildren call parent placements ≠ [] := by
  have hkeys : (((ofPlacements placements).entries call).filter
      fun entry => entry.1.parent? = some parent).map Prod.fst =
        (ownChildren call parent placements).eraseDups := by
    rw [← filter_keys_entries_ofPlacements, Assoc.keys, List.filter_map]
    rfl
  refine not_congr ?_
  rw [← List.map_eq_nil_iff (f := Prod.fst), hkeys]
  simp only [List.eq_nil_iff_forall_not_mem, List.mem_eraseDups]

/--
**The tables of a mapping agree**, whatever was recorded and in whichever order: the fields below
a path are the entries with that parent, what is found of a field is where it was last placed, and
every field of a call has one entry, at its first place.
-/
theorem records_ofPlacements (placements : List Placement) :
    (ofPlacements placements).Records placements := by
  refine {
    children := childrenOf_eq_filter_entries
    hasChildren := fun call parent => ?_
    found := fun call own => ?_
    entries := keys_entries_ofPlacements
    values := fun call entry hentry =>
      Assoc.get?_of_mem (nodup_keys_entries_ofPlacements call) hentry
    size := size_ofPlacements }
  · rw [hasChildren_ofPlacements, filter_entries_ne_nil_iff]
  · split
    · rename_i hroot
      rw [hroot, get?_ofPlacements_root]
    · rename_i hroot
      exact get?_ofPlacements_eq call fun hnone => hroot (parent?_eq_none_iff.mp hnone)

end PathMapping

end QueryBatching
