/-
Values that a call sees, and values that it would get alone.

What a call sees below its root is a copy of the merged response with the call's own fields
written over it, so objects may have members that the call did not ask for.  `Json.Includes`
says that everything the call would get alone is there: lists item by item, objects member by
member, and anything else exactly.
-/
import Mathlib.Data.List.Induction
import QueryBatching.Proofs.Assoc
import QueryBatching.Proofs.Response.Server
import QueryBatching.Response

namespace QueryBatching

universe u

/-! ### Inclusion -/

namespace Json

mutual

/--
What is seen includes a value.  An object that would have no members is seen without any: only
what a call asks nothing below can be such an object.
-/
def Includes : (seen own : Json) → Prop
  | seen, .array items => ∃ others, seen = .array others ∧ ItemsInclude others items
  | seen, .object members => ∃ others, seen = .object others ∧
    (members = [] → others = []) ∧ MembersInclude others members
  | seen, own => seen = own

/-- Each item that is seen includes the item at its place, and there are as many. -/
def ItemsInclude : (seen own : List Json) → Prop
  | seen, [] => seen = []
  | seen, item :: rest => ∃ first others, seen = first :: others ∧
    Includes first item ∧ ItemsInclude others rest

/-- Each member is seen under its key, with a value that includes its own. -/
def MembersInclude : (seen own : List (String × Json)) → Prop
  | _, [] => True
  | seen, (key, own) :: rest =>
    (∃ value, Assoc.get? seen key = some value ∧ Includes value own) ∧ MembersInclude seen rest

end

theorem membersInclude_iff {seen own : List (String × Json)} :
    MembersInclude seen own ↔
      ∀ entry ∈ own, ∃ value, Assoc.get? seen entry.1 = some value ∧ Includes value entry.2 := by
  induction own with
  | nil => simp [MembersInclude]
  | cons entry rest ih => rw [MembersInclude, ih, List.forall_mem_cons]

theorem itemsInclude_map {α : Type u} {f g : α → Json} {items : List α}
    (h : ∀ item ∈ items, Includes (f item) (g item)) :
    ItemsInclude (items.map f) (items.map g) := by
  induction items with
  | nil => exact rfl
  | cons item rest ih =>
      rw [List.forall_mem_cons] at h
      exact ⟨f item, rest.map f, rfl, h.1, ih h.2⟩

end Json

/-! ### Answers -/

namespace Resolved

variable {Node : Type u}

/-- Induction over what a field is: of a list, it may be assumed for the items. -/
theorem induction {motive : Resolved Node → Prop} (null : motive .null)
    (bool : ∀ value, motive (.bool value)) (number : ∀ text, motive (.number text))
    (string : ∀ text, motive (.string text)) (node : ∀ target, motive (.node target))
    (list : ∀ items, (∀ item ∈ items, motive item) → motive (.list items)) :
    ∀ resolved, motive resolved
  | .null => null
  | .bool value => bool value
  | .number text => number text
  | .string text => string text
  | .node target => node target
  | .list items =>
    list items fun item _ => induction null bool number string node list item

theorem completeAll_eq (answer : Node → List (String × Json)) (items : List (Resolved Node)) :
    completeAll answer items = items.map (complete answer) := by
  induction items with
  | nil => rfl
  | cons item rest ih => rw [completeAll, ih, List.map_cons]

/-- The response to a field below which nothing is selected includes itself. -/
theorem includes_complete_nil (resolved : Resolved Node) :
    (resolved.complete fun _ => []).Includes (resolved.complete fun _ => []) := by
  induction resolved using Resolved.induction with
  | null => exact rfl
  | bool value => exact rfl
  | number text => exact rfl
  | string text => exact rfl
  | node target => exact ⟨[], rfl, fun _ => rfl, trivial⟩
  | list items ih =>
      rw [complete, completeAll_eq]
      exact ⟨_, rfl, Json.itemsInclude_map ih⟩

end Resolved

namespace Response

theorem rebuildItems_eq (mapping : PathMapping) (call : Nat) (items : List Json)
    (path : FieldPath) : rebuildItems mapping call items path =
      items.map fun item => rebuild mapping call item path := by
  induction items with
  | nil => rfl
  | cons item rest ih =>
      rw [List.map_cons, ← ih]
      rfl

theorem rebuild_array (mapping : PathMapping) (call : Nat) (items : List Json) (path : FieldPath) :
    rebuild mapping call (.array items) path =
      .array (items.map fun item => rebuild mapping call item path) := by
  rw [← rebuildItems_eq]
  rfl

/-- If objects that are taken apart include others, so do the responses that have them. -/
theorem includes_rebuild_complete {Node : Type u} {mapping : PathMapping} {call : Nat}
    {path : FieldPath} {merged own : Node → List (String × Json)}
    (h : ∀ node, (rebuild mapping call (.object (merged node)) path).Includes
      (.object (own node))) (resolved : Resolved Node) :
    (rebuild mapping call (resolved.complete merged) path).Includes (resolved.complete own) := by
  induction resolved using Resolved.induction with
  | null => exact rfl
  | bool value => exact rfl
  | number text => exact rfl
  | string text => exact rfl
  | node target => exact h target
  | list items ih =>
      rw [Resolved.complete, Resolved.complete, rebuild_array, Resolved.completeAll_eq,
        Resolved.completeAll_eq, List.map_map]
      exact ⟨_, rfl, Json.itemsInclude_map ih⟩

/-! ### Written members -/

/-- Members written over others, one after another. -/
def writeAll (base values : List (String × Json)) : List (String × Json) :=
  values.foldl (fun members entry => Assoc.insert members entry.1 entry.2) base

/-- Of members under different keys, each is found as it was written. -/
theorem get?_writeAll {base values : List (String × Json)} (hnodup : (Assoc.keys values).Nodup)
    {key : String} {value : Json} (hmem : (key, value) ∈ values) :
    Assoc.get? (writeAll base values) key = some value := by
  induction values using List.reverseRecOn with
  | nil => exact absurd hmem List.not_mem_nil
  | append_singleton front last ih =>
      rw [Assoc.keys, List.map_append, List.nodup_append] at hnodup
      obtain ⟨hfront, -, hdisjoint⟩ := hnodup
      rw [writeAll, List.foldl_append, List.foldl_cons, List.foldl_nil, Assoc.get?_insert]
      rcases List.mem_append.mp hmem with hmem | hmem
      · rw [if_neg fun heq => hdisjoint key (List.mem_map_of_mem hmem) last.1 (by simp) heq.symm]
        exact ih hfront hmem
      · obtain rfl := List.mem_singleton.mp hmem
        exact if_pos rfl

/-- Members that are not written over stay as they are. -/
theorem get?_writeAll_of_notMem {base values : List (String × Json)} {key : String}
    (h : key ∉ Assoc.keys values) :
    Assoc.get? (writeAll base values) key = Assoc.get? base key := by
  induction values using List.reverseRecOn with
  | nil => rfl
  | append_singleton front last ih =>
      rw [Assoc.keys, List.map_append, List.mem_append, not_or] at h
      rw [writeAll, List.foldl_append, List.foldl_cons, List.foldl_nil, Assoc.get?_insert,
        if_neg fun heq => h.2 (by simp [heq])]
      exact ih h.1

/-- Members stay where they are, and those that are new come behind them. -/
theorem keys_writeAll {base values : List (String × Json)} (hnodup : (Assoc.keys values).Nodup) :
    Assoc.keys (writeAll base values) =
      Assoc.keys base ++ (Assoc.keys values).filter fun key => key ∉ Assoc.keys base := by
  induction values using List.reverseRecOn with
  | nil => exact (List.append_nil _).symm
  | append_singleton front last ih =>
      rw [Assoc.keys, List.map_append, List.nodup_append] at hnodup
      obtain ⟨hfront, -, hdisjoint⟩ := hnodup
      have hnew : last.1 ∉ Assoc.keys front := fun hmem =>
        hdisjoint last.1 hmem last.1 (by simp) rfl
      have hsplit : Assoc.keys (front ++ [last]) = Assoc.keys front ++ [last.1] :=
        List.map_append
      have hwritten := ih hfront
      rw [writeAll] at hwritten ⊢
      rw [List.foldl_append, List.foldl_cons, List.foldl_nil, Assoc.keys_insert, hwritten, hsplit,
        List.filter_append]
      by_cases hmem : last.1 ∈ Assoc.keys base
      · rw [if_pos (List.mem_append_left _ hmem), List.filter_cons_of_neg (by simpa using hmem),
          List.filter_nil, List.append_nil]
      · rw [if_neg fun h => (List.mem_append.mp h).elim hmem fun hin =>
            hnew (List.mem_filter.mp hin).1,
          List.filter_cons_of_pos (by simpa using hmem), List.filter_nil, List.append_assoc]

/-- Members under different keys that are written over nothing are all there is. -/
theorem writeAll_nil {values : List (String × Json)} (hnodup : (Assoc.keys values).Nodup) :
    writeAll [] values = values := Assoc.foldl_insert_of_nodup [] hnodup

/-- Writing a call's fields, where the mapping lists them under `keys`. -/
theorem writeOwn_eq {mapping : PathMapping} {call : Nat} {level merged : FieldPath}
    {keys : List String} {served : String → String}
    (h : mapping.childrenOf call level =
      keys.map fun key => (level.child key, merged.child (served key)))
    (read : String → FieldPath → Json) (base : List (String × Json)) :
    writeOwn mapping call level read base =
      writeAll base (keys.map fun key => (key, read (served key) (level.child key))) := by
  rw [writeOwn, h, writeAll, List.foldl_map, List.foldl_map]
  simp only [FieldPath.last?_child]

theorem get?_rebuildMembers (mapping : PathMapping) (call : Nat) (members : List (String × Json))
    (key : String) : Assoc.get? (rebuildMembers mapping call members) key =
      (Assoc.get? members key).map (rebuild mapping call) := by
  induction members with
  | nil => rfl
  | cons entry rest ih =>
      obtain ⟨name, value⟩ := entry
      rw [rebuildMembers, Assoc.get?, Assoc.get?]
      split
      · rfl
      · exact ih

/-- The value of a member that is there. -/
theorem fieldValue_eq {mapping : PathMapping} {call : Nat} {members : List (String × Json)}
    {key : String} {value : Json} (h : Assoc.get? members key = some value) (path : FieldPath) :
    fieldValue mapping call (rebuildMembers mapping call members) members key path =
      if mapping.hasChildren call path then rebuild mapping call value path else value := by
  rw [fieldValue, get?_rebuildMembers, h]
  rfl

end Response

end QueryBatching
