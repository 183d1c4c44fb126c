/-
What taking a response apart does to any response.

Whatever the merged response is, also where it lacks members or has values of another shape than
was asked for, a call is given the members that the mapping names and nothing is lost or moved that
is not one of them.  Reading is from the merged object alone and writing is over a copy of it, so
it does not matter that the key one member is read under may be the key another is written under.
-/
import QueryBatching.Json.Writer
import QueryBatching.Proofs.Response.Inclusion
import QueryBatching.Proofs.Response.Levels

namespace QueryBatching

open Selection (responseKeys)

namespace Response

/-- What a call is given at one of its paths, out of the members of the object above: the member
under the merged key, taken apart at the path, and null where there is none. -/
def given (mapping : PathMapping) (call : Nat) (members : List (String × Json))
    (own : FieldPath) : Json :=
  match Assoc.get? members (mapping.servedKey call own) with
  | some value => rebuild mapping call value own
  | none => .null

section Rebuild

variable {mapping : PathMapping} {call : Nat}

/-- Where a call has nothing below a path, a value there is seen as it is. -/
theorem rebuild_eq_self {path : FieldPath} (h : mapping.hasChildren call path = false) :
    ∀ value, rebuild mapping call value path = value
  | .null => rfl
  | .bool _ => rfl
  | .number _ => rfl
  | .string _ => rfl
  | .array items => by
      have hitems : ∀ item ∈ items, rebuild mapping call item path = item :=
        fun item _ => rebuild_eq_self h item
      rw [rebuild_array, List.map_congr_left hitems, List.map_id']
  | .object members => by
      have hnone : Assoc.get? mapping.children (call, path) = none := by
        simpa [PathMapping.hasChildren, Assoc.contains] using h
      change Json.object (writeOwn mapping call path _ members) = _
      rw [writeOwn, PathMapping.childrenOf, hnone]
      rfl

/-- A member is seen as if it were taken apart, also where nothing is below it. -/
theorem fieldValue_eq_rebuild (members : List (String × Json)) (key : String) (path : FieldPath) :
    fieldValue mapping call (rebuildMembers mapping call members) members key path =
      match Assoc.get? members key with
      | some value => rebuild mapping call value path
      | none => .null := by
  cases hmember : Assoc.get? members key with
  | none =>
      rw [fieldValue, get?_rebuildMembers, hmember]
      split <;> rfl
  | some value =>
      rw [fieldValue_eq hmember]
      split
      · rfl
      · rename_i hchildren
        exact (rebuild_eq_self (Bool.eq_false_iff.mpr hchildren) value).symm

end Rebuild

/-- A call's own members stand over what the merged object has. -/
structure Overlays (mapping : PathMapping) (call : CallDocument) (path : FieldPath)
    (members seen : List (String × Json)) : Prop where
  own : ∀ key ∈ call.keysAt path,
    Assoc.get? seen key = some (given mapping call.index members (path.child key))
  others : ∀ key, key ∉ call.keysAt path → Assoc.get? seen key = Assoc.get? members key
  /-- No member is moved, and what the merged object lacks comes at the end. -/
  order : Assoc.keys seen =
    Assoc.keys members ++ (call.keysAt path).filter fun key => key ∉ Assoc.keys members

end Response

namespace MergedBatch

open Response (Overlays given)

/-- What a call sees of any response to a batch. -/
structure TakesApart (batch : MergedBatch) (call : CallDocument) : Prop where
  /-- The mapping lists the response keys that the call has at a path, in their order. -/
  listed : ∀ path : FieldPath,
    (Assoc.keys (batch.mapping.entries call.index)).filter (fun own => own.parent? = some path) =
      (call.keysAt path).map path.child
  /-- The mapping takes each response key to a key one below the place of the path. -/
  served : ∀ path : FieldPath, ∀ key ∈ call.keysAt path, ∃ above,
    batch.mapping.mergedPath? call.index path = some above ∧
      batch.mapping.get? call.index (path.child key) =
        some (above.child (batch.mapping.servedKey call.index (path.child key)))
  /-- Below the root a list is seen item by item. -/
  list : ∀ items path, Response.rebuild batch.mapping call.index (.array items) path =
    .array (items.map fun item => Response.rebuild batch.mapping call.index item path)
  /-- Below the root an object is seen with the call's own members over what it has. -/
  object : ∀ members path, ∃ seen,
    Response.rebuild batch.mapping call.index (.object members) path = .object seen ∧
      Overlays batch.mapping call path members seen
  /-- Below the root anything but lists and objects is seen as it is. -/
  plain : ∀ value path, (∀ items, value ≠ .array items) → (∀ members, value ≠ .object members) →
    Response.rebuild batch.mapping call.index value path = value
  /-- Data that is no object is returned as it is. -/
  data : ∀ value, (∀ members, value ≠ .object members) →
    Response.demultiplex batch.mapping call.index value = value
  /-- With fragments at the root a call sees the root as it sees any object. -/
  rootWithFragments : (∃ selection ∈ call.operation.selections, selection.key? = none) →
    ∀ members, ∃ seen,
      Response.demultiplex batch.mapping call.index (.object members) = .object seen ∧
        Overlays batch.mapping call .root members seen
  /-- Without fragments at the root a call sees nothing but its own members, in their order. -/
  root : (∀ selection ∈ call.operation.selections, selection.key? ≠ none) → ∀ members,
    Response.demultiplex batch.mapping call.index (.object members) =
      .object ((responseKeys call.operation.selections).map fun key =>
        (key, given batch.mapping call.index members (.child .root key)))
  /-- Without fragments at the root no member matters but those the call sees. -/
  independent : (∀ selection ∈ call.operation.selections, selection.key? ≠ none) →
    ∀ members others : List (String × Json),
      (∀ key ∈ responseKeys call.operation.selections,
        Assoc.get? members (batch.mapping.servedKey call.index (.child .root key)) =
          Assoc.get? others (batch.mapping.servedKey call.index (.child .root key))) →
      Response.demultiplex batch.mapping call.index (.object members) =
        Response.demultiplex batch.mapping call.index (.object others)
  /-- Without fragments at the root the order of its members does not matter. -/
  unordered : (∀ selection ∈ call.operation.selections, selection.key? ≠ none) →
    ∀ members others : List (String × Json), (Assoc.keys members).Nodup → members.Perm others →
      Response.demultiplex batch.mapping call.index (.object members) =
        Response.demultiplex batch.mapping call.index (.object others)

section Assembled

variable {calls : List CallDocument} {batch : MergedBatch} {registry : FragmentRegistry}
  {operations : List (Nat × Operation)} {merged : MergedSelections}
  (h : Assembled calls batch registry operations merged)
  (hindices : (calls.map CallDocument.index).Nodup) {call : CallDocument} (hmem : call ∈ calls)

include h hindices hmem

/-- The fields of a call at a path, with the keys under which they are served. -/
theorem Assembled.exists_childrenOf (path : FieldPath) : ∃ above : FieldPath,
    batch.mapping.childrenOf call.index path = (call.keysAt path).map fun key =>
      (path.child key, above.child (batch.mapping.servedKey call.index (path.child key))) := by
  have hserved := fun key => @Assembled.exists_served _ _ _ _ _ h hindices _ hmem path key
  have hchildren : batch.mapping.childrenOf call.index path =
      (call.keysAt path).filterMap fun key =>
        (batch.mapping.get? call.index (path.child key)).map fun place =>
          (path.child key, place) := by
    rw [h.mapping, PathMapping.childrenOf_ofPlacements, h.eraseDups_ownChildren hindices hmem,
      List.filterMap_map]
    rfl
  -- The place of the path is the same for all of its keys, and without any it does not matter.
  cases habove : batch.mapping.mergedPath? call.index path with
  | none =>
      have hnone : call.keysAt path = [] := by
        rw [List.eq_nil_iff_forall_not_mem]
        intro key hkey
        obtain ⟨above, hsome, -⟩ := hserved key hkey
        simp [habove] at hsome
      exact ⟨.root, by rw [hchildren, hnone]; rfl⟩
  | some above =>
      refine ⟨above, ?_⟩
      rw [hchildren, ← List.filterMap_eq_map]
      refine List.filterMap_congr fun key hkey => ?_
      obtain ⟨other, hsome, hplace⟩ := hserved key hkey
      obtain rfl := Option.some.inj (hsome.symm.trans habove)
      rw [hplace]
      rfl

/-- Writing a call's own members writes what it is given under each of its keys. -/
theorem Assembled.writeOwn_eq (path : FieldPath) (members base : List (String × Json)) :
    Response.writeOwn batch.mapping call.index path
        (Response.fieldValue batch.mapping call.index
          (Response.rebuildMembers batch.mapping call.index members) members) base =
      Response.writeAll base ((call.keysAt path).map fun key =>
        (key, given batch.mapping call.index members (path.child key))) := by
  obtain ⟨above, hchildren⟩ := h.exists_childrenOf hindices hmem path
  rw [Response.writeOwn_eq hchildren]
  simp only [Response.fieldValue_eq_rebuild, given]

theorem Assembled.overlays (path : FieldPath) (members : List (String × Json)) :
    Overlays batch.mapping call path members
      (Response.writeOwn batch.mapping call.index path
        (Response.fieldValue batch.mapping call.index
          (Response.rebuildMembers batch.mapping call.index members) members) members) := by
  rw [h.writeOwn_eq hindices hmem]
  have hkeys : Assoc.keys ((call.keysAt path).map fun key =>
      (key, given batch.mapping call.index members (path.child key))) = call.keysAt path := by
    rw [Assoc.keys, List.map_map]
    exact List.map_id _
  have hnodup := hkeys.symm ▸ call.nodup_keysAt path
  constructor
  case own => exact fun key hkey => Response.get?_writeAll hnodup (List.mem_map_of_mem hkey)
  case others => exact fun key hkey => Response.get?_writeAll_of_notMem (hkeys.symm ▸ hkey)
  case order => rw [Response.keys_writeAll hnodup, hkeys]

/-- A root without fragments is made of the call's own members. -/
theorem Assembled.demultiplex_eq
    (hfields : ∀ selection ∈ call.operation.selections, selection.key? ≠ none)
    (members : List (String × Json)) :
    Response.demultiplex batch.mapping call.index (.object members) =
      .object ((responseKeys call.operation.selections).map fun key =>
        (key, given batch.mapping call.index members (.child .root key))) := by
  have hnone : batch.mapping.selectsFragments call.index FieldPath.root = false := by
    refine Bool.eq_false_iff.mpr fun hselects => ?_
    obtain ⟨selection, hin, hkey⟩ := (h.selectsFragments_root_iff hindices hmem).mp hselects
    exact hfields selection hin hkey
  have hnodup : (Assoc.keys ((call.keysAt .root).map fun key =>
      (key, given batch.mapping call.index members (.child .root key)))).Nodup := by
    rw [Assoc.keys, List.map_map]
    exact (List.map_id _).symm ▸ call.nodup_keysAt .root
  rw [Response.demultiplex, hnone, if_neg Bool.false_ne_true, h.writeOwn_eq hindices hmem,
    Response.writeAll_nil hnodup]
  rfl

/-- **A call of the batch takes every response apart.** -/
theorem Assembled.takesApart : batch.TakesApart call := by
  have hroot := h.demultiplex_eq hindices hmem
  have hsame : (∀ selection ∈ call.operation.selections, selection.key? ≠ none) →
      ∀ members others : List (String × Json),
        (∀ key ∈ responseKeys call.operation.selections,
          Assoc.get? members (batch.mapping.servedKey call.index (.child .root key)) =
            Assoc.get? others (batch.mapping.servedKey call.index (.child .root key))) →
        Response.demultiplex batch.mapping call.index (.object members) =
          Response.demultiplex batch.mapping call.index (.object others) := by
    intro hfields members others hserved
    rw [hroot hfields, hroot hfields]
    refine congrArg Json.object (List.map_congr_left fun key hkey => ?_)
    rw [given, given, hserved key hkey]
  constructor
  case listed => exact h.filter_keys_entries hindices hmem
  case served => exact fun path key hkey => h.exists_served hindices hmem hkey
  case list => exact fun items path => Response.rebuild_array _ _ items path
  case object => exact fun members path => ⟨_, rfl, h.overlays hindices hmem path members⟩
  case plain =>
    intro value path harray hobject
    cases value with
    | array items => exact absurd rfl (harray items)
    | object members => exact absurd rfl (hobject members)
    | null => rfl
    | bool value => rfl
    | number text => rfl
    | string text => rfl
  case data =>
    intro value hobject
    cases value with
    | object members => exact absurd rfl (hobject members)
    | array items => rfl
    | null => rfl
    | bool value => rfl
    | number text => rfl
    | string text => rfl
  case rootWithFragments =>
    intro hfragments members
    have hselects := (h.selectsFragments_root_iff hindices hmem).mpr hfragments
    refine ⟨_, ?_, h.overlays hindices hmem .root members⟩
    rw [Response.demultiplex, hselects, if_pos rfl]
  case root => exact hroot
  case independent => exact hsame
  case unordered =>
    intro hfields members others hnodup hperm
    exact hsame hfields members others fun key _ => Assoc.get?_eq_of_perm hnodup hperm _

end Assembled

/--
**Any response can be taken apart.**  For every call of a batch that merges, and every value that
is returned as the data of the merged operation, the call sees its own members, wherever the object
that should have them is one, and all else as it is.
-/
theorem takesApart_of_ofCalls {calls : List CallDocument} {batch : MergedBatch}
    (hindices : (calls.map CallDocument.index).Nodup) (hmerge : ofCalls calls = .ok batch) :
    ∀ call ∈ calls, batch.TakesApart call := by
  obtain ⟨registry, operations, merged, hmade⟩ := exists_assembled hmerge
  exact fun call hmem => hmade.takesApart hindices hmem

/-- The second call has its `l.a` from `l.a_1` and its `l.a_1` from `l.b_1`, the third has a
fragment at its root. -/
theorem takesApart_of_ofCalls_crossed :
    ∃ calls batch, callsFrom 0
        ["\x7b l \x7b a b \x7d \x7d", "\x7b l \x7b a(n: 1) a_1: b(n: 2) \x7b c \x7d \x7d \x7d",
          "\x7b l: m ... \x7b d \x7d \x7d"] = .ok calls ∧
      ofCalls calls = .ok batch ∧ (calls.map CallDocument.index).Nodup ∧
      ∀ call ∈ calls, batch.TakesApart call := by
  have hmerged : (mergeQueries
      ["\x7b l \x7b a b \x7d \x7d", "\x7b l \x7b a(n: 1) a_1: b(n: 2) \x7b c \x7d \x7d \x7d",
        "\x7b l: m ... \x7b d \x7d \x7d"]).isOk = true := by
    decide +kernel
  obtain ⟨calls, batch, hcalls, hbatch⟩ := exists_of_mergeQueries hmerged
  have hindices := nodup_callsFrom hcalls
  exact ⟨calls, batch, hcalls, hbatch, hindices, takesApart_of_ofCalls hindices hbatch⟩

example : ((callsFrom 0
      ["\x7b l \x7b a b \x7d \x7d",
        "\x7b l \x7b a(n: 1) a_1: b(n: 2) \x7b c \x7d \x7d \x7d"]).toOption.bind fun calls =>
          (ofCalls calls).toOption.map fun batch =>
            (Response.demultiplex batch.mapping 1 (.object
              [("x", .null),
                ("l", .array [.object [("a", .bool true), ("a_1", .string "s"),
                  ("b_1", .array [.object [("e", .null)], .null])], .object []])])).compact) =
    some ("\x7b\"l\":[\x7b\"a\":\"s\",\"a_1\":[\x7b\"e\":null,\"c\":null\x7d,null]," ++
      "\"b_1\":[\x7b\"e\":null\x7d,null]\x7d,\x7b\"a\":null,\"a_1\":null\x7d]\x7d") := by
  decide +kernel

end MergedBatch

end QueryBatching
