/-
The variables of different calls stay apart.

A variable has the number of its call in front of its name, so no two calls have one in common.
The values supplied for them therefore never meet, and two fields whose arguments refer to
variables have different arguments if they are fields of different calls: they do not share a
place in the merged operation, and the mapping takes only one call to it.
-/
import QueryBatching.Proofs.Document.References
import QueryBatching.Proofs.Response.FieldPaths

namespace QueryBatching

open Selection (fieldsAt)

/-! ### Values -/

namespace CallVariables

/-- The values under the merged names of their variables. -/
def named (given : CallVariables) : List (String × Json) :=
  given.values.map fun (name, value) => (variableName given.call name, value)

theorem keys_named (given : CallVariables) :
    Assoc.keys given.named = (Assoc.keys given.values).map (variableName given.call) := by
  unfold named Assoc.keys
  rw [List.map_map, List.map_map]
  rfl

/-- Different names in a call, and different calls, make different merged names. -/
theorem nodup_keys_named {supplied : List CallVariables}
    (hcalls : (supplied.map CallVariables.call).Nodup)
    (hnames : ∀ given ∈ supplied, (Assoc.keys given.values).Nodup) :
    (Assoc.keys (supplied.flatMap named)).Nodup := by
  rw [Assoc.keys, List.map_flatMap, List.nodup_flatMap]
  constructor
  · intro given hmem
    change (Assoc.keys given.named).Nodup
    rw [keys_named]
    exact (hnames given hmem).map fun _ _ h => (variableName_injective h).2
  · rw [List.Nodup, List.pairwise_map] at hcalls
    refine hcalls.imp fun {given other} hne => ?_
    change List.Disjoint (Assoc.keys given.named) (Assoc.keys other.named)
    rw [keys_named, keys_named]
    intro key hkey hkey'
    obtain ⟨name, -, rfl⟩ := List.mem_map.mp hkey
    obtain ⟨name', -, heq⟩ := List.mem_map.mp hkey'
    exact hne (variableName_injective heq).1.symm

end CallVariables

/-- Values whose names differ are all sent, one after another. -/
theorem Request.combine_of_nodup {supplied : List CallVariables}
    (hcalls : (supplied.map CallVariables.call).Nodup)
    (hnames : ∀ given ∈ supplied, (Assoc.keys given.values).Nodup) :
    combine supplied = supplied.flatMap CallVariables.named :=
  Assoc.foldl_insert_of_nodup [] (CallVariables.nodup_keys_named hcalls hnames)

/-! ### Fields -/

namespace MergedBatch

variable {calls : List CallDocument} {batch : MergedBatch}

/-- A field of a merged operation, at the end of a path, that is made of one call's fields and
of no other's: its arguments are theirs, and they refer to that call's variables. -/
structure OwnedBy (batch : MergedBatch) (call : CallDocument) (keys : List String)
    (target : Field) : Prop where
  /-- The call has fields that are taken there, and their arguments are the field's. -/
  contributes : ∃ own, batch.mapping.get? call.index own = some ⟨keys⟩ ∧
    fieldsAt call.operation.selections own.keys ≠ [] ∧
    ∀ found ∈ fieldsAt call.operation.selections own.keys,
      target.arguments = (found.1.mapVariables (variableName call.index)).arguments
  /-- Every variable in the arguments is one of the call. -/
  references : ∀ name ∈ target.argumentReferences, ∃ own, name = variableName call.index own
  /-- No other call is taken there. -/
  alone : ∀ index own, batch.mapping.get? index own = some ⟨keys⟩ → index = call.index

section Assembled

variable {registry : FragmentRegistry} {operations : List (Nat × Operation)}
  {merged : MergedSelections}

/-- What the mapping has entries for is a call of the batch. -/
theorem Assembled.exists_call_of_get? (h : Assembled calls batch registry operations merged)
    {index : Nat} {own place : FieldPath} (hget : batch.mapping.get? index own = some place) :
    ∃ call ∈ calls, call.index = index := by
  obtain ⟨hplaced, -, -⟩ := h.leads_of_get? hget
  obtain ⟨contribution, hin, hindex⟩ := h.merges.exists_call hplaced
  have hoperations : operations = (prepare {} calls).2 := by rw [h.made]
  rw [hoperations] at hin
  obtain ⟨call, hmem, hcall⟩ := exists_call_of_rootContributions hin
  exact ⟨call, hmem, hcall.trans hindex⟩

/-- A field that a call is taken to has the arguments of the call's fields. -/
theorem MadeOf.contributes (h : MadeOf calls batch registry operations merged)
    (hindices : (calls.map CallDocument.index).Nodup) {call : CallDocument} (hmem : call ∈ calls)
    {own : FieldPath} {keys : List String}
    (hget : batch.mapping.get? call.index own = some ⟨keys⟩) {target : Field × List Selection}
    (htarget : target ∈ fieldsAt batch.operation.selections keys) :
    fieldsAt call.operation.selections own.keys ≠ [] ∧
      ∀ found ∈ fieldsAt call.operation.selections own.keys,
        target.1.arguments = (found.1.mapVariables (variableName call.index)).arguments := by
  have hexact := h.mapsExactly hindices hmem
  have hentry : own ∈ Assoc.keys (batch.mapping.entries call.index) := by
    rw [← Assoc.contains_iff_mem_keys, PathMapping.contains_entries, hget]
    rfl
  refine ⟨(hexact.mem_iff own).mp hentry, fun found hfound => ?_⟩
  obtain ⟨one, nested, hone, hsame⟩ := hexact.reached hget
  obtain rfl : target = (one, nested) := by
    rw [hone] at htarget
    exact List.mem_singleton.mp htarget
  exact h.arguments_eq hmem htarget hfound (hsame found hfound).2

/-- All variables of a field that a call is taken to are the call's. -/
theorem MadeOf.exists_argumentReferences_eq (h : MadeOf calls batch registry operations merged)
    (hindices : (calls.map CallDocument.index).Nodup) {call : CallDocument} (hmem : call ∈ calls)
    {own : FieldPath} {keys : List String}
    (hget : batch.mapping.get? call.index own = some ⟨keys⟩) {target : Field × List Selection}
    (htarget : target ∈ fieldsAt batch.operation.selections keys) :
    ∃ names : List String, target.1.argumentReferences = names.map (variableName call.index) := by
  obtain ⟨hne, harguments⟩ := h.contributes hindices hmem hget htarget
  obtain ⟨found, hfound⟩ := List.exists_mem_of_ne_nil _ hne
  refine ⟨found.1.argumentReferences, ?_⟩
  rw [← Field.argumentReferences_mapVariables, Field.argumentReferences, harguments found hfound]
  rfl

/-- **A field whose arguments refer to a variable is one call's.** -/
theorem MadeOf.exists_ownedBy (h : MadeOf calls batch registry operations merged)
    (hindices : (calls.map CallDocument.index).Nodup) {keys : List String}
    {target : Field × List Selection}
    (htarget : target ∈ fieldsAt batch.operation.selections keys)
    (hvariables : target.1.argumentReferences ≠ []) :
    ∃ call ∈ calls, batch.OwnedBy call keys target.1 := by
  obtain ⟨call, hmem, own, hget⟩ := h.exists_get?_eq_some (List.ne_nil_of_mem htarget)
  obtain ⟨hne, harguments⟩ := h.contributes hindices hmem hget htarget
  obtain ⟨names, hnames⟩ := h.exists_argumentReferences_eq hindices hmem hget htarget
  refine ⟨call, hmem, ⟨own, hget, hne, harguments⟩, fun name hname => ?_,
    fun index other hget' => ?_⟩
  · rw [hnames] at hname
    obtain ⟨own, -, rfl⟩ := List.mem_map.mp hname
    exact ⟨own, rfl⟩
  · obtain ⟨call', hmem', rfl⟩ := h.exists_call_of_get? hget'
    obtain ⟨names', hnames'⟩ := h.exists_argumentReferences_eq hindices hmem' hget' htarget
    obtain ⟨name, hname⟩ := List.exists_mem_of_ne_nil _ hvariables
    obtain ⟨_, -, rfl⟩ := List.mem_map.mp (hnames ▸ hname)
    obtain ⟨_, -, heq⟩ := List.mem_map.mp (hnames' ▸ hname)
    exact (variableName_injective heq).1

end Assembled

/--
**Variables never cross calls.**  The request of a batch has the values that are supplied for its
calls, one after another and each under its merged name, and no two under one.  And where the
arguments of a merged field that is reached through plain fields refer to a variable, the field is
made of the fields of exactly one call, all variables in its arguments are that call's, and the
mapping takes no other call there.
-/
theorem variables_apart (hparsed : ∀ call ∈ calls, call.IsParsed)
    (hindices : (calls.map CallDocument.index).Nodup) {supplied : List CallVariables}
    (hcalls : (supplied.map CallVariables.call).Nodup)
    (hnames : ∀ given ∈ supplied, (Assoc.keys given.values).Nodup) :
    (∀ batch, (Request.ofBatch batch supplied).values =
        supplied.flatMap (fun given => given.values.map fun (name, value) =>
          (variableName given.call name, value)) ∧
      (Assoc.keys (Request.ofBatch batch supplied).values).Nodup) ∧
    ∀ batch, ofCalls calls = .ok batch → ∀ keys,
      ∀ target ∈ fieldsAt batch.operation.selections keys, target.1.argumentReferences ≠ [] →
        ∃! call, call ∈ calls ∧ batch.OwnedBy call keys target.1 := by
  constructor
  · intro batch
    have hcombined : (Request.ofBatch batch supplied).values =
        supplied.flatMap CallVariables.named := Request.combine_of_nodup hcalls hnames
    refine ⟨hcombined, ?_⟩
    rw [hcombined]
    exact CallVariables.nodup_keys_named hcalls hnames
  · intro batch hmerge keys target htarget hvariables
    obtain ⟨registry, operations, merged, hmade⟩ := exists_madeOf hparsed hmerge
    obtain ⟨call, hmem, howned⟩ := hmade.exists_ownedBy hindices htarget hvariables
    refine ⟨call, ⟨hmem, howned⟩, fun other hother => ?_⟩
    obtain ⟨own, hget, -⟩ := hother.2.contributes
    exact List.inj_on_of_nodup_map hindices hother.1 hmem (howned.alone _ _ hget)

/-- Two calls that give the same field a variable inside an object, and values for names that
would meet without the numbers in front. -/
theorem variables_apart_pair :
    ∃ calls batch, callsFrom 0
        ["query($v: Int) \x7b a(x: \x7b y: [$v] \x7d) \x7b b \x7d \x7d",
          "query($v: Int) \x7b a(x: \x7b y: [$v] \x7d) \x7b b \x7d \x7d"] = .ok calls ∧
      ofCalls calls = .ok batch ∧
      (Request.ofBatch batch [⟨1, [("2_x", .null)]⟩, ⟨12, [("x", .null)]⟩]).values =
        [("c1_2_x", .null), ("c12_x", .null)] ∧
      ∀ keys, ∀ target ∈ fieldsAt batch.operation.selections keys,
        target.1.argumentReferences ≠ [] →
          ∃! call, call ∈ calls ∧ batch.OwnedBy call keys target.1 := by
  have hmerged : (mergeQueries
      ["query($v: Int) \x7b a(x: \x7b y: [$v] \x7d) \x7b b \x7d \x7d",
        "query($v: Int) \x7b a(x: \x7b y: [$v] \x7d) \x7b b \x7d \x7d"]).isOk = true := by
    decide +kernel
  obtain ⟨calls, batch, hcalls, hbatch⟩ := exists_of_mergeQueries hmerged
  have hgiven : (([⟨1, [("2_x", .null)]⟩, ⟨12, [("x", .null)]⟩] : List CallVariables).map
      CallVariables.call).Nodup := by decide
  obtain ⟨hvalues, howned⟩ := variables_apart (isParsed_of_callsFrom hcalls)
    (nodup_callsFrom hcalls) hgiven (by decide)
  exact ⟨calls, batch, hcalls, hbatch, (hvalues batch).1.trans rfl, howned batch hbatch⟩

end MergedBatch

end QueryBatching
