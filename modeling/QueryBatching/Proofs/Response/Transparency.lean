/-
Batching is transparent.

A call whose fields are merged with those of others gets from the merged response what it would
have got alone.  The argument goes down the merge level by level.  At each level the server is
asked for one field per slot, and the slot of a call's field has the field's name and arguments,
so the same is resolved; what is selected below is merged again.  Taking the response apart
goes down the same way, since the mapping knows the call's fields below each of its paths.

What a call sees below its root also has members of other calls, so there its values are
included in what it sees and not the same.
-/
import QueryBatching.Proofs.Document.RoundTrip
import QueryBatching.Proofs.Merge.WellFormed
import QueryBatching.Proofs.Response.Inclusion
import QueryBatching.Proofs.Response.Levels
import QueryBatching.Proofs.Response.Plain

namespace QueryBatching

universe u

open Selection (fieldsUnder responseKeys selectionsUnder)
open MergedSelections (AtPath ContributionsLegal HasField Merges Part)

/-! ### One resolution for a slot -/

section Level

variable {room : Nat} {merged : FieldPath} {contributions : List Contribution} {level : Level}
  (hholds : Level.Holds merged (contributions.flatMap Contribution.occurrences) level)
  (hlegal : ContributionsLegal room contributions)

include hholds hlegal

/-- A slot asks for what its fields ask for. -/
theorem Level.Holds.target_eq {signature : FieldSignature} {target : Field}
    {below? : Option (List Contribution)} (hslot : .field signature target below? ∈ level.slots)
    {call : Nat} {head : Field} {nested? : Option (List Selection)}
    (hmem : .field head nested? ∈ selectionsOf call contributions)
    (hsignature : head.signature = signature) :
    head.name = target.name ∧ head.arguments = target.arguments := by
  obtain ⟨contribution, hin, -, hselection⟩ := mem_selectionsOf.mp hmem
  obtain ⟨other, hother, first, nested'?, earlier, hfirst, hsame, rfl⟩ :=
    MergedSelections.exists_field_of_slot hholds hslot
  have hboth := hsignature.trans hsame.symm
  injection hboth with _ hname htext
  exact ⟨hname, Argument.eq_of_listText_eq (hlegal contribution hin _ hselection).head.arguments
    (hlegal other hother _ hfirst).head.arguments htext⟩

end Level

/-- Fields of a key that all ask for the same resolve to that. -/
theorem Server.fieldValue_eq {Node : Type u} (server : Server Node) (env : String → Input)
    (node : Node) (answer : Node → List (String × Json)) {selections : List Selection}
    {key : String} {target : Field} (hkey : key ∈ responseKeys selections)
    (hsame : ∀ head nested?, .field head nested? ∈ selections → head.responseKey = key →
      head.name = target.name ∧ head.arguments = target.arguments) :
    server.fieldValue env node answer (fieldsUnder selections key) =
      (server.resolve node target.name (target.arguments.map fun argument =>
        (argument.name, argument.value.substitute env))).complete answer := by
  cases hfields : fieldsUnder selections key with
  | nil =>
      obtain ⟨head, nested?, hmem, hhead⟩ := Selection.mem_responseKeys.mp hkey
      have hunder : (head, nested?.getD []) ∈ fieldsUnder selections key :=
        List.mem_filterMap.mpr ⟨_, hmem, if_pos hhead⟩
      rw [hfields] at hunder
      exact absurd hunder List.not_mem_nil
  | cons found rest =>
      obtain ⟨head, below⟩ := found
      have hfound : (head, below) ∈ fieldsUnder selections key := hfields ▸ List.mem_cons_self
      obtain ⟨selection, hmem, hunder⟩ := List.mem_filterMap.mp hfound
      cases selection with
      | field own nested? =>
          rw [Selection.under?] at hunder
          split at hunder
          · rename_i hown
            obtain ⟨rfl, -⟩ := Prod.mk.inj (Option.some.inj hunder)
            obtain ⟨hname, harguments⟩ := hsame own nested? hmem hown
            rw [fieldValue, hname, harguments]
          · simp at hunder
      | spread name directives => simp [Selection.under?] at hunder
      | inlineFragment condition? directives nested => simp [Selection.under?] at hunder

/-- The member of a response key that is selected. -/
theorem Server.get?_execute {Node : Type u} (server : Server Node) (env : String → Input)
    {selections : List Selection} (node : Node) {key : String}
    (hkey : key ∈ responseKeys selections) :
    Assoc.get? (server.execute env selections node) key =
      some (server.fieldValue env node (server.execute env (selectionsUnder selections key))
        (fieldsUnder selections key)) := by
  rw [execute_eq]
  refine Assoc.get?_of_mem ?_ (List.mem_map_of_mem hkey)
  rw [Assoc.keys, List.map_map]
  exact (List.map_id _).symm ▸ nodup_eraseDups _

/-! ### Serving a call -/

/--
Taking apart what the merged selections give, for a call at one of its paths, writes what the
call's own selections give: a value under each of their response keys, which includes the own.
-/
structure Serves {Node : Type u} (server : Server Node) (env : String → Input)
    (mapping : PathMapping) (call : Nat) (path : FieldPath) (merged own : List Selection) :
    Prop where
  children : responseKeys own ≠ [] → mapping.hasChildren call path = true
  members : ∀ node base, ∃ values : List (String × Json),
    Response.writeOwn mapping call path
        (Response.fieldValue mapping call
          (Response.rebuildMembers mapping call (server.execute env merged node))
          (server.execute env merged node)) base =
      Response.writeAll base values ∧
    List.Forall₂ (fun seen alone => seen.1 = alone.1 ∧ seen.2.Includes alone.2) values
      (server.execute env own node)

namespace Serves

variable {Node : Type u} {server : Server Node} {env : String → Input} {mapping : PathMapping}
  {call : Nat} {path : FieldPath} {merged own : List Selection}

theorem keys_eq {values : List (String × Json)} {node : Node}
    (h : List.Forall₂ (fun seen alone => seen.1 = alone.1 ∧ seen.2.Includes alone.2) values
      (server.execute env own node)) : Assoc.keys values = responseKeys own := by
  have hkeys : Assoc.keys values = Assoc.keys (server.execute env own node) := by
    generalize server.execute env own node = members at h
    unfold Assoc.keys
    induction h with
    | nil => rfl
    | cons hfirst _ ih => rw [List.map_cons, List.map_cons, hfirst.1, ih]
  rw [hkeys, Server.execute_eq, Assoc.keys, List.map_map]
  exact List.map_id _

/-- Values written over a base include those the call would get alone. -/
theorem includes_writeAll {values : List (String × Json)} {node : Node}
    (h : List.Forall₂ (fun seen alone => seen.1 = alone.1 ∧ seen.2.Includes alone.2) values
      (server.execute env own node)) (hne : responseKeys own ≠ []) (base : List (String × Json)) :
    (Json.object (Response.writeAll base values)).Includes
      (.object (server.execute env own node)) := by
  have hnodup : (Assoc.keys values).Nodup := keys_eq h ▸ nodup_eraseDups _
  refine ⟨_, rfl, fun hnone => ?_, Json.membersInclude_iff.mpr fun entry hentry => ?_⟩
  · rw [Server.execute_eq, List.map_eq_nil_iff] at hnone
    exact absurd hnone hne
  · obtain ⟨⟨key, value⟩, hvalue, rfl, hincludes⟩ := Outcomes.exists_left h hentry
    exact ⟨value, Response.get?_writeAll hnodup hvalue, hincludes⟩

/-- An object of the merged response is seen with all that the call would get there alone. -/
theorem includes_object (h : Serves server env mapping call path merged own)
    (hne : responseKeys own ≠ []) (node : Node) :
    (Response.rebuild mapping call (.object (server.execute env merged node)) path).Includes
      (.object (server.execute env own node)) := by
  obtain ⟨values, hwrite, hvalues⟩ := h.members node (server.execute env merged node)
  have hrebuild : Response.rebuild mapping call (.object (server.execute env merged node)) path =
      .object (Response.writeAll (server.execute env merged node) values) := by
    rw [← hwrite]
    rfl
  rw [hrebuild]
  exact includes_writeAll hvalues hne _

end Serves

/--
A response key of a call is served: the mapping says under which merged key, and what is there,
taken apart for the call, includes what the call would get alone.
-/
def ServesKey {Node : Type u} (server : Server Node) (env : String → Input)
    (mapping : PathMapping) (call : Nat) (path mergedPath : FieldPath)
    (merged own : List Selection) (node : Node) (key : String) : Prop :=
  ∃ served value, mapping.get? call (path.child key) = some (mergedPath.child served) ∧
    Assoc.get? (server.execute env merged node) served = some value ∧
    Json.Includes
      (if mapping.hasChildren call (path.child key) then
        Response.rebuild mapping call value (path.child key) else value)
      (server.fieldValue env node (server.execute env (selectionsUnder own key))
        (fieldsUnder own key))

/-! ### One level -/

namespace MergedSelections

section Step

variable {Node : Type u} {server : Server Node} {env : String → Input} {call room : Nat}
  {merged path : FieldPath} {contributions : List Contribution} {level : Level}
  {parts : List MergedSelections} {all : List Placement}
  {P : FieldPath → List Contribution → MergedSelections → Prop}
  (hholds : Level.Holds merged (contributions.flatMap Contribution.occurrences) level)
  (hparts : List.Forall₂
    (Part (fun path below nested => Merges path below nested ∧ P path below nested) merged)
    level.slots parts)
  (hpath : AtPath call path contributions)
  (hall : all.filter (Placement.isBelow call path) =
    (level.placements ++ parts.flatMap placements).filter (Placement.isBelow call path))
  (hlegal : ContributionsLegal room contributions)

include hholds hparts hpath hall hlegal

/-- A field of the call is found where its slot is, and asks for the same there and alone. -/
theorem exists_resolved (node : Node) {signature : FieldSignature}
    (hfield : HasField call contributions signature) {target : Field}
    {below? : Option (List Contribution)} (hslot : .field signature target below? ∈ level.slots)
    {nested? : Option (List Selection)}
    (hselected : .field target nested? ∈ parts.flatMap selections) :
    (PathMapping.ofPlacements all).get? call (path.child signature.responseKey) =
        some (merged.child target.responseKey) ∧
      ∃ resolved : Resolved Node,
        Assoc.get? (server.execute env (parts.flatMap selections) node) target.responseKey =
          some (resolved.complete (server.execute env (nested?.getD []))) ∧
        server.fieldValue env node
            (server.execute env
              (selectionsUnder (selectionsOf call contributions) signature.responseKey))
            (fieldsUnder (selectionsOf call contributions) signature.responseKey) =
          resolved.complete (server.execute env
            (selectionsUnder (selectionsOf call contributions) signature.responseKey)) := by
  have hunder := fieldsUnder_slot hholds hparts hslot hselected
  have hbelow : selectionsUnder (parts.flatMap selections) target.responseKey =
      nested?.getD [] := by
    rw [selectionsUnder, hunder]
    exact List.append_nil _
  refine ⟨get?_field hholds hparts hpath hall hfield hslot, server.resolve node target.name
    (target.arguments.map fun argument => (argument.name, argument.value.substitute env)), ?_, ?_⟩
  · have hkey := Selection.mem_responseKeys.mpr ⟨_, _, hselected, rfl⟩
    rw [server.get?_execute env node hkey, hunder, hbelow]
    rfl
  · obtain ⟨own, own?, hown, hsignature⟩ := hasField_iff.mp hfield
    have hkey := Selection.mem_responseKeys.mpr
      ⟨own, own?, hown, congrArg FieldSignature.responseKey hsignature⟩
    refine server.fieldValue_eq env node _ hkey fun head head? hmem hkey => ?_
    refine hholds.target_eq hlegal hslot hmem ?_
    exact HasField.unique hholds (hasField_iff.mpr ⟨head, head?, hmem, rfl⟩) hfield hkey

end Step

/-- What is to be shown of a merge: it serves the call, whatever is known of it. -/
def ServesCall {Node : Type u} (server : Server Node) (env : String → Input) (call : Nat)
    (all : List Placement) (contributions : List Contribution) (result : MergedSelections) : Prop :=
  ∀ {room : Nat}, ContributionsLegal room contributions → ∀ {path : FieldPath},
    AtPath call path contributions →
    all.filter (Placement.isBelow call path) =
      result.placements.filter (Placement.isBelow call path) →
    (∀ selection ∈ selectionsOf call contributions, selection.isPlain = true) →
    Serves server env (PathMapping.ofPlacements all) call path result.selections
      (selectionsOf call contributions)

section Step

variable {Node : Type u} {server : Server Node} {env : String → Input} {call room : Nat}
  {merged path : FieldPath} {contributions : List Contribution} {level : Level}
  {parts : List MergedSelections} {all : List Placement}
  (hholds : Level.Holds merged (contributions.flatMap Contribution.occurrences) level)
  (hparts : List.Forall₂
    (Part (fun path below nested => Merges path below nested ∧
      ServesCall server env call all below nested) merged) level.slots parts)
  (hpath : AtPath call path contributions)
  (hall : all.filter (Placement.isBelow call path) =
    (level.placements ++ parts.flatMap placements).filter (Placement.isBelow call path))
  (hlegal : ContributionsLegal room contributions)
  (hplain : ∀ selection ∈ selectionsOf call contributions, selection.isPlain = true)

include hholds hparts hpath hall hlegal

/-- A key of which the call selects a field without selections is served. -/
theorem servesKey_leaf (node : Node) {head : Field}
    (hmem : .field head none ∈ selectionsOf call contributions) :
    ServesKey server env (PathMapping.ofPlacements all) call path merged
      (parts.flatMap selections) (selectionsOf call contributions) node head.responseKey := by
  have hfield : HasField call contributions head.signature :=
    hasField_iff.mpr ⟨head, none, hmem, rfl⟩
  obtain ⟨contribution, hin, -, hselection⟩ := mem_selectionsOf.mp hmem
  have hoccurrence := mem_occurrences.mpr ⟨contribution, hin, _, hselection, rfl⟩
  obtain ⟨target, below?, hslot⟩ := hholds.exists_slot hoccurrence rfl
  have hshape := hholds.shape _ hoccurrence head none rfl
  rw [← hholds.below hslot] at hshape
  obtain rfl : below? = none := Option.isNone_iff_eq_none.mp (by simpa using hshape.symm)
  have hselected : .field target none ∈ parts.flatMap selections := by
    obtain ⟨part, hpart, hbecomes⟩ := Outcomes.exists_right hparts hslot
    cases hbecomes with
    | leaf => exact List.mem_flatMap.mpr ⟨_, hpart, List.mem_cons_self⟩
  obtain ⟨hplace, resolved, hmember, hown⟩ :=
    exists_resolved hholds hparts hpath hall hlegal node hfield hslot hselected
  have hleaf : (PathMapping.ofPlacements all).hasChildren call
      (path.child head.responseKey) = false :=
    hasChildren_of_leaf hholds hparts hpath hall hfield hslot
  refine ⟨target.responseKey, _, hplace, hmember, ?_⟩
  have hnone := selectionsUnder_of_leaf hholds hfield hslot
  rw [hnone] at hown
  change selectionsUnder _ head.responseKey = [] at hnone
  rw [hleaf, hnone]
  exact hown ▸ resolved.includes_complete_nil

include hplain

/-- A key of which the call selects a field with selections is served, since these are. -/
theorem servesKey_nested (node : Node) {head : Field} {nested : List Selection}
    (hmem : .field head (some nested) ∈ selectionsOf call contributions) :
    ServesKey server env (PathMapping.ofPlacements all) call path merged
      (parts.flatMap selections) (selectionsOf call contributions) node head.responseKey := by
  have hfield : HasField call contributions head.signature :=
    hasField_iff.mpr ⟨head, some nested, hmem, rfl⟩
  obtain ⟨contribution, hin, hcall, hselection⟩ := mem_selectionsOf.mp hmem
  obtain ⟨target, below, result, hslot, hin', hbelow, -, hserves, hselected, hplacements⟩ :=
    descend hholds hparts hpath hin hcall hselection
  obtain ⟨hplace, resolved, hmember, hown⟩ :=
    exists_resolved hholds hparts hpath hall hlegal node hfield hslot hselected
  have hsame := selectionsOf_below hholds hfield hbelow
  have hnested : ∀ selection ∈ selectionsOf call below, selection.isPlain = true := by
    intro selection hsel
    rw [hsame] at hsel
    obtain ⟨own, inner, hown, -, hinner⟩ := Selection.mem_selectionsUnder.mp hsel
    exact Selection.isPlain_nested (hplain _ hown) selection hinner
  have hne : responseKeys (selectionsOf call below) ≠ [] := by
    obtain ⟨-, -, hnonempty, -⟩ := hlegal contribution hin _ hselection
    obtain ⟨first, hfirst⟩ := List.exists_mem_of_ne_nil _ hnonempty
    have hfirst' : first ∈ selectionsOf call below :=
      mem_selectionsOf.mpr ⟨_, hin', rfl, hfirst⟩
    exact Selection.responseKeys_ne_nil hfirst' (hnested first hfirst')
  have hserve := hserves (hlegal.below hbelow).1 (hpath.below hbelow)
    ((Placement.filter_isBelow_child hall _).trans hplacements) hnested
  have hchildren : (PathMapping.ofPlacements all).hasChildren call
      (path.child head.responseKey) = true := hserve.children hne
  refine ⟨target.responseKey, _, hplace, hmember, ?_⟩
  rw [if_pos hchildren]
  refine hown ▸ ?_
  rw [← hsame]
  exact Response.includes_rebuild_complete (hserve.includes_object hne) resolved

/-- **Each response key of the call is served.** -/
theorem servesKey (node : Node) {key : String}
    (hkey : key ∈ responseKeys (selectionsOf call contributions)) :
    ServesKey server env (PathMapping.ofPlacements all) call path merged
      (parts.flatMap selections) (selectionsOf call contributions) node key := by
  obtain ⟨head, nested?, hmem, rfl⟩ := Selection.mem_responseKeys.mp hkey
  cases nested? with
  | none => exact servesKey_leaf hholds hparts hpath hall hlegal node hmem
  | some nested => exact servesKey_nested hholds hparts hpath hall hlegal hplain node hmem

end Step

/-- **Merged selections serve every call** whose selections are plain. -/
theorem Merges.serves {Node : Type u} (server : Server Node) (env : String → Input) (call : Nat)
    (all : List Placement) {merged : FieldPath} {contributions : List Contribution}
    {result : MergedSelections} (h : Merges merged contributions result) :
    ServesCall server env call all contributions result := by
  refine Merges.induction
    (P := fun _ contributions result => ServesCall server env call all contributions result) ?_ h
  intro merged contributions level parts aliased hholds hparts room hlegal path hpath hall hplain
  have hmember := servesKey hholds hparts hpath hall hlegal hplain
  refine ⟨fun hne => ?_, fun node base => ?_⟩
  · rw [PathMapping.hasChildren_ofPlacements, ownChildren_eq hholds hparts hpath hall]
    obtain ⟨key, hkey⟩ := List.exists_mem_of_ne_nil _ hne
    exact List.ne_nil_of_mem (List.mem_map_of_mem (List.mem_eraseDups.mp hkey))
  · have hchildren : (PathMapping.ofPlacements all).childrenOf call path =
        (responseKeys (selectionsOf call contributions)).map fun key =>
          (path.child key,
            merged.child ((PathMapping.ofPlacements all).servedKey call (path.child key))) := by
      rw [childrenOf_eq hholds hparts hpath hall, ← List.filterMap_eq_map]
      refine List.filterMap_congr fun key hkey => ?_
      obtain ⟨place, -, hplace, -⟩ := hmember node hkey
      rw [hplace, Function.comp_apply, PathMapping.servedKey_eq hplace]
      rfl
    refine ⟨_, Response.writeOwn_eq hchildren _ base, ?_⟩
    rw [server.execute_eq env (selectionsOf call contributions), List.forall₂_map_left_iff,
      List.forall₂_map_right_iff, List.forall₂_same]
    refine fun key hkey => ⟨rfl, ?_⟩
    obtain ⟨place, value, hplace, hvalue, hincludes⟩ := hmember node hkey
    rw [PathMapping.servedKey_eq hplace, Response.fieldValue_eq hvalue]
    exact hincludes

end MergedSelections

/-! ### Whole batches -/

namespace MergedBatch

section Made

variable {calls : List CallDocument} {batch : MergedBatch} {registry : FragmentRegistry}
  {operations : List (Nat × Operation)} {merged : MergedSelections}

/-- A batch of plain calls selects no fragments at its root. -/
theorem MadeOf.selectsFragments_root (h : MadeOf calls batch registry operations merged)
    (hplain : ∀ call ∈ calls, Selection.allPlain call.operation.selections = true) (call : Nat) :
    batch.mapping.selectsFragments call FieldPath.root = false := by
  rw [h.mapping, Bool.eq_false_iff]
  intro hselects
  have hmarked := (PathMapping.selectsFragments_ofPlacements _ _).mp hselects
  obtain ⟨selection, hselection, hkey⟩ :=
    (h.merges.fragments_iff (atPath_rootContributions operations call)).mp hmarked
  obtain ⟨contribution, hin, -, hselection⟩ := mem_selectionsOf.mp hselection
  exact Selection.key?_ne_none (plain_rootContributions h.prepared hplain contribution hin
    selection hselection) hkey

/-- **The merged operation serves every call**, with its variables under their merged names. -/
theorem MadeOf.serves {Node : Type u} (h : MadeOf calls batch registry operations merged)
    (server : Server Node) (env : String → Input)
    (hindices : (calls.map CallDocument.index).Nodup)
    (hplain : ∀ call ∈ calls, Selection.allPlain call.operation.selections = true)
    {call : CallDocument} (hmem : call ∈ calls) :
    Serves server env batch.mapping call.index FieldPath.root batch.operation.selections
      (Selection.mapVariablesAll (variableName call.index) call.operation.selections) := by
  have hpath : AtPath call.index FieldPath.root (rootContributions operations) :=
    fun contribution hin _ => path_of_mem_rootContributions hin
  have hplainOwn : ∀ selection ∈ selectionsOf call.index (rootContributions operations),
      selection.isPlain = true := by
    intro selection hselection
    obtain ⟨contribution, hin, -, hselection⟩ := mem_selectionsOf.mp hselection
    exact plain_rootContributions h.prepared hplain contribution hin selection hselection
  rw [h.mapping, h.selections, ← selectionsOf_rootContributions h.prepared hplain hindices hmem]
  exact h.merges.serves server env call.index merged.placements h.legal_contributions hpath rfl
    hplainOwn

end Made

/-- A plain call has something to ask for. -/
theorem responseKeys_ne_nil {call : CallDocument} (h : call.IsParsed)
    (hplain : Selection.allPlain call.operation.selections = true) :
    responseKeys call.operation.selections ≠ [] := by
  obtain ⟨first, hfirst⟩ := List.exists_mem_of_ne_nil _ h.legal.operation.selections.ne_nil
  exact Selection.responseKeys_ne_nil hfirst (Selection.allPlain_iff.mp hplain first hfirst)

/--
**Batching is transparent.**  For any server, any batch of plain calls that merge and any
values for their variables: the response to the merged operation, taken apart for a call, is an
object with exactly the response keys of the call, and includes the response that the server
gives to the call's own operation with the call's own values.
-/
theorem demultiplex_respond {Node : Type u} (server : Server Node) {calls : List CallDocument}
    {batch : MergedBatch} (hcalls : ∀ call ∈ calls, call.IsParsed)
    (hindices : (calls.map CallDocument.index).Nodup)
    (hplain : ∀ call ∈ calls, Selection.allPlain call.operation.selections = true)
    (hdefaults : ∀ call ∈ calls, call.constantDefaults = true)
    (hmerge : ofCalls calls = .ok batch) (supplied : List CallVariables) {call : CallDocument}
    (hmem : call ∈ calls) :
    ∃ members,
      Response.demultiplex batch.mapping call.index
          (server.respond batch.operation (Request.ofBatch batch supplied).values) =
        .object members ∧
      Assoc.keys members = responseKeys call.operation.selections ∧
      (Json.object members).Includes
        (server.respond call.operation (Request.valuesOf supplied call.index)) := by
  obtain ⟨registry, operations, merged, hmade⟩ := exists_madeOf hcalls hmerge
  have hserves := hmade.serves server (batch.operation.environment (Request.combine supplied))
    hindices hplain hmem
  obtain ⟨values, hwrite, hvalues⟩ := hserves.members (server.root batch.operation.kind) []
  have hkeys := Serves.keys_eq hvalues
  have hnodup : (Assoc.keys values).Nodup := hkeys ▸ nodup_eraseDups _
  rw [Selection.responseKeys_mapVariablesAll] at hkeys
  have hincludes := Serves.includes_writeAll hvalues (by
    rw [Selection.responseKeys_mapVariablesAll]
    exact responseKeys_ne_nil (hcalls call hmem) (hplain call hmem)) []
  rw [Response.writeAll_nil hnodup] at hwrite hincludes
  refine ⟨values, ?_, hkeys, ?_⟩
  · rw [Server.respond, Response.demultiplex, hmade.selectsFragments_root hplain]
    exact congrArg Json.object hwrite
  -- The call's own variables have the values that the merged ones have under their merged names.
  · have henv : (fun name => batch.operation.environment (Request.combine supplied)
        (variableName call.index name)) =
          call.operation.environment (Request.valuesOf supplied call.index) :=
      funext (hmade.environment_eq hindices hmem (hdefaults call hmem) supplied)
    rw [Server.execute_mapVariablesAll, henv, ← hmade.kind call hmem] at hincludes
    exact hincludes

/-- A server with one node: the field `a` is a list with the node, any other is its name. -/
def listServer : Server Unit where
  root := fun _ => ()
  resolve := fun _ name _ => if name = "a" then .list [.node (), .null] else .string name

/-- Two calls with different fields under one key, the first with a declared default. -/
theorem demultiplex_respond_pair :
    ∃ calls batch, callsFrom 0
        ["query($v: Int = 1) \x7b a(x: $v) \x7b b \x7d \x7d", "\x7b a \x7b b c \x7d \x7d"] =
          .ok calls ∧
      ofCalls calls = .ok batch ∧ ∀ call ∈ calls, ∃ members,
        Response.demultiplex batch.mapping call.index
            (listServer.respond batch.operation (Request.ofBatch batch []).values) =
          .object members ∧
        Assoc.keys members = responseKeys call.operation.selections ∧
        (Json.object members).Includes
          (listServer.respond call.operation (Request.valuesOf [] call.index)) := by
  have hcheck : (match callsFrom 0
        ["query($v: Int = 1) \x7b a(x: $v) \x7b b \x7d \x7d", "\x7b a \x7b b c \x7d \x7d"] with
      | .ok calls =>
        decide (calls.map CallDocument.index).Nodup &&
        calls.all (fun call =>
          Selection.allPlain call.operation.selections && call.constantDefaults) &&
        (ofCalls calls).isOk
      | .error _ => false) = true := by decide +kernel
  split at hcheck
  · rename_i calls hcalls
    rw [Bool.and_eq_true, Bool.and_eq_true, decide_eq_true_eq] at hcheck
    obtain ⟨⟨hindices, hall⟩, hmerge⟩ := hcheck
    have hboth : ∀ call ∈ calls, Selection.allPlain call.operation.selections = true ∧
        call.constantDefaults = true := by
      intro call hmem
      have hcall := List.all_eq_true.mp hall call hmem
      rwa [Bool.and_eq_true] at hcall
    cases hbatch : ofCalls calls with
    | error error =>
        rw [hbatch] at hmerge
        exact absurd hmerge Bool.false_ne_true
    | ok batch =>
        exact ⟨calls, batch, hcalls, hbatch, fun call hmem =>
          demultiplex_respond listServer (isParsed_of_callsFrom hcalls) hindices
            (fun call hmem => (hboth call hmem).1) (fun call hmem => (hboth call hmem).2) hbatch []
            hmem⟩
  · simp at hcheck

end MergedBatch

end QueryBatching
