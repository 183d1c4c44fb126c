/-
Variables under their merged names have the values they had.

The merged operation declares the variables of every call under names made from the call's
number, and the request supplies values under the same names.  So a variable of a call has in
the merged operation the value it has in the call, supplied or declared, and executing the
call's selections under their merged names gives what executing them as they are gives.
-/
import Mathlib.Data.List.Induction
import QueryBatching.Proofs.Merge.Batch
import QueryBatching.Proofs.Response.Server
import QueryBatching.Request

namespace QueryBatching

universe u

/-! ### Renamed variables -/

namespace Value

/-- Renaming variables before they are replaced is looking them up under their new names. -/
theorem substitute_mapVariables (env : String → Input) (rename : String → String) (value : Value) :
    (value.mapVariables rename).substitute env =
      value.substitute fun name => env (rename name) := by
  induction value using Value.induction with
  | list items ih =>
      rw [mapVariables, substitute, substitute, mapItems_eq, substituteItems_eq,
        substituteItems_eq, List.map_map]
      exact congrArg Input.list (List.map_congr_left ih)
  | object fields ih =>
      rw [mapVariables, substitute, substitute, mapFields_eq, substituteFields_eq,
        substituteFields_eq, List.map_map]
      exact congrArg Input.object (List.map_congr_left fun field hfield =>
        congrArg (field.1, ·) (ih field hfield))
  | var name => rfl
  | int text => rfl
  | float text => rfl
  | string text => rfl
  | enum name => rfl
  | bool value => rfl
  | null => rfl

/-- A value without variables does not depend on them. -/
theorem substitute_of_isConstant {value : Value} (h : value.isConstant = true)
    (env env' : String → Input) : value.substitute env = value.substitute env' := by
  induction value using Value.induction with
  | var name => simp [isConstant] at h
  | list items ih =>
      rw [isConstant, itemsConstant_iff] at h
      rw [substitute, substitute, substituteItems_eq, substituteItems_eq]
      exact congrArg Input.list (List.map_congr_left fun item hitem => ih item hitem (h item hitem))
  | object fields ih =>
      rw [isConstant, fieldsConstant_iff] at h
      rw [substitute, substitute, substituteFields_eq, substituteFields_eq]
      exact congrArg Input.object (List.map_congr_left fun field hfield =>
        congrArg (field.1, ·) (ih field hfield (h field hfield)))
  | int text => rfl
  | float text => rfl
  | string text => rfl
  | enum name => rfl
  | bool value => rfl
  | null => rfl

end Value

namespace Selection

variable (rename : String → String) (selections : List Selection) (key : String)

theorem key?_mapVariables (selection : Selection) :
    (selection.mapVariables rename).key? = selection.key? := by
  cases selection with
  | field head nested? => cases nested? <;> rfl
  | spread name directives => rfl
  | inlineFragment condition? directives nested => rfl

theorem responseKeys_mapVariablesAll :
    responseKeys (mapVariablesAll rename selections) = responseKeys selections := by
  unfold responseKeys
  rw [mapVariablesAll_eq, List.filterMap_map]
  congr 1
  exact List.filterMap_congr fun selection _ => key?_mapVariables rename selection

theorem under?_mapVariables (selection : Selection) :
    (selection.mapVariables rename).under? key =
      (selection.under? key).map fun found =>
        (found.1.mapVariables rename, mapVariablesAll rename found.2) := by
  cases selection with
  | field head nested? =>
      have hkey : (head.mapVariables rename).responseKey = head.responseKey := rfl
      cases nested? with
      | none =>
          rw [mapVariables, under?, under?, hkey]
          split <;> rfl
      | some nested =>
          rw [mapVariables, under?, under?, hkey]
          split <;> rfl
  | spread name directives => rfl
  | inlineFragment condition? directives nested => rfl

theorem fieldsUnder_mapVariablesAll :
    fieldsUnder (mapVariablesAll rename selections) key =
      (fieldsUnder selections key).map fun found =>
        (found.1.mapVariables rename, mapVariablesAll rename found.2) := by
  unfold fieldsUnder
  rw [mapVariablesAll_eq, List.filterMap_map, List.map_filterMap]
  exact List.filterMap_congr fun selection _ => under?_mapVariables rename key selection

theorem selectionsUnder_mapVariablesAll :
    selectionsUnder (mapVariablesAll rename selections) key =
      mapVariablesAll rename (selectionsUnder selections key) := by
  unfold selectionsUnder
  rw [fieldsUnder_mapVariablesAll, List.flatMap_map, mapVariablesAll_eq, List.map_flatMap]
  simp only [mapVariablesAll_eq]

end Selection

/-- Executing renamed selections is looking their variables up under their new names. -/
theorem Server.execute_mapVariablesAll {Node : Type u} (server : Server Node)
    (env : String → Input) (rename : String → String) (selections : List Selection) :
    server.execute env (Selection.mapVariablesAll rename selections) =
      server.execute (fun name => env (rename name)) selections := by
  induction selections using Server.induction with
  | step selections ih =>
      funext node
      rw [execute_eq, execute_eq, Selection.responseKeys_mapVariablesAll]
      refine List.map_congr_left fun key hkey => ?_
      rw [Selection.selectionsUnder_mapVariablesAll, ih key hkey,
        Selection.fieldsUnder_mapVariablesAll]
      cases Selection.fieldsUnder selections key with
      | nil => rfl
      | cons found rest =>
          have harguments : (found.1.mapVariables rename).arguments.map (fun argument =>
              (argument.name, argument.value.substitute env)) =
                found.1.arguments.map fun argument =>
                  (argument.name, argument.value.substitute fun name => env (rename name)) := by
            show (found.1.arguments.map (Argument.mapVariables rename)).map _ = _
            rw [List.map_map]
            refine List.map_congr_left fun argument _ => ?_
            exact congrArg (argument.name, ·)
              (Value.substitute_mapVariables env rename argument.value)
          rw [List.map_cons, fieldValue, fieldValue, harguments]
          rfl

/-! ### Values -/

namespace Request

/-- The values that are supplied for a call, the last one where a name is given several. -/
def valuesOf (supplied : List CallVariables) (call : Nat) : List (String × Json) :=
  ((supplied.filter fun given => given.call = call).flatMap CallVariables.values).foldl
    (fun values (name, value) => Assoc.insert values name value) []

/-- Everything that is supplied: the call, the name and the value. -/
def assignments (supplied : List CallVariables) : List (Nat × String × Json) :=
  supplied.flatMap fun given => given.values.map fun entry => (given.call, entry)

theorem combine_eq (supplied : List CallVariables) :
    combine supplied = (assignments supplied).foldl (fun combined assignment =>
      Assoc.insert combined (variableName assignment.1 assignment.2.1) assignment.2.2) [] := by
  have hnames : (supplied.flatMap fun call =>
      call.values.map fun (name, value) => (variableName call.call name, value)) =
        (assignments supplied).map fun assignment =>
          (variableName assignment.1 assignment.2.1, assignment.2.2) := by
    unfold assignments
    rw [List.map_flatMap]
    refine List.flatMap_congr fun given _ => ?_
    rw [List.map_map]
    rfl
  unfold combine
  rw [hnames, List.foldl_map]

theorem valuesOf_eq (supplied : List CallVariables) (call : Nat) :
    valuesOf supplied call = ((assignments supplied).filter fun assignment =>
      assignment.1 = call).foldl (fun values assignment =>
        Assoc.insert values assignment.2.1 assignment.2.2) [] := by
  have hvalues : (supplied.filter fun given => given.call = call).flatMap
      CallVariables.values = ((assignments supplied).filter fun assignment =>
        assignment.1 = call).map Prod.snd := by
    unfold assignments
    induction supplied with
    | nil => rfl
    | cons given rest ih =>
        rw [List.flatMap_cons, List.filter_append, List.map_append, ← ih]
        by_cases hcall : given.call = call
        · simp [hcall, List.filter_map, Function.comp_def]
        · simp [hcall, List.filter_map, Function.comp_def]
  unfold valuesOf
  rw [hvalues, List.foldl_map]

/-- **A variable is supplied under its merged name** exactly what is supplied for its call. -/
theorem get?_combine (supplied : List CallVariables) (call : Nat) (name : String) :
    Assoc.get? (combine supplied) (variableName call name) =
      Assoc.get? (valuesOf supplied call) name := by
  rw [combine_eq, valuesOf_eq]
  induction assignments supplied using List.reverseRecOn with
  | nil => rfl
  | append_singleton front last ih =>
      obtain ⟨other, own, value⟩ := last
      rw [List.foldl_append, List.foldl_cons, List.foldl_nil, List.filter_append,
        List.foldl_append, Assoc.get?_insert, ih]
      by_cases hcall : other = call
      · subst hcall
        rw [List.filter_cons_of_pos (by simp), List.filter_nil, List.foldl_cons, List.foldl_nil,
          Assoc.get?_insert]
        simp only [eq_iff_iff.mpr (show variableName other own = variableName other name ↔
          own = name from ⟨fun h => (variableName_injective h).2, fun h => h ▸ rfl⟩)]
      · rw [List.filter_cons_of_neg (by simpa using hcall), List.filter_nil, List.foldl_nil,
          if_neg fun h => hcall (variableName_injective h).1]

end Request

/-! ### The merged operation -/

namespace CallDocument

/-- The declarations of a call's variables under their merged names. -/
def ownDeclarations (call : CallDocument) : List VariableDefinition :=
  call.operation.declarations.map (VariableDefinition.mapVariables (variableName call.index))

/-- A call declares a variable under its merged name if it declares it. -/
theorem find?_ownDeclarations (call : CallDocument) (name : String) :
    call.ownDeclarations.find?
        (fun definition => definition.name = variableName call.index name) =
      (call.operation.declarations.find? fun definition => definition.name = name).map
        (VariableDefinition.mapVariables (variableName call.index)) := by
  unfold ownDeclarations
  rw [List.find?_map]
  congr 2
  funext definition
  have hname : variableName call.index definition.name = variableName call.index name ↔
      definition.name = name :=
    ⟨fun h => (variableName_injective h).2, fun h => congrArg _ h⟩
  exact decide_eq_decide.mpr hname

/-- No other call declares a variable under the merged name of one of this call. -/
theorem find?_ownDeclarations_of_ne {call : CallDocument} {index : Nat} (h : call.index ≠ index)
    (name : String) : call.ownDeclarations.find?
      (fun definition => definition.name = variableName index name) = none := by
  rw [List.find?_eq_none]
  intro definition hmem
  obtain ⟨original, -, rfl⟩ := List.mem_map.mp hmem
  have hne : variableName call.index original.name ≠ variableName index name :=
    fun heq => h (variableName_injective heq).1
  exact fun heq => hne (of_decide_eq_true heq)

theorem find?_flatMap_ownDeclarations {calls : List CallDocument}
    (hindices : (calls.map CallDocument.index).Nodup) {call : CallDocument} (hmem : call ∈ calls)
    (name : String) : (calls.flatMap ownDeclarations).find?
        (fun definition => definition.name = variableName call.index name) =
      call.ownDeclarations.find?
        (fun definition => definition.name = variableName call.index name) := by
  induction calls with
  | nil => exact absurd hmem List.not_mem_nil
  | cons first rest ih =>
      rw [List.map_cons, List.nodup_cons] at hindices
      rw [List.flatMap_cons, List.find?_append]
      rcases List.mem_cons.mp hmem with rfl | hmem
      · have hrest : (rest.flatMap ownDeclarations).find?
            (fun definition => definition.name = variableName call.index name) = none := by
          rw [List.find?_flatMap, List.findSome?_eq_none_iff]
          intro other hother
          refine find?_ownDeclarations_of_ne (fun heq => hindices.1 ?_) name
          exact heq ▸ List.mem_map_of_mem hother
        rw [hrest, Option.or_none]
      · have hne : first.index ≠ call.index :=
          fun heq => hindices.1 (heq ▸ List.mem_map_of_mem hmem)
        rw [find?_ownDeclarations_of_ne hne, Option.none_or, ih hindices.2 hmem]

/-- Whether no default value of the call's variables refers to a variable. -/
def constantDefaults (call : CallDocument) : Bool :=
  call.operation.declarations.all fun definition => definition.default?.all Value.isConstant

end CallDocument

namespace MergedBatch

variable {calls : List CallDocument} {batch : MergedBatch} {registry : FragmentRegistry}
  {operations : List (Nat × Operation)} {merged : MergedSelections}

theorem MadeOf.declarations_eq (h : MadeOf calls batch registry operations merged) :
    batch.operation.declarations = calls.flatMap CallDocument.ownDeclarations := by
  rw [h.declarations]
  have hprepared := h.prepared
  clear h
  induction hprepared with
  | nil => rfl
  | cons hcall _ ih =>
      obtain ⟨-, before, -, rfl, -⟩ := hcall
      rw [List.flatMap_cons, List.flatMap_cons, ih]
      rfl

/-- **A variable has under its merged name the value it has in its call.** -/
theorem MadeOf.environment_eq (h : MadeOf calls batch registry operations merged)
    (hindices : (calls.map CallDocument.index).Nodup) {call : CallDocument} (hmem : call ∈ calls)
    (hdefaults : call.constantDefaults = true) (supplied : List CallVariables) (name : String) :
    batch.operation.environment (Request.combine supplied) (variableName call.index name) =
      call.operation.environment (Request.valuesOf supplied call.index) name := by
  unfold Operation.environment
  dsimp only
  rw [Request.get?_combine, h.declarations_eq,
    CallDocument.find?_flatMap_ownDeclarations hindices hmem, CallDocument.find?_ownDeclarations]
  cases Assoc.get? (Request.valuesOf supplied call.index) name with
  | some value => rfl
  | none =>
      cases hfind : call.operation.declarations.find? fun definition => definition.name = name with
      | none => rfl
      | some definition =>
          cases hdefault : definition.default? with
          | none => simp [hdefault, VariableDefinition.mapVariables]
          | some value =>
              have hconstant := List.all_eq_true.mp hdefaults definition
                (List.mem_of_find?_eq_some hfind)
              rw [hdefault] at hconstant
              simpa [hdefault, VariableDefinition.mapVariables] using
                Value.substitute_of_isConstant hconstant _ _

end MergedBatch

end QueryBatching
