/-
The variables a document refers to.

A value refers to a variable itself or in its items and fields, and everything else refers to
the variables of the values in it.  Renaming variables renames what is referred to and nothing
else: the references of a renamed value are the renamed ones, and a renaming that leaves them
alone leaves the value alone.
-/
import Mathlib.Data.List.Basic
import QueryBatching.Proofs.Document.Trees

namespace QueryBatching

/-! ### References -/

namespace Value

mutual

/-- The variables a value refers to, at any depth, in source order. -/
def references : Value → List String
  | .var name => [name]
  | .list items => itemReferences items
  | .object fields => fieldReferences fields
  | _ => []

/-- The variables the items of a list refer to. -/
def itemReferences : List Value → List String
  | [] => []
  | item :: rest => references item ++ itemReferences rest

/-- The variables the fields of an object refer to. -/
def fieldReferences : List (String × Value) → List String
  | [] => []
  | (_, value) :: rest => references value ++ fieldReferences rest

end

theorem itemReferences_eq (items : List Value) :
    itemReferences items = items.flatMap references := by
  induction items with
  | nil => rfl
  | cons item rest ih => rw [itemReferences, ih, List.flatMap_cons]

theorem fieldReferences_eq (fields : List (String × Value)) :
    fieldReferences fields = fields.flatMap fun field => field.2.references := by
  induction fields with
  | nil => rfl
  | cons field rest ih => rw [fieldReferences, ih, List.flatMap_cons]

end Value

/-- The variables an argument refers to. -/
def Argument.references (argument : Argument) : List String := argument.value.references

/-- The variables the arguments of a directive refer to. -/
def Directive.references (directive : Directive) : List String :=
  directive.arguments.flatMap Argument.references

namespace Field

/-- The variables the arguments of a field refer to. -/
def argumentReferences (field : Field) : List String := field.arguments.flatMap Argument.references

/-- The variables a field refers to, in its arguments and its directives. -/
def references (field : Field) : List String :=
  field.argumentReferences ++ field.directives.flatMap Directive.references

end Field

namespace Selection

mutual

/-- The variables a selection refers to, at any depth. -/
def references : Selection → List String
  | .field head none => head.references
  | .field head (some nested) => head.references ++ referencesOfAll nested
  | .spread _ directives => directives.flatMap Directive.references
  | .inlineFragment _ directives nested =>
    directives.flatMap Directive.references ++ referencesOfAll nested

/-- The variables several selections refer to, at any depth. -/
def referencesOfAll : List Selection → List String
  | [] => []
  | selection :: rest => references selection ++ referencesOfAll rest

end

theorem referencesOfAll_eq (selections : List Selection) :
    referencesOfAll selections = selections.flatMap references := by
  induction selections with
  | nil => rfl
  | cons selection rest ih => rw [referencesOfAll, ih, List.flatMap_cons]

end Selection

/-- The variables an operation refers to, those in its declarations apart. -/
def Operation.references (operation : Operation) : List String :=
  operation.directives.flatMap Directive.references ++
    Selection.referencesOfAll operation.selections

/-- The variables a fragment refers to. -/
def Fragment.references (fragment : Fragment) : List String :=
  fragment.directives.flatMap Directive.references ++
    Selection.referencesOfAll fragment.selections

/-! ### Renaming -/

namespace Value

variable (rename : String → String)

/-- The references of a renamed value are the renamed ones. -/
theorem references_mapVariables (value : Value) :
    (value.mapVariables rename).references = value.references.map rename := by
  induction value using Value.induction with
  | list items ih =>
      rw [mapVariables, references, references, mapItems_eq, itemReferences_eq, itemReferences_eq,
        List.flatMap_map, List.map_flatMap]
      exact List.flatMap_congr ih
  | object fields ih =>
      rw [mapVariables, references, references, mapFields_eq, fieldReferences_eq,
        fieldReferences_eq, List.flatMap_map, List.map_flatMap]
      exact List.flatMap_congr ih
  | var name => rfl
  | int text => rfl
  | float text => rfl
  | string text => rfl
  | enum name => rfl
  | bool value => rfl
  | null => rfl

end Value

theorem Field.argumentReferences_mapVariables (rename : String → String) (field : Field) :
    (field.mapVariables rename).argumentReferences = field.argumentReferences.map rename := by
  unfold argumentReferences
  show (field.arguments.map (Argument.mapVariables rename)).flatMap Argument.references = _
  rw [List.flatMap_map, List.map_flatMap]
  exact List.flatMap_congr fun argument _ => argument.value.references_mapVariables rename

/-! ### What a renaming leaves alone -/

/-- Renaming all items of a list leaves the list alone if it leaves each of them alone. -/
theorem map_eq_self_of_references {α : Type} {references : α → List String} {f : α → α}
    {rename : String → String} {items : List α}
    (hitem : ∀ item ∈ items, (∀ name ∈ references item, rename name = name) → f item = item)
    (h : ∀ name ∈ items.flatMap references, rename name = name) : items.map f = items :=
  (List.map_congr_left fun item hmem => hitem item hmem fun name hname =>
    h name (List.mem_flatMap.mpr ⟨item, hmem, hname⟩)).trans (List.map_id items)

section Unchanged

variable {rename : String → String}

theorem Value.mapVariables_eq_self {value : Value}
    (h : ∀ name ∈ value.references, rename name = name) : value.mapVariables rename = value := by
  induction value using Value.induction with
  | var name => rw [mapVariables, h name List.mem_cons_self]
  | list items ih =>
      rw [references, itemReferences_eq] at h
      rw [mapVariables, mapItems_eq, map_eq_self_of_references ih h]
  | object fields ih =>
      rw [references, fieldReferences_eq] at h
      rw [mapVariables, mapFields_eq, map_eq_self_of_references (fun field hfield hnames => ?_) h]
      rw [ih field hfield hnames]
  | int text => rfl
  | float text => rfl
  | string text => rfl
  | enum name => rfl
  | bool value => rfl
  | null => rfl

theorem Argument.mapVariables_eq_self {argument : Argument}
    (h : ∀ name ∈ argument.references, rename name = name) :
    argument.mapVariables rename = argument := by
  rw [mapVariables, Value.mapVariables_eq_self h]

theorem Directive.mapVariables_eq_self {directive : Directive}
    (h : ∀ name ∈ directive.references, rename name = name) :
    directive.mapVariables rename = directive := by
  rw [mapVariables,
    map_eq_self_of_references (fun argument _ => Argument.mapVariables_eq_self) h]

theorem Directive.map_eq_self {directives : List Directive}
    (h : ∀ name ∈ directives.flatMap Directive.references, rename name = name) :
    directives.map (mapVariables rename) = directives :=
  map_eq_self_of_references (fun _ _ => mapVariables_eq_self) h

theorem Field.mapVariables_eq_self {field : Field}
    (h : ∀ name ∈ field.references, rename name = name) : field.mapVariables rename = field := by
  obtain ⟨harguments, hdirectives⟩ := List.forall_mem_append.mp h
  rw [mapVariables, Directive.map_eq_self hdirectives,
    map_eq_self_of_references (fun argument _ => Argument.mapVariables_eq_self) harguments]

namespace Selection

/-- **A renaming that leaves the references of a selection alone leaves the selection alone.** -/
theorem mapVariables_eq_self {selection : Selection}
    (h : ∀ name ∈ selection.references, rename name = name) :
    selection.mapVariables rename = selection := by
  induction selection using Selection.induction with
  | leaf head => rw [mapVariables, Field.mapVariables_eq_self h]
  | field head nested ih =>
      obtain ⟨hhead, hnested⟩ := List.forall_mem_append.mp h
      rw [referencesOfAll_eq] at hnested
      rw [mapVariables, Field.mapVariables_eq_self hhead, mapVariablesAll_eq,
        map_eq_self_of_references ih hnested]
  | spread name directives => rw [mapVariables, Directive.map_eq_self h]
  | inlineFragment condition? directives nested ih =>
      obtain ⟨hdirectives, hnested⟩ := List.forall_mem_append.mp h
      rw [referencesOfAll_eq] at hnested
      rw [mapVariables, Directive.map_eq_self hdirectives, mapVariablesAll_eq,
        map_eq_self_of_references ih hnested]

theorem mapVariablesAll_eq_self {selections : List Selection}
    (h : ∀ name ∈ referencesOfAll selections, rename name = name) :
    mapVariablesAll rename selections = selections := by
  rw [referencesOfAll_eq] at h
  rw [mapVariablesAll_eq]
  exact map_eq_self_of_references (fun _ _ => mapVariables_eq_self) h

end Selection

theorem Fragment.mapVariables_eq_self {fragment : Fragment}
    (h : ∀ name ∈ fragment.references, rename name = name) :
    fragment.mapVariables rename = fragment := by
  obtain ⟨hdirectives, hselections⟩ := List.forall_mem_append.mp h
  rw [mapVariables, Directive.map_eq_self hdirectives,
    Selection.mapVariablesAll_eq_self hselections]

end Unchanged

/-- Renamed spreads leave the references alone. -/
theorem Selection.references_mapSpreads (rename : String → String) (selection : Selection) :
    (selection.mapSpreads rename).references = selection.references := by
  induction selection using Selection.induction with
  | leaf head => rfl
  | field head nested ih =>
      rw [mapSpreads, references, references, mapSpreadsAll_eq, referencesOfAll_eq,
        referencesOfAll_eq, List.flatMap_map]
      exact congrArg _ (List.flatMap_congr ih)
  | spread name directives => rfl
  | inlineFragment condition? directives nested ih =>
      rw [mapSpreads, references, references, mapSpreadsAll_eq, referencesOfAll_eq,
        referencesOfAll_eq, List.flatMap_map]
      exact congrArg _ (List.flatMap_congr ih)

theorem Selection.referencesOfAll_mapSpreadsAll (rename : String → String)
    (selections : List Selection) :
    referencesOfAll (mapSpreadsAll rename selections) = referencesOfAll selections := by
  rw [mapSpreadsAll_eq, referencesOfAll_eq, referencesOfAll_eq, List.flatMap_map]
  exact List.flatMap_congr fun selection _ => references_mapSpreads rename selection

end QueryBatching
