/-
The variables of a call under their merged names.

A document is said in full by two things: the names of its variables, in the order in which they
are declared and referred to, and what is left when these names are erased.  A renaming reaches
the whole document if it changes the first name by name and leaves the second alone.  Fragments
are renamed so, and operations up to the default values of what they declare: a variable that a
default refers to keeps the name it had.
-/
import Mathlib.Data.List.Flatten
import QueryBatching.Merge.Batch
import QueryBatching.Proofs.Document.References
import QueryBatching.Proofs.Outcomes

namespace QueryBatching

/-! ### Names of variables -/

/-- The variables a declaration names: the one it declares, and those that its default value and
its directives refer to. -/
def VariableDefinition.mentions (definition : VariableDefinition) : List String :=
  definition.name :: ((definition.default?.map Value.references).getD [] ++
    definition.directives.flatMap Directive.references)

/-- The variables an operation names, in its declarations and everywhere else. -/
def Operation.mentions (operation : Operation) : List String :=
  operation.declarations.flatMap VariableDefinition.mentions ++ operation.references

/-! ### What is left without them -/

namespace Value

mutual

/-- The value with the names of its variables erased. -/
def erased : Value → Value
  | .var _ => .var ""
  | .list items => .list (erasedItems items)
  | .object fields => .object (erasedFields fields)
  | value => value

/-- The items of a list with the names of their variables erased. -/
def erasedItems : List Value → List Value
  | [] => []
  | item :: rest => erased item :: erasedItems rest

/-- The fields of an object with the names of their variables erased. -/
def erasedFields : List (String × Value) → List (String × Value)
  | [] => []
  | (name, value) :: rest => (name, erased value) :: erasedFields rest

end

theorem erasedItems_eq (items : List Value) : erasedItems items = items.map erased := by
  induction items with
  | nil => rfl
  | cons item rest ih => rw [erasedItems, ih, List.map_cons]

theorem erasedFields_eq (fields : List (String × Value)) :
    erasedFields fields = fields.map fun field => (field.1, field.2.erased) := by
  induction fields with
  | nil => rfl
  | cons field rest ih => rw [erasedFields, ih, List.map_cons]

end Value

/-- The argument with the names of its variables erased. -/
def Argument.erased (argument : Argument) : Argument :=
  ⟨argument.name, argument.value.erased⟩

/-- The directive with the names of its variables erased. -/
def Directive.erased (directive : Directive) : Directive :=
  ⟨directive.name, directive.arguments.map Argument.erased⟩

/-- The field with the names of its variables erased. -/
def Field.erased (field : Field) : Field :=
  ⟨field.alias?, field.name, field.arguments.map Argument.erased,
    field.directives.map Directive.erased⟩

namespace Selection

mutual

/-- The selection with the names of its variables erased. -/
def erased : Selection → Selection
  | .field head none => .field head.erased none
  | .field head (some nested) => .field head.erased (some (erasedAll nested))
  | .spread name directives => .spread name (directives.map Directive.erased)
  | .inlineFragment condition? directives nested =>
    .inlineFragment condition? (directives.map Directive.erased) (erasedAll nested)

/-- The selections with the names of their variables erased. -/
def erasedAll : List Selection → List Selection
  | [] => []
  | selection :: rest => erased selection :: erasedAll rest

end

theorem erasedAll_eq (selections : List Selection) :
    erasedAll selections = selections.map erased := by
  induction selections with
  | nil => rfl
  | cons selection rest ih => rw [erasedAll, ih, List.map_cons]

end Selection

/-- The declaration with the names of its variables erased. -/
def VariableDefinition.erased (definition : VariableDefinition) : VariableDefinition :=
  ⟨"", definition.type, definition.default?.map Value.erased,
    definition.directives.map Directive.erased⟩

/-- The operation with the names of its variables erased. -/
def Operation.erased (operation : Operation) : Operation :=
  ⟨operation.kind, operation.name?, operation.declarations.map VariableDefinition.erased,
    operation.directives.map Directive.erased, Selection.erasedAll operation.selections,
    operation.position⟩

/-- The fragment with the names of its variables erased. -/
def Fragment.erased (fragment : Fragment) : Fragment :=
  ⟨fragment.name, fragment.condition, fragment.directives.map Directive.erased,
    Selection.erasedAll fragment.selections, fragment.position⟩

/-! ### Renaming throughout -/

/-- The operation after is the one before with all its variables renamed: each that is declared,
and each that is referred to anywhere.  Nothing else is different. -/
def Operation.RenamedThroughout (rename : String → String) (before after : Operation) : Prop :=
  after.mentions = before.mentions.map rename ∧ after.erased = before.erased

/-- The fragment after is the one before with all its variables renamed; a fragment declares none.
-/
def Fragment.RenamedThroughout (rename : String → String) (before after : Fragment) : Prop :=
  after.references = before.references.map rename ∧ after.erased = before.erased

section Renaming

variable (rename : String → String)

/-! ### What is left stays -/

theorem Value.erased_mapVariables (value : Value) :
    (value.mapVariables rename).erased = value.erased := by
  induction value using Value.induction with
  | list items ih =>
      rw [mapVariables, erased, erased, mapItems_eq, erasedItems_eq, erasedItems_eq, List.map_map]
      exact congrArg Value.list (List.map_congr_left ih)
  | object fields ih =>
      rw [mapVariables, erased, erased, mapFields_eq, erasedFields_eq, erasedFields_eq,
        List.map_map]
      exact congrArg Value.object (List.map_congr_left fun field hfield =>
        congrArg (field.1, ·) (ih field hfield))
  | var name => rfl
  | int text => rfl
  | float text => rfl
  | string text => rfl
  | enum name => rfl
  | bool value => rfl
  | null => rfl

theorem Argument.map_erased_mapVariables (arguments : List Argument) :
    (arguments.map (mapVariables rename)).map erased = arguments.map erased := by
  rw [List.map_map]
  exact List.map_congr_left fun argument _ =>
    congrArg (Argument.mk argument.name) (argument.value.erased_mapVariables rename)

theorem Directive.map_erased_mapVariables (directives : List Directive) :
    (directives.map (mapVariables rename)).map erased = directives.map erased := by
  rw [List.map_map]
  exact List.map_congr_left fun directive _ =>
    congrArg (Directive.mk directive.name)
      (Argument.map_erased_mapVariables rename directive.arguments)

theorem Field.erased_mapVariables (field : Field) :
    (field.mapVariables rename).erased = field.erased := by
  rw [erased, erased, mapVariables, Argument.map_erased_mapVariables,
    Directive.map_erased_mapVariables]

namespace Selection

theorem erased_mapVariables (selection : Selection) :
    (selection.mapVariables rename).erased = selection.erased := by
  have hnested : ∀ nested : List Selection, (∀ inner ∈ nested,
      (inner.mapVariables rename).erased = inner.erased) →
      erasedAll (mapVariablesAll rename nested) = erasedAll nested := by
    intro nested ih
    rw [mapVariablesAll_eq, erasedAll_eq, erasedAll_eq, List.map_map]
    exact List.map_congr_left ih
  induction selection using Selection.induction with
  | leaf head => rw [mapVariables, erased, erased, Field.erased_mapVariables]
  | field head nested ih =>
      rw [mapVariables, erased, erased, Field.erased_mapVariables, hnested nested ih]
  | spread name directives =>
      rw [mapVariables, erased, erased, Directive.map_erased_mapVariables]
  | inlineFragment condition? directives nested ih =>
      rw [mapVariables, erased, erased, Directive.map_erased_mapVariables, hnested nested ih]

theorem erasedAll_mapVariablesAll (selections : List Selection) :
    erasedAll (mapVariablesAll rename selections) = erasedAll selections := by
  rw [mapVariablesAll_eq, erasedAll_eq, erasedAll_eq, List.map_map]
  exact List.map_congr_left fun selection _ => erased_mapVariables rename selection

end Selection

/-- Nothing but names changes in an operation when its variables are renamed. -/
theorem Operation.erased_mapVariables (operation : Operation) :
    (operation.mapVariables rename).erased = operation.erased := by
  have hdeclarations : (operation.declarations.map (VariableDefinition.mapVariables rename)).map
      VariableDefinition.erased = operation.declarations.map VariableDefinition.erased := by
    rw [List.map_map]
    refine List.map_congr_left fun definition _ => ?_
    exact congrArg (VariableDefinition.mk "" definition.type (definition.default?.map Value.erased))
      (Directive.map_erased_mapVariables rename definition.directives)
  rw [erased, erased, mapVariables, hdeclarations, Directive.map_erased_mapVariables,
    Selection.erasedAll_mapVariablesAll]

/-- Nothing but names changes in a fragment when its variables are renamed. -/
theorem Fragment.erased_mapVariables (fragment : Fragment) :
    (fragment.mapVariables rename).erased = fragment.erased := by
  rw [erased, erased, mapVariables, Directive.map_erased_mapVariables,
    Selection.erasedAll_mapVariablesAll]

/-! ### Names change one by one -/

theorem Directive.references_map (directives : List Directive) :
    (directives.map (mapVariables rename)).flatMap references =
      (directives.flatMap references).map rename := by
  rw [List.flatMap_map, List.map_flatMap]
  refine List.flatMap_congr fun directive _ => ?_
  unfold references
  rw [mapVariables, List.flatMap_map, List.map_flatMap]
  exact List.flatMap_congr fun argument _ => argument.value.references_mapVariables rename

theorem Field.references_mapVariables (field : Field) :
    (field.mapVariables rename).references = field.references.map rename := by
  rw [references, references, argumentReferences_mapVariables, List.map_append, mapVariables,
    Directive.references_map]

namespace Selection

theorem references_mapVariables (selection : Selection) :
    (selection.mapVariables rename).references = selection.references.map rename := by
  have hnested : ∀ nested : List Selection, (∀ inner ∈ nested,
      (inner.mapVariables rename).references = inner.references.map rename) →
      referencesOfAll (mapVariablesAll rename nested) = (referencesOfAll nested).map rename := by
    intro nested ih
    rw [mapVariablesAll_eq, referencesOfAll_eq, referencesOfAll_eq, List.flatMap_map,
      List.map_flatMap]
    exact List.flatMap_congr ih
  induction selection using Selection.induction with
  | leaf head => rw [mapVariables, references, references, Field.references_mapVariables]
  | field head nested ih =>
      rw [mapVariables, references, references, Field.references_mapVariables, hnested nested ih,
        List.map_append]
  | spread name directives => rw [mapVariables, references, references, Directive.references_map]
  | inlineFragment condition? directives nested ih =>
      rw [mapVariables, references, references, Directive.references_map, hnested nested ih,
        List.map_append]

theorem referencesOfAll_mapVariablesAll (selections : List Selection) :
    referencesOfAll (mapVariablesAll rename selections) =
      (referencesOfAll selections).map rename := by
  rw [mapVariablesAll_eq, referencesOfAll_eq, referencesOfAll_eq, List.flatMap_map,
    List.map_flatMap]
  exact List.flatMap_congr fun selection _ => references_mapVariables rename selection

end Selection

theorem Operation.references_mapVariables (operation : Operation) :
    (operation.mapVariables rename).references = operation.references.map rename := by
  rw [references, references, mapVariables, Directive.references_map,
    Selection.referencesOfAll_mapVariablesAll, List.map_append]

theorem Fragment.references_mapVariables (fragment : Fragment) :
    (fragment.mapVariables rename).references = fragment.references.map rename := by
  rw [references, references, mapVariables, Directive.references_map,
    Selection.referencesOfAll_mapVariablesAll, List.map_append]

/-! ### Up to default values -/

/-- A declaration's names change one by one where its default refers to nothing. -/
theorem VariableDefinition.mentions_mapVariables_eq_iff (definition : VariableDefinition) :
    (definition.mapVariables rename).mentions = definition.mentions.map rename ↔
      ∀ value ∈ definition.default?, ∀ name ∈ value.references, rename name = name := by
  rw [mentions, mentions, mapVariables, Directive.references_map, List.map_cons,
    List.cons.injEq, List.map_append, List.append_left_inj, and_iff_right rfl]
  cases definition.default? with
  | none => simp
  | some value =>
      simp only [Option.map_some, Option.getD_some, Option.mem_def, Option.some.injEq,
        forall_eq']
      conv_lhs => lhs; rw [← List.map_id value.references]
      rw [List.map_eq_map_iff]
      exact forall₂_congr fun name _ => eq_comm

/-- As many names are mentioned by a declaration whether they change or not. -/
theorem VariableDefinition.length_mentions_mapVariables (definition : VariableDefinition) :
    (definition.mapVariables rename).mentions.length = definition.mentions.length := by
  rw [mentions, mentions, mapVariables, Directive.references_map, List.length_cons,
    List.length_cons, List.length_append, List.length_append, List.length_map]

/-- An operation's names change one by one where no default refers to a name that would change. -/
theorem Operation.mentions_mapVariables_eq_iff (operation : Operation) :
    (operation.mapVariables rename).mentions = operation.mentions.map rename ↔
      ∀ definition ∈ operation.declarations, ∀ value ∈ definition.default?,
        ∀ name ∈ value.references, rename name = name := by
  have hdeclarations : (operation.mapVariables rename).declarations =
      operation.declarations.map (VariableDefinition.mapVariables rename) := rfl
  rw [mentions, mentions, references_mapVariables, List.map_append, List.append_left_inj,
    hdeclarations, List.flatMap_map, List.map_flatMap, List.flatMap_def, List.flatMap_def]
  -- Every declaration mentions as many names before and after, so the lists agree piece by piece.
  have hlengths : (operation.declarations.map fun definition =>
        (definition.mapVariables rename).mentions).map List.length =
      (operation.declarations.map fun definition => definition.mentions.map rename).map
        List.length := by
    rw [List.map_map, List.map_map]
    refine List.map_congr_left fun definition _ => ?_
    rw [Function.comp_apply, Function.comp_apply, List.length_map,
      VariableDefinition.length_mentions_mapVariables]
  rw [← (List.eq_iff_flatten_eq.trans (and_iff_left hlengths)), List.map_eq_map_iff]
  exact forall₂_congr fun definition _ => definition.mentions_mapVariables_eq_iff rename

end Renaming

/-! ### Merged names -/

/-- A merged name is longer than the name it is made from. -/
theorem variableName_ne (call : Nat) (name : String) : variableName call name ≠ name := by
  intro heq
  have hlength := congrArg String.length heq
  simp only [variableName, String.length_append] at hlength
  have hmark : "c".length = 1 := rfl
  omega

/--
**Merged names reach all of a call but its default values.**  In an operation every variable that
is declared or referred to is given its merged name, and nothing else is changed, exactly if no
default value of a declaration refers to a variable; in a fragment always.
-/
theorem renamedThroughout_iff (call : Nat) (operation : Operation) (fragment : Fragment) :
    (operation.RenamedThroughout (variableName call)
        (operation.mapVariables (variableName call)) ↔
      ∀ definition ∈ operation.declarations, ∀ value ∈ definition.default?,
        value.references = []) ∧
    fragment.RenamedThroughout (variableName call)
      (fragment.mapVariables (variableName call)) := by
  constructor
  · rw [Operation.RenamedThroughout, and_iff_left (operation.erased_mapVariables _),
      Operation.mentions_mapVariables_eq_iff]
    refine forall₂_congr fun definition _ => forall₂_congr fun value _ => ?_
    rw [List.eq_nil_iff_forall_not_mem]
    exact forall₂_congr fun name _ => iff_false_intro (variableName_ne call name)
  · exact ⟨fragment.references_mapVariables _, fragment.erased_mapVariables _⟩

/-- An operation with a variable in a default value. -/
def defaultedByVariable : String := "query($a: Int, $b: Int = $a) \x7b f(x: $b) \x7d"

/-- **A variable in a default value keeps its name**, which is not declared under that name. -/
theorem not_renamedThroughout_default :
    ∃ document operation, Document.parse defaultedByVariable = .ok document ∧
      operation ∈ document.operations ∧
      ¬operation.RenamedThroughout (variableName 0)
        (operation.mapVariables (variableName 0)) ∧
      ((operation.mapVariables (variableName 0)).declarations.map VariableDefinition.mentions) =
        [["c0_a"], ["c0_b", "a"]] := by
  have hread : (Document.parse defaultedByVariable).map (fun document =>
      document.operations.map fun operation =>
        ((operation.mapVariables (variableName 0)).mentions,
          operation.mentions.map (variableName 0),
          (operation.mapVariables (variableName 0)).declarations.map
            VariableDefinition.mentions)) =
      .ok [(["c0_a", "c0_b", "a", "c0_b"], ["c0_a", "c0_b", "c0_a", "c0_b"],
        [["c0_a"], ["c0_b", "a"]])] := by
    decide +kernel
  obtain ⟨document, hdocument, hoperations⟩ := Outcomes.map_eq_ok.mp hread
  obtain ⟨operation, rest, hsplit, hmentions, -⟩ := List.map_eq_cons_iff.mp hoperations
  simp only [Prod.mk.injEq] at hmentions
  obtain ⟨hafter, hbefore, hdeclared⟩ := hmentions
  refine ⟨document, operation, hdocument, hsplit ▸ List.mem_cons_self, fun hrenamed => ?_,
    hdeclared⟩
  have hsame := hrenamed.1
  rw [hafter, hbefore] at hsame
  exact absurd hsame (by decide)

end QueryBatching
