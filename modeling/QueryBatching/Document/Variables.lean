/-
Renaming the variables of a document.

A renaming reaches every reference in arguments and directives at any depth, and the
declared names of an operation.  The default value of a declaration is left as it is,
also where it refers to a variable.
-/
import QueryBatching.Document.Basic

namespace QueryBatching

namespace Value

mutual

/-- The value with every variable renamed. -/
def mapVariables (rename : String → String) : Value → Value
  | .var name => .var (rename name)
  | .list items => .list (mapItems rename items)
  | .object fields => .object (mapFields rename fields)
  | value => value

/-- The items of a list with every variable renamed. -/
def mapItems (rename : String → String) : List Value → List Value
  | [] => []
  | item :: rest => mapVariables rename item :: mapItems rename rest

/-- The fields of an object with every variable renamed. -/
def mapFields (rename : String → String) : List (String × Value) → List (String × Value)
  | [] => []
  | (name, value) :: rest => (name, mapVariables rename value) :: mapFields rename rest

end

end Value

namespace Argument

/-- The argument with every variable renamed. -/
def mapVariables (rename : String → String) (argument : Argument) : Argument :=
  { argument with value := argument.value.mapVariables rename }

end Argument

namespace Directive

/-- The directive with every variable renamed. -/
def mapVariables (rename : String → String) (directive : Directive) : Directive :=
  { directive with arguments := directive.arguments.map (Argument.mapVariables rename) }

end Directive

namespace Field

/-- The field with every variable renamed. -/
def mapVariables (rename : String → String) (field : Field) : Field :=
  { field with
    arguments := field.arguments.map (Argument.mapVariables rename),
    directives := field.directives.map (Directive.mapVariables rename) }

end Field

namespace Selection

mutual

/-- The selection with every variable renamed, at any depth. -/
def mapVariables (rename : String → String) : Selection → Selection
  | .field head none => .field (head.mapVariables rename) none
  | .field head (some nested) =>
    .field (head.mapVariables rename) (some (mapVariablesAll rename nested))
  | .spread name directives => .spread name (directives.map (Directive.mapVariables rename))
  | .inlineFragment condition? directives nested =>
    .inlineFragment condition? (directives.map (Directive.mapVariables rename))
      (mapVariablesAll rename nested)

/-- The selections with every variable renamed, at any depth. -/
def mapVariablesAll (rename : String → String) : List Selection → List Selection
  | [] => []
  | selection :: rest => mapVariables rename selection :: mapVariablesAll rename rest

end

end Selection

namespace VariableDefinition

/-- The declaration under its new name, with its directives renamed and its default as it was. -/
def mapVariables (rename : String → String) (definition : VariableDefinition) :
    VariableDefinition :=
  { definition with
    name := rename definition.name,
    directives := definition.directives.map (Directive.mapVariables rename) }

end VariableDefinition

namespace Operation

/-- The operation with every variable renamed, declared and referred to. -/
def mapVariables (rename : String → String) (operation : Operation) : Operation :=
  { operation with
    declarations := operation.declarations.map (VariableDefinition.mapVariables rename),
    directives := operation.directives.map (Directive.mapVariables rename),
    selections := Selection.mapVariablesAll rename operation.selections }

end Operation

namespace Fragment

/-- The fragment with every variable renamed. -/
def mapVariables (rename : String → String) (fragment : Fragment) : Fragment :=
  { fragment with
    directives := fragment.directives.map (Directive.mapVariables rename),
    selections := Selection.mapVariablesAll rename fragment.selections }

end Fragment

end QueryBatching
