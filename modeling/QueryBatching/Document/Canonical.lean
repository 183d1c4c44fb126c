/-
The canonical text of a document.

Every part of a document has one text: one blank between the items of a selection set,
a comma and a blank between the items of any other list, no trailing separators, and
scalars as they were written.  Two documents that say the same have the same canonical
text, whatever blanks, commas and comments their sources had; merging relies on that
when it asks whether two fragments or two spreads are the same.
-/
import QueryBatching.Document.Basic

namespace QueryBatching

namespace Value

mutual

/-- The canonical text of a value. -/
def text : Value → String
  | .var name => "$" ++ name
  | .int text => text
  | .float text => text
  | .string text => text
  | .enum name => name
  | .bool true => "true"
  | .bool false => "false"
  | .null => "null"
  | .list items => "[" ++ ", ".intercalate (itemTexts items) ++ "]"
  | .object fields => "\x7b" ++ ", ".intercalate (fieldTexts fields) ++ "\x7d"

/-- The canonical texts of the items of a list. -/
def itemTexts : List Value → List String
  | [] => []
  | item :: rest => text item :: itemTexts rest

/-- The canonical texts of the fields of an object. -/
def fieldTexts : List (String × Value) → List String
  | [] => []
  | (name, value) :: rest => (name ++ ": " ++ text value) :: fieldTexts rest

end

end Value

namespace Argument

/-- The canonical text of an argument. -/
def text (argument : Argument) : String := argument.name ++ ": " ++ argument.value.text

/-- The canonical text of an argument list: nothing at all when it is empty. -/
def listText : List Argument → String
  | [] => ""
  | arguments => "(" ++ ", ".intercalate (arguments.map text) ++ ")"

end Argument

namespace Directive

/-- The canonical text of a directive. -/
def text (directive : Directive) : String :=
  "@" ++ directive.name ++ Argument.listText directive.arguments

/-- The canonical text of directives after something else: each with a blank before it. -/
def listText (directives : List Directive) : String :=
  String.join (directives.map fun directive => " " ++ directive.text)

end Directive

namespace Field

/-- The canonical text of the argument list. -/
def argumentsText (field : Field) : String := Argument.listText field.arguments

/-- The canonical text of the field without the selections below it. -/
def text (field : Field) : String :=
  (match field.alias? with
    | some key => key ++ ": "
    | none => "") ++
  field.name ++ field.argumentsText ++ Directive.listText field.directives

end Field

namespace Selection

/-- The canonical text of a selection set whose selections have the given texts. -/
def braced : List String → String
  | [] => "\x7b \x7d"
  | texts => "\x7b " ++ " ".intercalate texts ++ " \x7d"

mutual

/-- The canonical text of a selection. -/
def text : Selection → String
  | .field head none => head.text
  | .field head (some nested) => head.text ++ " " ++ braced (texts nested)
  | .spread name directives => "..." ++ name ++ Directive.listText directives
  | .inlineFragment none directives nested =>
    "..." ++ Directive.listText directives ++ " " ++ braced (texts nested)
  | .inlineFragment (some condition) directives nested =>
    "... on " ++ condition ++ Directive.listText directives ++ " " ++ braced (texts nested)

/-- The canonical texts of several selections. -/
def texts : List Selection → List String
  | [] => []
  | selection :: rest => text selection :: texts rest

end

/-- The canonical text of a selection set. -/
def setText (selections : List Selection) : String := braced (texts selections)

end Selection

namespace TypeRef

/-- The canonical text of a type. -/
def text : TypeRef → String
  | .named name => name
  | .list item => "[" ++ item.text ++ "]"
  | .nonNull type => type.text ++ "!"

end TypeRef

namespace VariableDefinition

/-- The canonical text of a variable's declaration. -/
def text (definition : VariableDefinition) : String :=
  "$" ++ definition.name ++ ": " ++ definition.type.text ++
  (match definition.default? with
    | some value => " = " ++ value.text
    | none => "") ++
  Directive.listText definition.directives

/-- The canonical text of a list of declarations: nothing at all when it is empty. -/
def listText : List VariableDefinition → String
  | [] => ""
  | definitions => "(" ++ ", ".intercalate (definitions.map text) ++ ")"

end VariableDefinition

namespace OperationKind

/-- The keyword of the kind. -/
def text : OperationKind → String
  | .query => "query"
  | .mutation => "mutation"
  | .subscription => "subscription"

end OperationKind

namespace Operation

/--
What stands between the keyword and the directives: the name and the declared variables.
Without a name, a blank separates the declarations from the keyword.
-/
def header (operation : Operation) : String :=
  match operation.name?, operation.declarations with
  | some name, declarations => " " ++ name ++ VariableDefinition.listText declarations
  | none, [] => ""
  | none, declarations => " " ++ VariableDefinition.listText declarations

/-- The canonical text of an operation. -/
def text (operation : Operation) : String :=
  operation.kind.text ++ operation.header ++ Directive.listText operation.directives ++ " " ++
    Selection.setText operation.selections

end Operation

namespace Fragment

/-- The canonical text of a fragment. -/
def text (fragment : Fragment) : String :=
  "fragment " ++ fragment.name ++ " on " ++ fragment.condition ++
    Directive.listText fragment.directives ++ " " ++ Selection.setText fragment.selections

end Fragment

namespace Definition

/-- The canonical text of a definition. -/
def text : Definition → String
  | .operation found => found.text
  | .fragment found => found.text

end Definition

namespace Document

/-- The canonical text of a document. -/
def text (document : Document) : String :=
  " ".intercalate (document.definitions.map Definition.text)

end Document

end QueryBatching
