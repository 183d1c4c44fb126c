/-
Which lists of tokens spell a document.

This is the grammar as a language, apart from any parser: for every part of a document the
set of token lists that spell it, built from single tokens by concatenation.  A part that
no source can spell has the empty set: an empty selection set, a fragment called `on`, a
type that is marked as non-null twice.

Commas mean nothing, and a list may have any number of them before, between and after its
items; `commaList` is the only place where they occur.  Everything else is spelled one
token after another, with two exceptions: the keyword may be missing from a query without
name, variables and directives, and an argument list or a list of declarations that is
empty is spelled by no tokens at all.

Operations and fragments know where they start, so their spellings depend on the position
of their first token, and on no other.
-/
import Mathlib.Computability.Language
import Mathlib.Order.CompletePartialOrder
import QueryBatching.Document.Basic
import QueryBatching.Document.Canonical
import QueryBatching.Token.Basic

namespace QueryBatching

open Token (Kind)

/-! ### Tokens and lists -/

namespace Spelling

/-- One token of a kind, whatever its text. -/
def sign (kind : Kind) : Language Token := {tokens | ∃ t, tokens = [t] ∧ t.kind = kind}

/-- One token of a kind and a text. -/
def word (kind : Kind) (text : String) : Language Token :=
  {tokens | ∃ t, tokens = [t] ∧ t.kind = kind ∧ t.text = text}

/-- Nothing but commas. -/
def commas : Language Token := {tokens | ∀ t ∈ tokens, t.kind = .comma}

/-- Something between two brackets. -/
def enclosed (opening closing : Kind) (inner : Language Token) : Language Token :=
  sign opening * inner * sign closing

/-- Items one after another. -/
def inOrder {α : Type} (spell : α → Language Token) : List α → Language Token
  | [] => 1
  | item :: rest => spell item * inOrder spell rest

/-- Items with any commas around them. -/
def commaList {α : Type} (spell : α → Language Token) : List α → Language Token
  | [] => commas
  | item :: rest => commas * spell item * commaList spell rest

/-- A bracketed list that is left out when it is empty. -/
def parenthesized {α : Type} (spell : α → Language Token) : List α → Language Token
  | [] => 1
  | items => enclosed .parenOpen .parenClose (commaList spell items)

/-- Something that may be left out. -/
def orNothing {α : Type} (spell : α → Language Token) : Option α → Language Token
  | none => 1
  | some item => spell item

/-- A name. -/
def ident (text : String) : Language Token := word .name text

/-- The name of a fragment: any name but `on`. -/
def fragmentName (text : String) : Language Token := if text = "on" then 0 else ident text

/-- A name, a colon, and what follows them. -/
def named (text : String) (rest : Language Token) : Language Token :=
  ident text * sign .colon * rest

/-- Where a list of tokens starts. -/
def start (tokens : List Token) : Position := (tokens.head?.map Token.position).getD {}

theorem mem_sign {kind : Kind} {t : Token} (h : t.kind = kind) : [t] ∈ sign kind := ⟨t, rfl, h⟩

theorem mem_word {kind : Kind} {text : String} {t : Token} (h : t.kind = kind)
    (ht : t.text = text) : [t] ∈ word kind text := ⟨t, rfl, h, ht⟩

theorem mem_mul {L M : Language Token} {first second : List Token} (h : first ∈ L)
    (h' : second ∈ M) : first ++ second ∈ L * M :=
  Language.append_mem_mul h h'

/-- Items with commas around them are items with commas behind each, behind the first commas. -/
theorem commaList_eq {α : Type} (spell : α → Language Token) (items : List α) :
    commaList spell items = commas * inOrder (fun item => spell item * commas) items := by
  induction items with
  | nil => simp only [commaList, inOrder, mul_one]
  | cons item rest ih => simp only [commaList, inOrder, ih, mul_assoc]

/-- Items with commas between them, and any commas before the first and after the last. -/
theorem commaList_cons_eq {α : Type} (L : α → Language Token) (first : α) (rest : List α) :
    commaList L (first :: rest) =
      commas * (L first * inOrder (fun a => commas * L a) rest) *
        commas := by
  induction rest generalizing first with
  | nil => simp only [inOrder, commaList, mul_one]
  | cons next rest ih =>
      rw [commaList, ih next]
      simp only [inOrder, mul_assoc]

end Spelling

open Spelling

/-! ### Values, arguments and directives -/

namespace Value

mutual

/-- The spellings of a value. -/
def spellings : Value → Language Token
  | .var text => sign .dollar * ident text
  | .int text => word .intLiteral text
  | .float text => word .floatLiteral text
  | .string text => word .stringLiteral text
  | .enum text => ident text
  | .bool true => sign .trueLiteral
  | .bool false => sign .falseLiteral
  | .null => sign .nullLiteral
  | .list items => enclosed .bracketOpen .bracketClose (itemSpellings items)
  | .object fields => enclosed .braceOpen .braceClose (fieldSpellings fields)

/-- The spellings of the items of a list, with any commas around them. -/
def itemSpellings : List Value → Language Token
  | [] => commas
  | item :: rest => commas * spellings item * itemSpellings rest

/-- The spellings of the fields of an object, with any commas around them. -/
def fieldSpellings : List (String × Value) → Language Token
  | [] => commas
  | (key, value) :: rest => commas * named key (spellings value) * fieldSpellings rest

end

theorem itemSpellings_eq (items : List Value) :
    itemSpellings items = commaList spellings items := by
  induction items with
  | nil => rfl
  | cons item rest ih => simp only [itemSpellings, commaList, ih]

theorem fieldSpellings_eq (fields : List (String × Value)) :
    fieldSpellings fields = commaList (fun field => named field.1 field.2.spellings) fields := by
  induction fields with
  | nil => rfl
  | cons field rest ih =>
      obtain ⟨key, value⟩ := field
      simp only [fieldSpellings, commaList, ih]

end Value

/-- The spellings of an argument. -/
def Argument.spellings (argument : Argument) : Language Token :=
  named argument.name argument.value.spellings

/-- The spellings of a directive. -/
def Directive.spellings (directive : Directive) : Language Token :=
  sign .atSign * ident directive.name * parenthesized Argument.spellings directive.arguments

/-- The spellings of a field without the selections below it. -/
def Field.spellings (field : Field) : Language Token :=
  orNothing (fun key => ident key * sign .colon) field.alias? * ident field.name *
    parenthesized Argument.spellings field.arguments *
    inOrder Directive.spellings field.directives

/-! ### Selections -/

namespace Selection

/-- A selection set whose selections have the given spellings; it has at least one. -/
def bracedSpellings (inner : Language Token) : List Selection → Language Token
  | [] => 0
  | _ :: _ => enclosed .braceOpen .braceClose inner

mutual

/-- The spellings of a selection. -/
def spellings : Selection → Language Token
  | .field head none => head.spellings
  | .field head (some nested) => head.spellings * bracedSpellings (itemSpellings nested) nested
  | .spread text directives =>
    sign .ellipsis * fragmentName text * inOrder Directive.spellings directives
  | .inlineFragment condition? directives nested =>
    sign .ellipsis * orNothing (fun condition => ident "on" * ident condition) condition? *
      inOrder Directive.spellings directives * bracedSpellings (itemSpellings nested) nested

/-- The spellings of several selections, with any commas around them. -/
def itemSpellings : List Selection → Language Token
  | [] => commas
  | selection :: rest => commas * spellings selection * itemSpellings rest

end

theorem itemSpellings_eq (selections : List Selection) :
    itemSpellings selections = commaList spellings selections := by
  induction selections with
  | nil => rfl
  | cons selection rest ih => simp only [itemSpellings, commaList, ih]

/-- The spellings of a selection set. -/
def setSpellings (selections : List Selection) : Language Token :=
  bracedSpellings (commaList spellings selections) selections

end Selection

/-! ### Definitions -/

namespace TypeRef

/-- Whether the type is marked as non-null. -/
def isNonNull : TypeRef → Bool
  | .nonNull _ => true
  | _ => false

/-- The spellings of a type, of which one mark is enough. -/
def spellings : TypeRef → Language Token
  | .named text => ident text
  | .list item => enclosed .bracketOpen .bracketClose item.spellings
  | .nonNull type => if type.isNonNull then 0 else type.spellings * sign .bang

end TypeRef

/-- The spellings of the declaration of a variable. -/
def VariableDefinition.spellings (definition : VariableDefinition) : Language Token :=
  sign .dollar * named definition.name definition.type.spellings *
    orNothing (fun value => sign .equals * value.spellings) definition.default? *
    inOrder Directive.spellings definition.directives

namespace Operation

/-- The spellings of an operation with its keyword. -/
def keywordSpellings (operation : Operation) : Language Token :=
  ident operation.kind.text * orNothing ident operation.name? *
    parenthesized VariableDefinition.spellings operation.declarations *
    inOrder Directive.spellings operation.directives *
    Selection.setSpellings operation.selections

/-- Whether the keyword of the operation may be left out. -/
def IsShorthand (operation : Operation) : Prop :=
  operation.kind = .query ∧ operation.name? = none ∧ operation.declarations = [] ∧
    operation.directives = []

/-- The spellings of an operation. -/
def spellings (operation : Operation) : Language Token :=
  {tokens | (tokens ∈ operation.keywordSpellings ∨
    operation.IsShorthand ∧ tokens ∈ Selection.setSpellings operation.selections) ∧
      operation.position = start tokens}

end Operation

namespace Fragment

/-- The spellings of a fragment, wherever it starts. -/
def bodySpellings (fragment : Fragment) : Language Token :=
  ident "fragment" * fragmentName fragment.name * ident "on" * ident fragment.condition *
    inOrder Directive.spellings fragment.directives * Selection.setSpellings fragment.selections

/-- The spellings of a fragment. -/
def spellings (fragment : Fragment) : Language Token :=
  {tokens | tokens ∈ fragment.bodySpellings ∧ fragment.position = start tokens}

end Fragment

/-- The spellings of a definition. -/
def Definition.spellings : Definition → Language Token
  | .operation found => found.spellings
  | .fragment found => found.spellings

/-- The spellings of a document, with the end of the input after it. -/
def Document.spellings : Document → Language Token
  | ⟨[]⟩ => 0
  | ⟨definitions⟩ => inOrder Definition.spellings definitions * sign .endOfInput

end QueryBatching
