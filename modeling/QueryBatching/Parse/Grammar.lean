/-
The grammar of query documents.

Every rule is a parser.  Commas mean nothing, but they are tokens, so the rules for lists
say where they may stand; they are never reported as expected.

Four rules contain themselves between brackets: types, list values, object values and
selection sets.  Each takes a `budget`, the number of brackets that may still be opened
inside one another, and behind the last bracket it stops.  Opening a bracket takes a
token, so a budget of as many brackets as there are tokens is never used up, and that is
the budget `Document.ofTokens` starts with.  Documents with more than `nestingLimit`
brackets inside one another are refused before the grammar is tried at all.
-/
import QueryBatching.Document.Basic
import QueryBatching.Parse.Error
import QueryBatching.Parse.Parser
import QueryBatching.Token.Scan

namespace QueryBatching

namespace Grammar

open QueryBatching.Parser

/-! ### Names, commas and lists -/

/-- A name, by its text. -/
def name : Parser String := map Token.text (expect .name)

/-- The name of a fragment: any name but `on`. -/
def fragmentName : Parser String :=
  map Token.text (token (fun next => next.kind = .name && next.text != "on") .name)

/-- Any number of commas.  The failure that ends them is forgotten. -/
def commas : Parser Unit := fun here => .ok ⟨(), (repeated (expect .comma) here).next, none⟩

/-- Items with commas anywhere around them, at least one item. -/
def commaList1 {α : Type} (item : Parser α) : Parser (List α) :=
  right commas (many1 (left item commas))

/-- Items with commas anywhere around them. -/
def commaList {α : Type} (item : Parser α) : Parser (List α) :=
  delimited commas (separatedBy item commas) commas

/-- Something in round brackets. -/
def parenthesized {α : Type} (inner : Parser α) : Parser α :=
  delimited (expect .parenOpen) inner (expect .parenClose)

/-- Something in square brackets. -/
def bracketed {α : Type} (inner : Parser α) : Parser α :=
  delimited (expect .bracketOpen) inner (expect .bracketClose)

/-- Something in braces. -/
def braced {α : Type} (inner : Parser α) : Parser α :=
  delimited (expect .braceOpen) inner (expect .braceClose)

/-- A name, a colon, and a value read by `value`. -/
def named {α : Type} (value : Parser α) : Parser (String × α) :=
  map (fun ((name, _), value) => (name, value)) (both (both name (expect .colon)) value)

/-! ### Values -/

/-- A reference to a variable. -/
def variableValue : Parser Value := map Value.var (right (expect .dollar) name)

/-- A literal of `kind`, kept as it is written. -/
def literal (kind : Token.Kind) (build : String → Value) : Parser Value :=
  map (fun token => build token.text) (expect kind)

/-- A literal of `kind`, of which there is only one. -/
def constant (kind : Token.Kind) (value : Value) : Parser Value :=
  map (fun _ => value) (expect kind)

/-- A value, given what may stand between the brackets of a list and of an object. -/
def valueWith (items : Parser (List Value)) (fields : Parser (List (String × Value))) :
    Parser Value :=
  choice [
    variableValue,
    literal .intLiteral .int,
    literal .floatLiteral .float,
    literal .stringLiteral .string,
    choice [
      constant .trueLiteral (.bool true),
      constant .falseLiteral (.bool false),
      constant .nullLiteral .null,
      map Value.enum name],
    choice [map Value.list (bracketed items), map Value.object (braced fields)]]

/-- A value. -/
def value (budget : Nat) (here : Parse.Cursor) : Parse.Outcome Value :=
  match budget with
  | 0 => valueWith stop stop here
  | budget + 1 =>
    valueWith (commaList (value budget)) (commaList (named (value budget))) here

/-! ### Arguments and directives -/

/-- An argument list, which is never empty. -/
def arguments (budget : Nat) : Parser (List Argument) :=
  parenthesized (commaList1 (map (fun (name, value) => ⟨name, value⟩) (named (value budget))))

/-- A directive. -/
def directive (budget : Nat) : Parser Directive :=
  map (fun ((_, name), arguments?) => ⟨name, arguments?.getD []⟩)
    (both (both (expect .atSign) name) (optional (arguments budget)))

/-- Any number of directives. -/
def directives (budget : Nat) : Parser (List Directive) := many (directive budget)

/-! ### Selections -/

/-- A field, given the rule for selection sets. -/
def field (budget : Nat) (selectionSet : Parser (List Selection)) : Parser Selection :=
  map (fun ((((alias?, name), arguments?), directives), nested?) =>
      .field ⟨alias?, name, arguments?.getD [], directives⟩ nested?)
    (both (both (both (both
      (optional (left name (expect .colon)))
      name)
      (optional (arguments budget)))
      (directives budget))
      (optional selectionSet))

/-- What follows the dots of a fragment written in place. -/
def inlineFragment (budget : Nat) (selectionSet : Parser (List Selection)) : Parser Selection :=
  map (fun ((condition?, directives), nested) => .inlineFragment condition? directives nested)
    (both (both
      (optional (right (keyword "on") name))
      (directives budget))
      selectionSet)

/-- What follows the dots of a fragment spread. -/
def spread (budget : Nat) : Parser Selection :=
  map (fun (name, directives) => .spread name directives)
    (both fragmentName (directives budget))

/-- A selection, given the rule for selection sets. -/
def selection (budget : Nat) (selectionSet : Parser (List Selection)) : Parser Selection :=
  choice [
    field budget selectionSet,
    right (expect .ellipsis) (choice [inlineFragment budget selectionSet, spread budget])]

/-- A selection set, which is never empty. -/
def selectionSet (budget : Nat) (here : Parse.Cursor) : Parse.Outcome (List Selection) :=
  match budget with
  | 0 => braced stop here
  | budget + 1 => braced (commaList1 (selection budget (selectionSet budget))) here

/-! ### Variable declarations -/

/-- A type, given what may stand between its brackets. -/
def typeWith (item : Parser TypeRef) : Parser TypeRef :=
  map (fun (type, bang?) => if bang?.isSome then .nonNull type else type)
    (both
      (choice [map TypeRef.named name, map TypeRef.list (bracketed item)])
      (optional (expect .bang)))

/-- A type. -/
def typeRef (budget : Nat) (here : Parse.Cursor) : Parse.Outcome TypeRef :=
  match budget with
  | 0 => typeWith stop here
  | budget + 1 => typeWith (typeRef budget) here

/-- The declaration of one variable. -/
def variableDefinition (budget : Nat) : Parser VariableDefinition :=
  map (fun (((((_, name), _), type), default?), directives) =>
      ⟨name, type, default?, directives⟩)
    (both (both (both (both (both
      (expect .dollar)
      name)
      (expect .colon))
      (typeRef budget))
      (optional (right (expect .equals) (value budget))))
      (directives budget))

/-- The declarations of an operation, which are never empty. -/
def variableDefinitions (budget : Nat) : Parser (List VariableDefinition) :=
  parenthesized (commaList1 (variableDefinition budget))

/-! ### Definitions -/

/-- The keyword of an operation. -/
def operationKind : Parser OperationKind :=
  choice [
    map (fun _ => .query) (keyword "query"),
    map (fun _ => .mutation) (keyword "mutation"),
    map (fun _ => .subscription) (keyword "subscription")]

/-- An operation: with its keyword, or a selection set alone, which is a query. -/
def operation (budget : Nat) : Parser Operation :=
  choice [
    placed (fun position ((((kind, name?), declarations?), directives), selections) =>
        ⟨kind, name?, declarations?.getD [], directives, selections, position⟩)
      (both (both (both (both
        operationKind
        (optional name))
        (optional (variableDefinitions budget)))
        (directives budget))
        (selectionSet budget)),
    placed (fun position selections => ⟨.query, none, [], [], selections, position⟩)
      (selectionSet budget)]

/-- A fragment. -/
def fragment (budget : Nat) : Parser Fragment :=
  placed (fun position (((((_, name), _), condition), directives), selections) =>
      ⟨name, condition, directives, selections, position⟩)
    (both (both (both (both (both
      (keyword "fragment")
      fragmentName)
      (keyword "on"))
      name)
      (directives budget))
      (selectionSet budget))

/-- The definitions of a document, of which there is at least one. -/
def definitions (budget : Nat) : Parser (List Definition) :=
  many1 (choice [map Definition.operation (operation budget),
    map Definition.fragment (fragment budget)])

/-- A whole document, with the end of the input after it. -/
def document (budget : Nat) : Parser Document :=
  left (map Document.mk (definitions budget)) (expect .endOfInput)

/-! ### The nesting limit -/

/-- How many braces and square brackets may stand inside one another. -/
def nestingLimit : Nat := 64

/--
The token that opens a brace or square bracket too many, with `depth` of them open
before the first token.  A closing one closes either, and one too many closes nothing.
-/
def tooDeep? (depth : Nat) : List Token → Option Token
  | [] => none
  | token :: rest =>
    match token.kind with
    | .braceOpen | .bracketOpen =>
      if nestingLimit < depth + 1 then some token else tooDeep? (depth + 1) rest
    | .braceClose | .bracketClose => tooDeep? (depth - 1) rest
    | _ => tooDeep? depth rest

end Grammar

namespace Document

/-- The document that a list of tokens spells, the end of the input included. -/
def ofTokens (tokens : List Token) : Except ParseError Document :=
  match Grammar.tooDeep? 0 tokens with
  | some token => .error ⟨.nestingTooDeep Grammar.nestingLimit, token.position⟩
  | none =>
    match Grammar.document tokens.length (.ofTokens tokens 0) with
    | .ok parsed => .ok parsed.value
    | .error failure => .error (.ofFailure failure tokens)

/-- The document that a source text spells. -/
def parse (source : String) : Except SyntaxError Document :=
  match Token.tokenize source with
  | .error error => .error (.lex error)
  | .ok tokens => (ofTokens tokens).mapError .parse

end Document

end QueryBatching
