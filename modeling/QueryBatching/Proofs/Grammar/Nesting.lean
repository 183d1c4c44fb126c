/-
The check of the nesting limit bounds the recursion.

Here is the grammar once more, rule by rule, as tracked parsers.  A rule runs the rule of the same
name, and its depth counts the selection sets, lists, objects and list types that are entered
inside one another; round brackets do not count.  Each rule is bounded by the room that the
brackets of the tokens leave, by induction on the room for the four rules that contain themselves.

So tokens that pass the check never take the grammar deeper than the limit, and a budget of as many
levels is as good as any other.  Tokens that spell a document pass exactly if their brackets nest
within the limit.
-/
import QueryBatching.Proofs.Grammar.SyntaxErrors
import QueryBatching.Proofs.Parse.Tracked

namespace QueryBatching

open Parse (Cursor)
open Token (Balanced Kind NestsWithin)

namespace Grammar.Tracked

open QueryBatching.Tracked

variable {α : Type}

/-! ### The rules -/

def expect (kind : Kind) : Tracked Token := plain (Parser.expect kind)

def keyword (word : String) : Tracked Token := plain (Parser.keyword word)

def name : Tracked String := map Token.text (expect .name)

def fragmentName : Tracked String :=
  map Token.text
    (plain (Parser.token (fun next => next.kind = .name && next.text != "on") .name))

def commas : Tracked Unit := plain Grammar.commas

def commaList1 (item : Tracked α) : Tracked (List α) := right commas (many1 (left item commas))

def commaList (item : Tracked α) : Tracked (List α) :=
  delimited commas (separatedBy item commas) commas

/-- Something in round brackets, which do not count. -/
def parenthesized (inner : Tracked α) : Tracked α :=
  delimited (expect .parenOpen) inner (expect .parenClose)

/-- Something in square brackets, which are entered. -/
def bracketed (inner : Tracked α) : Tracked α := nested .bracketOpen .bracketClose inner

/-- Something in braces, which are entered. -/
def braced (inner : Tracked α) : Tracked α := nested .braceOpen .braceClose inner

def named (value : Tracked α) : Tracked (String × α) :=
  map (fun ((name, _), value) => (name, value)) (both (both name (expect .colon)) value)

def variableValue : Tracked Value := map Value.var (right (expect .dollar) name)

def literal (kind : Kind) (build : String → Value) : Tracked Value :=
  map (fun token => build token.text) (expect kind)

def constant (kind : Kind) (value : Value) : Tracked Value := map (fun _ => value) (expect kind)

def valueWith (items : Tracked (List Value)) (fields : Tracked (List (String × Value))) :
    Tracked Value :=
  choice [
    variableValue,
    literal .intLiteral .int,
    literal .floatLiteral .float,
    literal .stringLiteral .string,
    choice [
      constant .trueLiteral (.bool true),
      constant .falseLiteral (.bool false),
      constant .nullLiteral .null,
      map Value.enum name],
    choice [map Value.list (bracketed items), map Value.object (braced fields)]]

def value : Nat → Tracked Value
  | 0 => valueWith (plain Parser.stop) (plain Parser.stop)
  | budget + 1 => valueWith (commaList (value budget)) (commaList (named (value budget)))

def arguments (budget : Nat) : Tracked (List Argument) :=
  parenthesized (commaList1 (map (fun (name, value) => ⟨name, value⟩) (named (value budget))))

def directive (budget : Nat) : Tracked Directive :=
  map (fun ((_, name), arguments?) => ⟨name, arguments?.getD []⟩)
    (both (both (expect .atSign) name) (optional (arguments budget)))

def directives (budget : Nat) : Tracked (List Directive) := many (directive budget)

def field (budget : Nat) (selectionSet : Tracked (List Selection)) : Tracked Selection :=
  map (fun ((((alias?, name), arguments?), directives), nested?) =>
      .field ⟨alias?, name, arguments?.getD [], directives⟩ nested?)
    (both (both (both (both
      (optional (left name (expect .colon)))
      name)
      (optional (arguments budget)))
      (directives budget))
      (optional selectionSet))

def inlineFragment (budget : Nat) (selectionSet : Tracked (List Selection)) : Tracked Selection :=
  map (fun ((condition?, directives), nested) => .inlineFragment condition? directives nested)
    (both (both
      (optional (right (keyword "on") name))
      (directives budget))
      selectionSet)

def spread (budget : Nat) : Tracked Selection :=
  map (fun (name, directives) => .spread name directives)
    (both fragmentName (directives budget))

def selection (budget : Nat) (selectionSet : Tracked (List Selection)) : Tracked Selection :=
  choice [
    field budget selectionSet,
    right (expect .ellipsis) (choice [inlineFragment budget selectionSet, spread budget])]

def selectionSet : Nat → Tracked (List Selection)
  | 0 => braced (plain Parser.stop)
  | budget + 1 => braced (commaList1 (selection budget (selectionSet budget)))

def typeWith (item : Tracked TypeRef) : Tracked TypeRef :=
  map (fun (type, bang?) => if bang?.isSome then .nonNull type else type)
    (both
      (choice [map TypeRef.named name, map TypeRef.list (bracketed item)])
      (optional (expect .bang)))

def typeRef : Nat → Tracked TypeRef
  | 0 => typeWith (plain Parser.stop)
  | budget + 1 => typeWith (typeRef budget)

def variableDefinition (budget : Nat) : Tracked VariableDefinition :=
  map (fun (((((_, name), _), type), default?), directives) =>
      ⟨name, type, default?, directives⟩)
    (both (both (both (both (both
      (expect .dollar)
      name)
      (expect .colon))
      (typeRef budget))
      (optional (right (expect .equals) (value budget))))
      (directives budget))

def variableDefinitions (budget : Nat) : Tracked (List VariableDefinition) :=
  parenthesized (commaList1 (variableDefinition budget))

def operationKind : Tracked OperationKind :=
  choice [
    map (fun _ => .query) (keyword "query"),
    map (fun _ => .mutation) (keyword "mutation"),
    map (fun _ => .subscription) (keyword "subscription")]

def operation (budget : Nat) : Tracked Operation :=
  choice [
    placed (fun position ((((kind, name?), declarations?), directives), selections) =>
        ⟨kind, name?, declarations?.getD [], directives, selections, position⟩)
      (both (both (both (both
        operationKind
        (optional name))
        (optional (variableDefinitions budget)))
        (directives budget))
        (selectionSet budget)),
    placed (fun position selections => ⟨.query, none, [], [], selections, position⟩)
      (selectionSet budget)]

def fragment (budget : Nat) : Tracked Fragment :=
  placed (fun position (((((_, name), _), condition), directives), selections) =>
      ⟨name, condition, directives, selections, position⟩)
    (both (both (both (both (both
      (keyword "fragment")
      fragmentName)
      (keyword "on"))
      name)
      (directives budget))
      (selectionSet budget))

def definitions (budget : Nat) : Tracked (List Definition) :=
  many1 (choice [map Definition.operation (operation budget),
    map Definition.fragment (fragment budget)])

/-- A whole document: how deep its rule goes is how deep the grammar goes. -/
def document (budget : Nat) : Tracked Document :=
  left (map Document.mk (definitions budget)) (expect .endOfInput)

/-! ### What they run -/

@[simp] theorem run_expect (kind : Kind) : (expect kind).run = Parser.expect kind := rfl

@[simp] theorem run_keyword (word : String) : (keyword word).run = Parser.keyword word := rfl

@[simp] theorem run_name : name.run = Grammar.name := rfl

@[simp] theorem run_fragmentName : fragmentName.run = Grammar.fragmentName := rfl

@[simp] theorem run_commaList1 (item : Tracked α) :
    (commaList1 item).run = Grammar.commaList1 item.run := rfl

@[simp] theorem run_commaList (item : Tracked α) :
    (commaList item).run = Grammar.commaList item.run := rfl

@[simp] theorem run_parenthesized (inner : Tracked α) :
    (parenthesized inner).run = Grammar.parenthesized inner.run := rfl

@[simp] theorem run_braced (inner : Tracked α) :
    (braced inner).run = Grammar.braced inner.run := rfl

@[simp] theorem run_named (value : Tracked α) : (named value).run = Grammar.named value.run := rfl

@[simp] theorem run_valueWith (items : Tracked (List Value))
    (fields : Tracked (List (String × Value))) :
    (valueWith items fields).run = Grammar.valueWith items.run fields.run := rfl

@[simp] theorem run_value (budget : Nat) : (value budget).run = Grammar.value budget := by
  induction budget with
  | zero => rfl
  | succ budget ih =>
      simp only [value, run_valueWith, run_commaList, run_named, ih]
      rfl

@[simp] theorem run_arguments (budget : Nat) :
    (arguments budget).run = Grammar.arguments budget := by
  simp [arguments, Grammar.arguments]

@[simp] theorem run_directives (budget : Nat) :
    (directives budget).run = Grammar.directives budget := by
  simp [directives, directive, Grammar.directives, Grammar.directive]

@[simp] theorem run_selection (budget : Nat) (set : Tracked (List Selection)) :
    (selection budget set).run = Grammar.selection budget set.run := by
  simp [selection, field, inlineFragment, spread, Grammar.selection, Grammar.field,
    Grammar.inlineFragment, Grammar.spread]

@[simp] theorem run_selectionSet (budget : Nat) :
    (selectionSet budget).run = Grammar.selectionSet budget := by
  induction budget with
  | zero => rfl
  | succ budget ih =>
      simp only [selectionSet, run_braced, run_commaList1, run_selection, ih]
      rfl

@[simp] theorem run_typeWith (item : Tracked TypeRef) :
    (typeWith item).run = Grammar.typeWith item.run := rfl

@[simp] theorem run_typeRef (budget : Nat) : (typeRef budget).run = Grammar.typeRef budget := by
  induction budget with
  | zero => rfl
  | succ budget ih =>
      simp only [typeRef, run_typeWith, ih]
      rfl

@[simp] theorem run_variableDefinitions (budget : Nat) :
    (variableDefinitions budget).run = Grammar.variableDefinitions budget := by
  simp [variableDefinitions, variableDefinition, Grammar.variableDefinitions,
    Grammar.variableDefinition]

@[simp] theorem run_operationKind : operationKind.run = Grammar.operationKind := rfl

@[simp] theorem run_operation (budget : Nat) :
    (operation budget).run = Grammar.operation budget := by
  simp [operation, Grammar.operation]

@[simp] theorem run_fragment (budget : Nat) :
    (fragment budget).run = Grammar.fragment budget := by
  simp [fragment, Grammar.fragment]

/-- The tracked grammar runs the grammar. -/
theorem run_document (budget : Nat) : (document budget).run = Grammar.document budget := by
  simp [document, definitions, Grammar.document, Grammar.definitions]

/-! ### How deep they go -/

variable {room : Nat}

theorem bounded_expect {kind : Kind} (h : kind ∉ brackets) :
    Bounded room fun _ => expect kind :=
  Bounded.expect h

theorem bounded_keyword (word : String) : Bounded room fun _ => keyword word :=
  Bounded.keyword word

theorem bounded_name : Bounded room fun _ => name := (bounded_expect (by decide)).map Token.text

theorem bounded_fragmentName : Bounded room fun _ => fragmentName := by
  refine (Bounded.token fun t ht => ?_).map Token.text
  rw [Bool.and_eq_true, decide_eq_true_eq] at ht
  rw [ht.1]
  decide

theorem bounded_commas : Bounded room fun _ => commas := by
  refine Bounded.plain fun here value next hacc => ?_
  obtain ⟨taken, hmem, hadv⟩ := sound_commas hacc
  refine ⟨taken, hadv, Token.balanced_of_forall fun t ht => ?_⟩
  rw [hmem t ht]
  decide

section Parts

variable {p : Nat → Tracked α}

theorem bounded_commaList1 (h : Bounded room p) :
    Bounded room fun budget => commaList1 (p budget) :=
  bounded_commas.right (h.left bounded_commas).many1

theorem bounded_commaList (h : Bounded room p) :
    Bounded room fun budget => commaList (p budget) :=
  bounded_commas.delimited (h.separatedBy bounded_commas) bounded_commas

theorem bounded_parenthesized (h : Bounded room p) :
    Bounded room fun budget => parenthesized (p budget) :=
  (bounded_expect (by decide)).delimited h (bounded_expect (by decide))

theorem bounded_named (h : Bounded room p) : Bounded room fun budget => named (p budget) :=
  ((bounded_name.both (bounded_expect (by decide))).both h).map _

end Parts

theorem bounded_literal {kind : Kind} (h : kind ∉ brackets) (build : String → Value) :
    Bounded room fun _ => literal kind build :=
  (bounded_expect h).map _

theorem bounded_constant {kind : Kind} (h : kind ∉ brackets) (found : Value) :
    Bounded room fun _ => constant kind found :=
  (bounded_expect h).map _

theorem bounded_valueWith {items : Nat → Tracked (List Value)}
    {fields : Nat → Tracked (List (String × Value))}
    (hitems : Bounded room fun budget => bracketed (items budget))
    (hfields : Bounded room fun budget => braced (fields budget)) :
    Bounded room fun budget => valueWith (items budget) (fields budget) := by
  have hwords : Bounded room fun _ => choice [
      constant .trueLiteral (.bool true), constant .falseLiteral (.bool false),
      constant .nullLiteral .null, map Value.enum name] :=
    Bounded.choice [_, _, _, _] ⟨bounded_constant (by decide) _,
      bounded_constant (by decide) _, bounded_constant (by decide) _, bounded_name.map _⟩
  have hbrackets : Bounded room fun budget => choice [
      map Value.list (bracketed (items budget)), map Value.object (braced (fields budget))] :=
    Bounded.choice [_, _] ⟨hitems.map _, hfields.map _⟩
  exact Bounded.choice [_, _, _, _, _, _] ⟨((bounded_expect (by decide)).right bounded_name).map _,
    bounded_literal (by decide) _, bounded_literal (by decide) _, bounded_literal (by decide) _,
    hwords, hbrackets⟩

theorem value_eq : value = fun budget =>
    valueWith (below (fun budget => commaList (value budget)) budget)
      (below (fun budget => commaList (named (value budget))) budget) := by
  funext budget
  cases budget <;> rfl

theorem bounded_value (room : Nat) : Bounded room value := by
  induction room using Nat.strong_induction_on with
  | _ room ih =>
      rw [value_eq]
      refine bounded_valueWith (.nested (by decide) fun less hless => ?_)
        (.nested (by decide) fun less hless => ?_)
      · exact bounded_commaList (ih less (by omega))
      · exact bounded_commaList (bounded_named (ih less (by omega)))

theorem bounded_arguments : Bounded room arguments :=
  bounded_parenthesized (bounded_commaList1 ((bounded_named (bounded_value room)).map _))

theorem bounded_directives : Bounded room directives :=
  ((((bounded_expect (by decide)).both bounded_name).both bounded_arguments.optional).map _).many

theorem bounded_selection {set : Nat → Tracked (List Selection)} (h : Bounded room set) :
    Bounded room fun budget => selection budget (set budget) := by
  have hfield : Bounded room fun budget => field budget (set budget) :=
    (((((bounded_name.left (bounded_expect (by decide))).optional.both bounded_name).both
      bounded_arguments.optional).both bounded_directives).both h.optional).map _
  have hinline : Bounded room fun budget => inlineFragment budget (set budget) :=
    (((((bounded_keyword "on").right bounded_name).optional).both bounded_directives).both h).map _
  have hspread : Bounded room spread := (bounded_fragmentName.both bounded_directives).map _
  have hdots : Bounded room fun budget =>
      choice [inlineFragment budget (set budget), spread budget] :=
    Bounded.choice [_, _] ⟨hinline, hspread⟩
  exact Bounded.choice [_, _] ⟨hfield, (bounded_expect (by decide)).right hdots⟩

theorem selectionSet_eq : selectionSet = fun budget =>
    braced (below (fun budget => commaList1 (selection budget (selectionSet budget))) budget) := by
  funext budget
  cases budget <;> rfl

theorem bounded_selectionSet (room : Nat) : Bounded room selectionSet := by
  induction room using Nat.strong_induction_on with
  | _ room ih =>
      rw [selectionSet_eq]
      refine .nested (by decide) fun less hless => ?_
      exact bounded_commaList1 (bounded_selection (ih less (by omega)))

theorem typeRef_eq : typeRef = fun budget => typeWith (below typeRef budget) := by
  funext budget
  cases budget <;> rfl

theorem bounded_typeRef (room : Nat) : Bounded room typeRef := by
  induction room using Nat.strong_induction_on with
  | _ room ih =>
      rw [typeRef_eq]
      have hbase : Bounded room fun budget =>
          choice [map TypeRef.named name, map TypeRef.list (bracketed (below typeRef budget))] :=
        Bounded.choice [_, _] ⟨bounded_name.map _,
          Bounded.map (.nested (by decide) fun less hless => ih less (by omega)) _⟩
      exact (hbase.both (bounded_expect (by decide)).optional).map _

theorem bounded_variableDefinitions : Bounded room variableDefinitions :=
  bounded_parenthesized (bounded_commaList1
    (((((((bounded_expect (by decide)).both bounded_name).both (bounded_expect (by decide))).both
      (bounded_typeRef room)).both
      ((bounded_expect (by decide)).right (bounded_value room)).optional).both
      bounded_directives).map _))

theorem bounded_operationKind : Bounded room fun _ => operationKind :=
  Bounded.choice [_, _, _]
    ⟨(bounded_keyword _).map _, (bounded_keyword _).map _, (bounded_keyword _).map _⟩

theorem bounded_operation : Bounded room operation :=
  Bounded.choice [_, _] ⟨((((bounded_operationKind.both bounded_name.optional).both
    bounded_variableDefinitions.optional).both bounded_directives).both
    (bounded_selectionSet room)).placed _, (bounded_selectionSet room).placed _⟩

theorem bounded_fragment : Bounded room fragment :=
  ((((((bounded_keyword "fragment").both bounded_fragmentName).both (bounded_keyword "on")).both
    bounded_name).both bounded_directives).both (bounded_selectionSet room)).placed _

theorem bounded_definitions : Bounded room definitions :=
  (Bounded.choice [_, _] ⟨bounded_operation.map _, bounded_fragment.map _⟩).many1

/-- **The grammar goes no deeper than the brackets of the tokens.** -/
theorem bounded_document (room : Nat) : Bounded room document :=
  (bounded_definitions.map Document.mk).left (bounded_expect (by decide))

end Grammar.Tracked

/-! ### The nesting limit -/

namespace Grammar

/-- What spells a document opens and closes its brackets in pairs. -/
theorem balanced_of_mem_spellings {tokens : List Token} {found : Document}
    (h : tokens ∈ found.spellings) : Balanced tokens := by
  have hacc := accepts_document h le_rfl []
  have hadv := Cursor.advances_ofTokens tokens []
  rw [List.append_nil] at hacc hadv
  rw [← Tracked.run_document] at hacc
  obtain ⟨taken, hadv', hbalanced⟩ := (Tracked.bounded_document tokens.length).takes
    (Token.nestsWithin_length tokens) hacc
  rwa [(hadv.unique hadv' rfl).1]

/--
**The check of the nesting limit bounds the recursion.**  Whatever brackets some tokens have, if
they pass the check, then the grammar never enters more than `nestingLimit` selection sets, lists,
objects and list types inside one another, in no attempt and with no budget, and any budget that
is large enough gives the answer that `nestingLimit` levels give.  Tokens that spell a document are
refused for their nesting exactly if somewhere more than `nestingLimit` of their brackets are open.
-/
theorem nesting_bounds_recursion (tokens : List Token) :
    (tooDeep? 0 tokens = none → ∀ budget,
      (Tracked.document budget).run = document budget ∧
      (Tracked.document budget).depth (.ofTokens tokens 0) ≤ nestingLimit ∧
      (min nestingLimit tokens.length ≤ budget →
        document budget (.ofTokens tokens 0) = document nestingLimit (.ofTokens tokens 0))) ∧
    ∀ found : Document, tokens ∈ found.spellings →
      ((∃ position, Document.ofTokens tokens =
          .error ⟨.nestingTooDeep nestingLimit, position⟩) ↔
        ¬ NestsWithin nestingLimit tokens) := by
  constructor
  · intro hcheck budget
    have hlimit : NestsWithin nestingLimit tokens := nestsWithin_of_tooDeep? hcheck
    refine ⟨Tracked.run_document budget,
      (Tracked.bounded_document nestingLimit).depth_le hlimit, fun hbudget => ?_⟩
    have hroom : NestsWithin (min nestingLimit tokens.length) tokens := by
      rcases min_choice nestingLimit tokens.length with hmin | hmin
      · exact hmin.symm ▸ hlimit
      · exact hmin.symm ▸ Token.nestsWithin_length tokens
    rw [← Tracked.run_document, ← Tracked.run_document]
    exact (Tracked.bounded_document _).steady hbudget (min_le_left _ _) hroom
  · intro found hmem
    rw [← tooDeep?_eq_none_iff (balanced_of_mem_spellings hmem)]
    constructor
    · rintro ⟨position, hrefused⟩ hcheck
      rw [Document.ofTokens_of_mem_spellings hmem hcheck] at hrefused
      cases hrefused
    · intro hcheck
      obtain ⟨t, ht⟩ := Option.ne_none_iff_exists'.mp hcheck
      exact ⟨t.position, by simp only [Document.ofTokens, ht]⟩

/-- A selection set, and in an argument of its field a list with an object in it. -/
def nestedTokens : List Token :=
  [⟨.braceOpen, "\x7b", {}⟩, ⟨.name, "a", {}⟩, ⟨.parenOpen, "(", {}⟩, ⟨.name, "b", {}⟩,
    ⟨.colon, ":", {}⟩, ⟨.bracketOpen, "[", {}⟩, ⟨.braceOpen, "\x7b", {}⟩,
    ⟨.braceClose, "\x7d", {}⟩, ⟨.bracketClose, "]", {}⟩, ⟨.parenClose, ")", {}⟩,
    ⟨.braceClose, "\x7d", {}⟩, ⟨.endOfInput, "", {}⟩]

theorem nesting_bounds_recursion_nestedTokens :
    tooDeep? 0 nestedTokens = none ∧
      (Tracked.document 100).depth (.ofTokens nestedTokens 0) ≤ nestingLimit ∧
      document 100 (.ofTokens nestedTokens 0) = document nestingLimit (.ofTokens nestedTokens 0) ∧
      ∃ found : Document, nestedTokens ∈ found.spellings ∧
        ¬∃ position, Document.ofTokens nestedTokens =
          .error ⟨.nestingTooDeep nestingLimit, position⟩ := by
  have hcheck : tooDeep? 0 nestedTokens = none := by decide
  obtain ⟨hbounded, hrefused⟩ := nesting_bounds_recursion nestedTokens
  obtain ⟨-, hdepth, hsame⟩ := hbounded hcheck 100
  refine ⟨hcheck, hdepth, hsame (by decide), ?_⟩
  have hok : (Document.ofTokens nestedTokens).isOk = true := by decide +kernel
  obtain ⟨found, hread⟩ := Outcomes.exists_of_isOk hok
  obtain ⟨taken, rest, hmem, hsplit⟩ := Document.mem_spellings_of_ofTokens hread
  obtain ⟨before, stop, rfl, hstop⟩ := Document.exists_end_of_mem_spellings hmem
  -- The only end of the input is the last token, so nothing is left behind the document.
  have hinside : nestedTokens.dropLast ∈ Spelling.inside := by
    show ∀ t ∈ nestedTokens.dropLast, t.kind ≠ .endOfInput
    decide
  have hend : nestedTokens.dropLast ++ [⟨.endOfInput, "", {}⟩] = before ++ stop :: rest := by
    rw [List.append_assoc] at hsplit
    exact hsplit
  obtain rfl := Document.eq_nil_of_end hinside hstop hend
  rw [List.append_nil] at hsplit
  have hspelled : nestedTokens ∈ found.spellings := hsplit.symm ▸ hmem
  exact ⟨found, hspelled, fun herror =>
    (hrefused found hspelled).mp herror (nestsWithin_of_tooDeep? hcheck)⟩

/-- The selection set, the list and the object are entered inside one another. -/
example : (Tracked.document 9).depth (.ofTokens nestedTokens 0) = 3 := by decide +kernel

end Grammar

end QueryBatching
