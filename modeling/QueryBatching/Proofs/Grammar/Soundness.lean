/-
The parser reads what is spelled, and foresees its failures.

Rule by rule along the grammar, what a rule accepts is spelled by what it took, and each failure
that it meets stands where the input could have been gone on with, by all the kinds of tokens
that it expects.  The rules that contain themselves go by induction on their budget, which is
how many brackets they may still open.

The end of it is `Document.mem_spellings_of_ofTokens`: a document that is read is spelled
by the tokens it was read from.
-/
import QueryBatching.Proofs.Grammar.Foresight

namespace QueryBatching

open Token (Kind)
open Parse (Cursor)

/-! ### The rules of the grammar -/

namespace Grammar

open QueryBatching.Parser Spelling

variable {α : Type}

theorem accepts_commas {here next : Cursor} {value : Unit} :
    Accepts commas here value next ↔ ∃ values, Repeats (expect .comma) here values next := by
  have hrun := repeats_repeated (expect .comma) here
  constructor
  · rintro ⟨f, hf⟩
    simp only [commas, Except.ok.injEq, Parse.Parsed.mk.injEq] at hf
    exact ⟨_, hf.2.1 ▸ hrun⟩
  · rintro ⟨values, h⟩
    obtain ⟨-, rfl⟩ := h.unique hrun
    exact ⟨none, rfl⟩

theorem inOrder_comma_le (values : List Token) :
    inOrder (fun _ => sign .comma) values ≤ Spelling.commas := by
  induction values with
  | nil =>
      rintro _ rfl t ht
      exact absurd ht List.not_mem_nil
  | cons value values ih =>
      rintro _ ⟨_, ⟨t, rfl, ht⟩, rest, hrest, rfl⟩ u hu
      rcases List.mem_cons.mp hu with rfl | hu
      · exact ht
      · exact ih hrest u hu

theorem sound_commas : Sound commas fun _ => Spelling.commas := by
  intro here value next hacc
  obtain ⟨values, hrun⟩ := accepts_commas.mp hacc
  obtain ⟨taken, hmem, hadv⟩ := (sound_expect .comma).repeats hrun
  exact ⟨taken, inOrder_comma_le values hmem, hadv⟩

theorem foresees_commas : Foresees commas fun _ => Spelling.commas where
  sound := sound_commas
  inside := sound_commas.mono fun _ tokens hmem t ht => by
    rw [hmem t ht]
    decide
  foreseen _ := nofun
  inhabits := ⟨(), [], fun _ ht => absurd ht List.not_mem_nil⟩

theorem foresees_commaList1 {item : Parser α} {L : α → Language Token} (h : Foresees item L) :
    Foresees (commaList1 item) fun values =>
      {tokens | values ≠ [] ∧ tokens ∈ Spelling.commaList L values} := by
  refine (foresees_commas.right (h.left foresees_commas).many1).mono ?_
  rintro values tokens ⟨gap, hgap, rest, ⟨hne, hrest⟩, rfl⟩
  exact ⟨hne, commaList_eq L values ▸ mem_mul hgap hrest⟩

theorem foresees_commaList {item : Parser α} {L : α → Language Token} (h : Foresees item L) :
    Foresees (commaList item) (Spelling.commaList L) := by
  refine ((foresees_commas.right (h.separatedBy foresees_commas)).left foresees_commas).mono ?_
  intro values
  cases values with
  | nil =>
      rintro _ ⟨_, ⟨before, hbefore, _, rfl, rfl⟩, after, hafter, rfl⟩ t ht
      rcases List.mem_append.mp ht with ht | ht
      · exact hbefore t (List.append_nil before ▸ ht)
      · exact hafter t ht
  | cons first rest => exact (commaList_cons_eq L first rest).ge

theorem foresees_name : Foresees name ident :=
  (Foresees.word .name rfl).map fun _ => le_rfl

theorem foresees_fragmentName : Foresees fragmentName Spelling.fragmentName := by
  have hcomma : Kind.name ≠ .comma := by decide
  refine (Foresees.token hcomma (fun t ht => ?_) (t := ⟨.name, "", {}⟩) rfl (by decide)).map ?_
  · simp only [Bool.and_eq_true, decide_eq_true_eq] at ht
    rw [ht.1]
    decide
  · rintro t _ ⟨rfl, hyes⟩
    simp only [Bool.and_eq_true, decide_eq_true_eq, bne_iff_ne, ne_eq] at hyes
    rw [Spelling.fragmentName, if_neg hyes.2]
    exact mem_word hyes.1 rfl

theorem foresees_named {value : Parser α} {L : α → Language Token} (h : Foresees value L) :
    Foresees (Grammar.named value) fun x => Spelling.named x.1 (L x.2) :=
  ((foresees_name.both (Foresees.expect .colon rfl)).both h).map fun _ => le_rfl

/-! Values -/

theorem foresees_literal {kind : Kind} {build : String → Value}
    (hkind : isInner kind = true) (h : ∀ text, (build text).spellings = word kind text) :
    Foresees (literal kind build) Value.spellings :=
  (Foresees.word kind hkind).map fun t => (h t.text).ge

theorem foresees_constant {kind : Kind} {found : Value}
    (hkind : isInner kind = true) (h : found.spellings = sign kind) :
    Foresees (constant kind found) Value.spellings :=
  (Foresees.expect kind hkind).map fun _ => h.ge

theorem foresees_valueWith {items : Parser (List Value)} {fields : Parser (List (String × Value))}
    (hitems : Foresees items Value.itemSpellings) (hfields : Foresees fields Value.fieldSpellings) :
    Foresees (valueWith items fields) Value.spellings := by
  refine Foresees.choice ?_
  simp only [List.forall_mem_cons, List.not_mem_nil, false_imp_iff, implies_true, and_true]
  refine ⟨?_, foresees_literal rfl fun _ => rfl, foresees_literal rfl fun _ => rfl,
    foresees_literal rfl fun _ => rfl, ?_, ?_⟩
  · exact ((Foresees.expect .dollar rfl).right foresees_name).map fun _ => by rw [Value.spellings]
  · refine Foresees.choice ?_
    simp only [List.forall_mem_cons, List.not_mem_nil, false_imp_iff, implies_true, and_true]
    refine ⟨foresees_constant rfl (by rw [Value.spellings]),
      foresees_constant rfl (by rw [Value.spellings]),
      foresees_constant rfl (by rw [Value.spellings]), ?_⟩
    exact foresees_name.map fun _ => by rw [Value.spellings]
  · refine Foresees.choice ?_
    simp only [List.forall_mem_cons, List.not_mem_nil, false_imp_iff, implies_true, and_true]
    exact ⟨(hitems.enclosed _ _ rfl rfl).map fun _ => by rw [Value.spellings],
      (hfields.enclosed _ _ rfl rfl).map fun _ => by rw [Value.spellings]⟩

theorem foresees_value (budget : Nat) : Foresees (value budget) Value.spellings := by
  induction budget with
  | zero =>
      have hempty : [] ∈ Spelling.commas := fun _ ht => absurd ht List.not_mem_nil
      exact foresees_valueWith (.stop ⟨[], [], hempty⟩) (.stop ⟨[], [], hempty⟩)
  | succ budget ih =>
      refine foresees_valueWith ?_ ?_
      · exact (foresees_commaList ih).mono fun items => (Value.itemSpellings_eq items).ge
      · exact (foresees_commaList (foresees_named ih)).mono fun fields =>
          (Value.fieldSpellings_eq fields).ge

/-! Arguments and directives -/

/-- Behind a list that is left out when it is empty there is no trace of the brackets. -/
theorem orNothing_le_parenthesized (L : α → Language Token) (values? : Option (List α)) :
    orNothing (fun values => enclosed .parenOpen .parenClose
      {tokens | values ≠ [] ∧ tokens ∈ Spelling.commaList L values}) values? ≤
        Spelling.parenthesized L (values?.getD []) := by
  cases values? with
  | none => exact le_rfl
  | some values =>
      rintro _ ⟨_, ⟨opening, hopening, inner, ⟨hne, hinner⟩, rfl⟩, closing, hclosing, rfl⟩
      obtain ⟨first, rest, rfl⟩ := List.exists_cons_of_ne_nil hne
      exact mem_mul (mem_mul hopening hinner) hclosing

theorem foresees_arguments (budget : Nat) :
    Foresees (arguments budget) fun values => enclosed .parenOpen .parenClose
      {tokens | values ≠ [] ∧ tokens ∈ Spelling.commaList Argument.spellings values} :=
  (foresees_commaList1 ((foresees_named (foresees_value budget)).map fun _ => le_rfl)).enclosed
    _ _ rfl rfl

theorem foresees_directive (budget : Nat) : Foresees (directive budget) Directive.spellings := by
  refine (((Foresees.expect .atSign rfl).both foresees_name).both
    (foresees_arguments budget).optional).map ?_
  rintro ⟨⟨t, text⟩, arguments?⟩
  exact mul_le_mul' le_rfl (orNothing_le_parenthesized Argument.spellings arguments?)

theorem foresees_directives (budget : Nat) :
    Foresees (directives budget) (inOrder Directive.spellings) :=
  (foresees_directive budget).many

/-! Selections -/

theorem foresees_alias : Foresees (optional (left name (expect .colon)))
    (orNothing fun key => ident key * sign .colon) :=
  (foresees_name.left (Foresees.expect .colon rfl)).optional

theorem foresees_field (budget : Nat) {selectionSet : Parser (List Selection)}
    (h : Foresees selectionSet Selection.setSpellings) :
    Foresees (field budget selectionSet) Selection.spellings := by
  refine ((((foresees_alias.both foresees_name).both (foresees_arguments budget).optional).both
    (foresees_directives budget)).both h.optional).map ?_
  rintro ⟨⟨⟨⟨alias?, text⟩, arguments?⟩, directives⟩, nested?⟩
  have hhead : orNothing (fun key => ident key * sign .colon) alias? * ident text *
      orNothing (fun values => enclosed .parenOpen .parenClose
        {tokens | values ≠ [] ∧ tokens ∈ Spelling.commaList Argument.spellings values}) arguments? *
      inOrder Directive.spellings directives ≤
        Field.spellings ⟨alias?, text, arguments?.getD [], directives⟩ :=
    mul_le_mul' (mul_le_mul' le_rfl (orNothing_le_parenthesized _ arguments?)) le_rfl
  cases nested? with
  | none =>
      show _ * (1 : Language Token) ≤ _
      rw [mul_one, Selection.spellings]
      exact hhead
  | some nested =>
      rw [Selection.spellings, Selection.itemSpellings_eq]
      exact mul_le_mul' hhead le_rfl

/-- What dots are to be followed by, to spell a selection. -/
private def afterDots (selection : Selection) : Language Token :=
  {tokens | ∀ dots ∈ sign .ellipsis, dots ++ tokens ∈ selection.spellings}

private theorem mul_le_of_mem_afterDots {L : Language Token} {selection : Selection}
    (h : sign .ellipsis * L ≤ selection.spellings) : L ≤ afterDots selection :=
  fun _ hmem _ hdots => h (mem_mul hdots hmem)

theorem foresees_inlineFragment (budget : Nat) {selectionSet : Parser (List Selection)}
    (h : Foresees selectionSet Selection.setSpellings) :
    Foresees (inlineFragment budget selectionSet) afterDots := by
  refine ((((Foresees.keyword "on").right foresees_name).optional.both
    (foresees_directives budget)).both h).map ?_
  rintro ⟨⟨condition?, directives⟩, nested⟩
  refine mul_le_of_mem_afterDots ?_
  rw [Selection.spellings, Selection.itemSpellings_eq]
  simp only [mul_assoc]
  exact le_rfl

theorem foresees_spread (budget : Nat) : Foresees (spread budget) afterDots := by
  refine (foresees_fragmentName.both (foresees_directives budget)).map ?_
  rintro ⟨text, directives⟩
  refine mul_le_of_mem_afterDots ?_
  rw [Selection.spellings, mul_assoc]

theorem foresees_selection (budget : Nat) {selectionSet : Parser (List Selection)}
    (h : Foresees selectionSet Selection.setSpellings) :
    Foresees (selection budget selectionSet) Selection.spellings := by
  refine Foresees.choice ?_
  simp only [List.forall_mem_cons, List.not_mem_nil, false_imp_iff, implies_true, and_true]
  refine ⟨foresees_field budget h, ?_⟩
  have hdots : Foresees (choice [inlineFragment budget selectionSet, spread budget]) afterDots := by
    refine Foresees.choice ?_
    simp only [List.forall_mem_cons, List.not_mem_nil, false_imp_iff, implies_true, and_true]
    exact ⟨foresees_inlineFragment budget h, foresees_spread budget⟩
  refine ((Foresees.expect .ellipsis rfl).right hdots).mono ?_
  rintro selection _ ⟨dots, hdots, rest, hrest, rfl⟩
  exact hrest dots hdots

theorem foresees_braced {items : Parser (List Selection)}
    (h : Foresees items fun selections =>
      {tokens | selections ≠ [] ∧ tokens ∈ Spelling.commaList Selection.spellings selections}) :
    Foresees (braced items) Selection.setSpellings := by
  refine (h.enclosed _ _ rfl rfl).mono ?_
  rintro selections _ ⟨_, ⟨opening, hopening, inner, ⟨hne, hinner⟩, rfl⟩, closing, hclosing, rfl⟩
  obtain ⟨first, rest, rfl⟩ := List.exists_cons_of_ne_nil hne
  exact mem_mul (mem_mul hopening hinner) hclosing

theorem foresees_selectionSet (budget : Nat) :
    Foresees (selectionSet budget) Selection.setSpellings := by
  induction budget with
  | zero =>
      -- One field, which is its name, spells a list of selections.
      have hfield : Selection.spellings (.field ⟨none, "", [], []⟩ none) = ident "" := by
        simp only [Selection.spellings, Field.spellings, orNothing, Spelling.parenthesized, inOrder,
          one_mul, mul_one]
      have hempty : [] ∈ Spelling.commas := fun _ ht => absurd ht List.not_mem_nil
      have hone : [⟨.name, "", {}⟩] ∈ ident "" := mem_word rfl rfl
      exact foresees_braced (.stop ⟨[.field ⟨none, "", [], []⟩ none], _, List.cons_ne_nil _ _,
        mem_mul (mem_mul hempty (hfield.symm ▸ hone)) hempty⟩)
  | succ budget ih => exact foresees_braced (foresees_commaList1 (foresees_selection budget ih))

/-! Variable declarations -/

theorem foresees_typeWith {item : Parser TypeRef} (h : Foresees item TypeRef.spellings) :
    Foresees (typeWith item) TypeRef.spellings := by
  have hbase : Foresees (choice [map TypeRef.named name, map TypeRef.list (bracketed item)])
      fun type => {tokens | type.isNonNull = false ∧ tokens ∈ type.spellings} := by
    refine Foresees.choice ?_
    simp only [List.forall_mem_cons, List.not_mem_nil, false_imp_iff, implies_true, and_true]
    refine ⟨foresees_name.map fun text tokens ht => ⟨rfl, ?_⟩,
      (h.enclosed _ _ rfl rfl).map fun type tokens ht => ⟨rfl, ?_⟩⟩
    · rw [TypeRef.spellings]
      exact ht
    · rw [TypeRef.spellings]
      exact ht
  refine (hbase.both (Foresees.expect .bang rfl).optional).map ?_
  rintro ⟨type, bang?⟩ _ ⟨first, ⟨hmark, hfirst⟩, second, hsecond, rfl⟩
  cases bang? with
  | none =>
      obtain rfl : second = [] := hsecond
      show first ++ [] ∈ type.spellings
      rw [List.append_nil]
      exact hfirst
  | some t =>
      show _ ∈ TypeRef.spellings (.nonNull type)
      rw [TypeRef.spellings, hmark]
      exact mem_mul hfirst hsecond

theorem foresees_typeRef (budget : Nat) : Foresees (typeRef budget) TypeRef.spellings := by
  induction budget with
  | zero => exact foresees_typeWith (.stop ⟨.named "", [⟨.name, "", {}⟩], mem_word rfl rfl⟩)
  | succ budget ih => exact foresees_typeWith ih

theorem foresees_variableDefinition (budget : Nat) :
    Foresees (variableDefinition budget) VariableDefinition.spellings := by
  refine ((((((Foresees.expect .dollar rfl).both foresees_name).both
    (Foresees.expect .colon rfl)).both (foresees_typeRef budget)).both
    ((Foresees.expect .equals rfl).right (foresees_value budget)).optional).both
    (foresees_directives budget)).map ?_
  rintro ⟨⟨⟨⟨⟨_, text⟩, _⟩, type⟩, default?⟩, directives⟩
  simp only [VariableDefinition.spellings, Spelling.named, mul_assoc]
  exact le_rfl

theorem foresees_variableDefinitions (budget : Nat) :
    Foresees (variableDefinitions budget) fun values => enclosed .parenOpen .parenClose
      {tokens | values ≠ [] ∧ tokens ∈ Spelling.commaList VariableDefinition.spellings values} :=
  (foresees_commaList1 (foresees_variableDefinition budget)).enclosed _ _ rfl rfl

/-! Definitions -/

theorem foresees_operationKind : Foresees operationKind fun kind => ident kind.text := by
  refine Foresees.choice ?_
  simp only [List.forall_mem_cons, List.not_mem_nil, false_imp_iff, implies_true, and_true]
  exact ⟨(Foresees.keyword _).map fun _ => le_rfl, (Foresees.keyword _).map fun _ => le_rfl,
    (Foresees.keyword _).map fun _ => le_rfl⟩

theorem ne_nil_of_mem_setSpellings {selections : List Selection} {tokens : List Token}
    (h : tokens ∈ Selection.setSpellings selections) : tokens ≠ [] := by
  cases selections with
  | nil => exact absurd h (Language.notMem_zero _)
  | cons first rest =>
      obtain ⟨_, ⟨_, ⟨t, rfl, -⟩, _, -, rfl⟩, _, -, rfl⟩ := h
      simp

theorem foresees_operation (budget : Nat) : Foresees (operation budget) Operation.spellings := by
  refine Foresees.choice ?_
  simp only [List.forall_mem_cons, List.not_mem_nil, false_imp_iff, implies_true, and_true]
  refine ⟨((((foresees_operationKind.both foresees_name.optional).both
    (foresees_variableDefinitions budget).optional).both (foresees_directives budget)).both
    (foresees_selectionSet budget)).placed ?_, (foresees_selectionSet budget).placed ?_⟩
  · rintro ⟨⟨⟨⟨kind, name?⟩, declarations?⟩, directives⟩, selections⟩ tokens ht
    have hle : ident kind.text * orNothing ident name? *
        orNothing (fun values => enclosed .parenOpen .parenClose
          {tokens | values ≠ [] ∧ tokens ∈ Spelling.commaList VariableDefinition.spellings values})
          declarations? * inOrder Directive.spellings directives *
        Selection.setSpellings selections ≤ Operation.keywordSpellings
          ⟨kind, name?, declarations?.getD [], directives, selections, start tokens⟩ :=
      mul_le_mul' (mul_le_mul' (mul_le_mul' le_rfl
        (orNothing_le_parenthesized _ declarations?)) le_rfl) le_rfl
    refine ⟨?_, .inl (hle ht), rfl⟩
    obtain ⟨_, -, _, hset, rfl⟩ := ht
    simp [ne_nil_of_mem_setSpellings hset]
  · intro selections tokens ht
    exact ⟨ne_nil_of_mem_setSpellings ht, .inr ⟨⟨rfl, rfl, rfl, rfl⟩, ht⟩, rfl⟩

theorem foresees_fragment (budget : Nat) : Foresees (fragment budget) Fragment.spellings := by
  refine ((((((Foresees.keyword "fragment").both foresees_fragmentName).both
    (Foresees.keyword "on")).both foresees_name).both (foresees_directives budget)).both
    (foresees_selectionSet budget)).placed ?_
  rintro ⟨⟨⟨⟨⟨_, text⟩, _⟩, condition⟩, directives⟩, selections⟩ tokens ht
  refine ⟨?_, ht, rfl⟩
  obtain ⟨_, -, _, hset, rfl⟩ := ht
  simp [ne_nil_of_mem_setSpellings hset]

theorem foresees_definitions (budget : Nat) :
    Foresees (definitions budget) fun values =>
      {tokens | values ≠ [] ∧ tokens ∈ inOrder Definition.spellings values} := by
  refine Foresees.many1 (Foresees.choice ?_)
  simp only [List.forall_mem_cons, List.not_mem_nil, false_imp_iff, implies_true, and_true]
  exact ⟨(foresees_operation budget).map fun _ => le_rfl,
    (foresees_fragment budget).map fun _ => le_rfl⟩

/-- The spellings of a document without the end of the input. -/
def definitionSpellings (document : Document) : Language Token :=
  {tokens | document.definitions ≠ [] ∧ tokens ∈ inOrder Definition.spellings document.definitions}

theorem foresees_definitionList (budget : Nat) :
    Foresees (map Document.mk (definitions budget)) definitionSpellings :=
  (foresees_definitions budget).map fun _ => le_rfl

theorem definitionSpellings_mul_le (document : Document) :
    definitionSpellings document * sign .endOfInput ≤ document.spellings := by
  obtain ⟨definitions⟩ := document
  rintro _ ⟨front, ⟨hne, hfront⟩, last, hlast, rfl⟩
  obtain ⟨first, rest, rfl⟩ := List.exists_cons_of_ne_nil hne
  exact mem_mul hfront hlast

theorem sound_document (budget : Nat) : Sound (document budget) Document.spellings :=
  ((foresees_definitionList budget).sound.left (sound_expect .endOfInput)).mono
    definitionSpellings_mul_le

end Grammar

/--
**A document that is read is spelled by its tokens**, up to the end of the input and what
may be left behind it.
-/
theorem Document.mem_spellings_of_ofTokens {tokens : List Token} {document : Document}
    (h : Document.ofTokens tokens = .ok document) :
    ∃ taken rest, taken ∈ document.spellings ∧ tokens = taken ++ rest := by
  unfold Document.ofTokens at h
  split at h
  · simp at h
  · split at h
    · rename_i parsed hparsed
      simp only [Except.ok.injEq] at h
      subst h
      obtain ⟨taken, hmem, hadv⟩ := Grammar.sound_document _ (Parser.accepts_of_eq_ok hparsed)
      exact ⟨taken, _, hmem, hadv.ahead⟩
    · simp at h

/-- A document that is read is within the nesting limit. -/
theorem Document.tooDeep?_of_ofTokens {tokens : List Token} {document : Document}
    (h : Document.ofTokens tokens = .ok document) : Grammar.tooDeep? 0 tokens = none := by
  unfold Document.ofTokens at h
  split at h
  · simp at h
  · assumption

end QueryBatching
