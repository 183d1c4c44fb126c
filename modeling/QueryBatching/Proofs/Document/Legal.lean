/-
Documents that can be written down.

Not every tree is the tree of a source text: its names have to be names and its scalars
scalars, a selection set must not be empty, a fragment is not called `on`, and no type is
marked as non-null twice.  `Legal` says all of that, and with it how many brackets the tree
may open inside one another: a legal tree with `room` for so many of them is one that can be
read where no more than that is left of the nesting limit.

The documents the parser reads are legal, which is the point of the definitions: being legal
is about the tree alone, so it can be followed through everything that is done to trees.
-/
import QueryBatching.Parse.Grammar
import QueryBatching.Proofs.Document.Trees
import QueryBatching.Proofs.Grammar.Soundness
import QueryBatching.Proofs.Token.Writing

namespace QueryBatching

open Token (IsLexeme Kind)

/-- A word that is a name, and none of the three words that are constants. -/
def IsName (text : String) : Prop := IsLexeme .name text

/-! ### Legal trees -/

namespace Value

mutual

/-- A value that can be written where `room` brackets may still be opened. -/
def Legal : (room : Nat) → Value → Prop
  | _, .var name => IsName name
  | _, .int text => IsLexeme .intLiteral text
  | _, .float text => IsLexeme .floatLiteral text
  | _, .string text => IsLexeme .stringLiteral text
  | _, .enum name => IsName name
  | _, .bool _ => True
  | _, .null => True
  | room, .list items => 0 < room ∧ ItemsLegal (room - 1) items
  | room, .object fields => 0 < room ∧ FieldsLegal (room - 1) fields

/-- Values that can all be written. -/
def ItemsLegal : (room : Nat) → List Value → Prop
  | _, [] => True
  | room, item :: rest => Legal room item ∧ ItemsLegal room rest

/-- Names and values that can all be written. -/
def FieldsLegal : (room : Nat) → List (String × Value) → Prop
  | _, [] => True
  | room, (key, value) :: rest => (IsName key ∧ Legal room value) ∧ FieldsLegal room rest

end

theorem itemsLegal_iff {room : Nat} {items : List Value} :
    ItemsLegal room items ↔ ∀ item ∈ items, Legal room item := by
  induction items with
  | nil => simp [ItemsLegal]
  | cons item rest ih => rw [ItemsLegal, ih, List.forall_mem_cons]

theorem fieldsLegal_iff {room : Nat} {fields : List (String × Value)} :
    FieldsLegal room fields ↔ ∀ field ∈ fields, IsName field.1 ∧ Legal room field.2 := by
  induction fields with
  | nil => simp [FieldsLegal]
  | cons field rest ih => rw [FieldsLegal, ih, List.forall_mem_cons]

end Value

/-- An argument that can be written. -/
structure Argument.Legal (room : Nat) (argument : Argument) : Prop where
  name : IsName argument.name
  value : argument.value.Legal room

/-- A directive that can be written. -/
structure Directive.Legal (room : Nat) (directive : Directive) : Prop where
  name : IsName directive.name
  arguments : ∀ argument ∈ directive.arguments, argument.Legal room

/-- A field that can be written, without the selections below it. -/
structure Field.Legal (room : Nat) (field : Field) : Prop where
  key : ∀ key ∈ field.alias?, IsName key
  name : IsName field.name
  arguments : ∀ argument ∈ field.arguments, argument.Legal room
  directives : ∀ directive ∈ field.directives, directive.Legal room

/-- A name a fragment can have. -/
structure IsFragmentName (text : String) : Prop where
  name : IsName text
  ne_on : text ≠ "on"

namespace Selection

mutual

/-- A selection that can be written. -/
def Legal : (room : Nat) → Selection → Prop
  | room, .field head none => head.Legal room
  | room, .field head (some nested) =>
    head.Legal room ∧ 0 < room ∧ nested ≠ [] ∧ AllLegal (room - 1) nested
  | room, .spread name directives =>
    IsFragmentName name ∧ ∀ directive ∈ directives, directive.Legal room
  | room, .inlineFragment condition? directives nested =>
    (∀ condition ∈ condition?, IsName condition) ∧
      (∀ directive ∈ directives, directive.Legal room) ∧
      0 < room ∧ nested ≠ [] ∧ AllLegal (room - 1) nested

/-- Selections that can all be written. -/
def AllLegal : (room : Nat) → List Selection → Prop
  | _, [] => True
  | room, selection :: rest => Legal room selection ∧ AllLegal room rest

end

theorem allLegal_iff {room : Nat} {selections : List Selection} :
    AllLegal room selections ↔ ∀ selection ∈ selections, Legal room selection := by
  induction selections with
  | nil => simp [AllLegal]
  | cons selection rest ih => rw [AllLegal, ih, List.forall_mem_cons]

theorem Legal.head {room : Nat} {head : Field} {nested? : Option (List Selection)}
    (h : (Selection.field head nested?).Legal room) : head.Legal room := by
  cases nested? with
  | none => exact h
  | some nested => exact h.1

/-- A selection set that can be written. -/
structure SetLegal (room : Nat) (selections : List Selection) : Prop where
  room_pos : 0 < room
  ne_nil : selections ≠ []
  all : ∀ selection ∈ selections, Legal (room - 1) selection

end Selection

/-- A type that can be written. -/
def TypeRef.Legal : (room : Nat) → TypeRef → Prop
  | _, .named name => IsName name
  | room, .list item => 0 < room ∧ item.Legal (room - 1)
  | room, .nonNull type => type.isNonNull = false ∧ type.Legal room

/-- A declaration of a variable that can be written. -/
structure VariableDefinition.Legal (room : Nat) (definition : VariableDefinition) : Prop where
  name : IsName definition.name
  type : definition.type.Legal room
  default : ∀ value ∈ definition.default?, value.Legal room
  directives : ∀ directive ∈ definition.directives, directive.Legal room

/-- An operation that can be written. -/
structure Operation.Legal (room : Nat) (operation : Operation) : Prop where
  name : ∀ name ∈ operation.name?, IsName name
  declarations : ∀ definition ∈ operation.declarations, definition.Legal room
  directives : ∀ directive ∈ operation.directives, directive.Legal room
  selections : Selection.SetLegal room operation.selections

/-- A fragment that can be written. -/
structure Fragment.Legal (room : Nat) (fragment : Fragment) : Prop where
  name : IsFragmentName fragment.name
  condition : IsName fragment.condition
  directives : ∀ directive ∈ fragment.directives, directive.Legal room
  selections : Selection.SetLegal room fragment.selections

/-- A definition that can be written. -/
def Definition.Legal (room : Nat) : Definition → Prop
  | .operation found => found.Legal room
  | .fragment found => found.Legal room

/-- A document that can be written. -/
structure Document.Legal (room : Nat) (document : Document) : Prop where
  ne_nil : document.definitions ≠ []
  all : ∀ definition ∈ document.definitions, definition.Legal room

/-! ### What tokens say about what they spell -/

namespace Grammar

open Spelling

/-- Tokens that come from a scan. -/
def Lexed (tokens : List Token) : Prop :=
  ∀ t ∈ tokens, t.kind = .endOfInput ∨ IsLexeme t.kind t.text

theorem lexed_append {first second : List Token} :
    Lexed (first ++ second) ↔ Lexed first ∧ Lexed second := by
  simp only [Lexed, List.forall_mem_append]

/--
Where tokens from a scan that spell something are within the nesting limit, `P` holds of what
is left of the limit, and the tokens behind them are within it as well.
-/
def Grants (L : Language Token) (P : Nat → Prop) : Prop :=
  ∀ ⦃depth : Nat⦄ ⦃tokens rest : List Token⦄, tokens ∈ L → Lexed tokens →
    tooDeep? depth (tokens ++ rest) = none →
      P (nestingLimit - depth) ∧ tooDeep? depth rest = none

theorem Grants.mono {L M : Language Token} {P Q : Nat → Prop} (h : Grants L P) (hle : M ≤ L)
    (hpq : ∀ room, P room → Q room) : Grants M Q := by
  intro depth tokens rest hmem hlexed hdepth
  obtain ⟨hp, hrest⟩ := h (hle hmem) hlexed hdepth
  exact ⟨hpq _ hp, hrest⟩

theorem Grants.mul {L M : Language Token} {P Q : Nat → Prop} (h : Grants L P)
    (h' : Grants M Q) : Grants (L * M) fun room => P room ∧ Q room := by
  rintro depth _ rest ⟨first, hfirst, second, hsecond, rfl⟩ hlexed hdepth
  obtain ⟨hlexed, hlexed'⟩ := lexed_append.mp hlexed
  simp only [List.append_assoc] at hdepth
  obtain ⟨hp, hdepth⟩ := h hfirst hlexed hdepth
  obtain ⟨hq, hdepth⟩ := h' hsecond hlexed' hdepth
  exact ⟨⟨hp, hq⟩, hdepth⟩

theorem grants_zero (P : Nat → Prop) : Grants 0 P :=
  fun _ _ _ hmem => absurd hmem (Language.notMem_zero _)

theorem grants_one : Grants 1 fun _ => True := by
  rintro depth _ rest rfl - hdepth
  exact ⟨trivial, hdepth⟩

/-- The kinds of tokens that count towards the nesting limit. -/
def brackets : List Kind := [.braceOpen, .bracketOpen, .braceClose, .bracketClose]

theorem tooDeep?_cons {t : Token} (h : t.kind ∉ brackets) (depth : Nat) (rest : List Token) :
    tooDeep? depth (t :: rest) = tooDeep? depth rest := by
  rw [tooDeep?]
  split <;> simp_all [brackets]

theorem grants_sign {kind : Kind} (h : kind ∉ brackets) : Grants (sign kind) fun _ => True := by
  rintro depth _ rest ⟨t, rfl, rfl⟩ - hdepth
  exact ⟨trivial, tooDeep?_cons h depth rest ▸ hdepth⟩

theorem grants_word {kind : Kind} (text : String) (h : kind ∉ brackets)
    (hend : kind ≠ .endOfInput) : Grants (word kind text) fun _ => IsLexeme kind text := by
  rintro depth _ rest ⟨t, rfl, rfl, rfl⟩ hlexed hdepth
  refine ⟨?_, tooDeep?_cons h depth rest ▸ hdepth⟩
  rcases hlexed t (by simp) with ht | ht
  · exact absurd ht hend
  · exact ht

theorem grants_commas : Grants Spelling.commas fun _ => True := by
  intro depth tokens rest hmem hlexed hdepth
  refine ⟨trivial, ?_⟩
  clear hlexed
  induction tokens with
  | nil => exact hdepth
  | cons t tokens ih =>
      refine ih (fun u hu => hmem u (List.mem_cons_of_mem t hu)) ?_
      rw [List.cons_append, tooDeep?_cons (by simp [hmem t (by simp), brackets])] at hdepth
      exact hdepth

/-- The two pairs of brackets that count. -/
def bracketPairs : List (Kind × Kind) :=
  [(.braceOpen, .braceClose), (.bracketOpen, .bracketClose)]

theorem tooDeep?_opening {opening closing : Kind} (h : (opening, closing) ∈ bracketPairs)
    {t : Token} (ht : t.kind = opening) (depth : Nat) (rest : List Token) :
    tooDeep? depth (t :: rest) =
      if nestingLimit < depth + 1 then some t else tooDeep? (depth + 1) rest := by
  simp only [bracketPairs, List.mem_cons, Prod.mk.injEq, List.not_mem_nil, or_false] at h
  rcases h with ⟨rfl, rfl⟩ | ⟨rfl, rfl⟩
  · simp only [tooDeep?, ht]
  · simp only [tooDeep?, ht]

theorem tooDeep?_closing {opening closing : Kind} (h : (opening, closing) ∈ bracketPairs)
    {t : Token} (ht : t.kind = closing) (depth : Nat) (rest : List Token) :
    tooDeep? depth (t :: rest) = tooDeep? (depth - 1) rest := by
  simp only [bracketPairs, List.mem_cons, Prod.mk.injEq, List.not_mem_nil, or_false] at h
  rcases h with ⟨rfl, rfl⟩ | ⟨rfl, rfl⟩
  · simp only [tooDeep?, ht]
  · simp only [tooDeep?, ht]

/-- Brackets take one from what is left of the limit. -/
theorem Grants.enclosed {L : Language Token} {P : Nat → Prop} (h : Grants L P)
    {opening closing : Kind} (hpair : (opening, closing) ∈ bracketPairs) :
    Grants (Spelling.enclosed opening closing L) fun room => 0 < room ∧ P (room - 1) := by
  rintro depth _ rest ⟨_, ⟨_, ⟨o, rfl, ho⟩, inner, hinner, rfl⟩, _, ⟨c, rfl, hc⟩, rfl⟩ hlexed hdepth
  simp only [List.append_assoc, List.cons_append, List.nil_append] at hdepth
  rw [tooDeep?_opening hpair ho] at hdepth
  split at hdepth
  · simp at hdepth
  · rename_i hroom
    obtain ⟨hlexed, -⟩ := lexed_append.mp hlexed
    obtain ⟨hp, hdepth⟩ := h hinner (lexed_append.mp hlexed).2 hdepth
    rw [tooDeep?_closing hpair hc, Nat.add_sub_cancel] at hdepth
    refine ⟨⟨by omega, ?_⟩, hdepth⟩
    rw [Nat.sub_sub]
    exact hp

theorem Grants.parens {L : Language Token} {P : Nat → Prop} (h : Grants L P) :
    Grants (Spelling.enclosed .parenOpen .parenClose L) P :=
  (((grants_sign (by decide)).mul h).mul (grants_sign (by decide))).mono le_rfl
    fun _ hp => hp.1.2

section Lists

variable {α : Type} {spell : α → Language Token} {P : α → Nat → Prop}

theorem grants_inOrder {items : List α} (h : ∀ item ∈ items, Grants (spell item) (P item)) :
    Grants (inOrder spell items) fun room => ∀ item ∈ items, P item room := by
  induction items with
  | nil => exact grants_one.mono le_rfl fun _ _ item hitem => absurd hitem List.not_mem_nil
  | cons item rest ih =>
      rw [List.forall_mem_cons] at h
      refine (h.1.mul (ih h.2)).mono le_rfl fun room hroom => ?_
      rwa [List.forall_mem_cons]

theorem grants_commaList {items : List α} (h : ∀ item ∈ items, Grants (spell item) (P item)) :
    Grants (Spelling.commaList spell items) fun room => ∀ item ∈ items, P item room := by
  rw [commaList_eq]
  have hitem : ∀ item ∈ items, Grants (spell item * Spelling.commas) (P item) :=
    fun item hmem => ((h item hmem).mul grants_commas).mono le_rfl fun _ hp => hp.1
  exact (grants_commas.mul (grants_inOrder hitem)).mono le_rfl fun _ hp => hp.2

theorem grants_parenthesized {items : List α} (h : ∀ item ∈ items, Grants (spell item) (P item)) :
    Grants (Spelling.parenthesized spell items) fun room => ∀ item ∈ items, P item room := by
  cases items with
  | nil => exact grants_one.mono le_rfl fun _ _ item hitem => absurd hitem List.not_mem_nil
  | cons first rest => exact (grants_commaList h).parens

theorem grants_orNothing {item? : Option α} (h : ∀ item ∈ item?, Grants (spell item) (P item)) :
    Grants (orNothing spell item?) fun room => ∀ item ∈ item?, P item room := by
  cases item? with
  | none => exact grants_one.mono le_rfl fun _ _ => nofun
  | some item =>
      refine (h item rfl).mono le_rfl fun room hp other hother => ?_
      exact Option.some.inj hother ▸ hp

end Lists

theorem grants_ident (text : String) : Grants (ident text) fun _ => IsName text :=
  grants_word text (by decide) (by decide)

theorem grants_fragmentName (text : String) :
    Grants (Spelling.fragmentName text) fun _ => IsFragmentName text := by
  unfold Spelling.fragmentName
  split
  · exact grants_zero _
  · rename_i hne
    exact (grants_ident text).mono le_rfl fun _ hname => ⟨hname, hne⟩

theorem grants_named (text : String) {L : Language Token} {P : Nat → Prop} (h : Grants L P) :
    Grants (Spelling.named text L) fun room => IsName text ∧ P room :=
  (((grants_ident text).mul (grants_sign (by decide))).mul h).mono le_rfl
    fun _ hp => ⟨hp.1.1, hp.2⟩

end Grammar

open Grammar Spelling

/-! ### What is read is legal -/

theorem Value.grants (value : Value) : Grants value.spellings fun room => value.Legal room := by
  induction value using Value.induction with
  | var name =>
      rw [spellings]
      exact ((grants_sign (by decide)).mul (grants_ident name)).mono le_rfl fun _ hp => hp.2
  | int text =>
      rw [spellings]
      exact grants_word text (by decide) (by decide)
  | float text =>
      rw [spellings]
      exact grants_word text (by decide) (by decide)
  | string text =>
      rw [spellings]
      exact grants_word text (by decide) (by decide)
  | enum name =>
      rw [spellings]
      exact grants_ident name
  | bool b =>
      cases b with
      | true =>
          rw [spellings]
          exact grants_sign (by decide)
      | false =>
          rw [spellings]
          exact grants_sign (by decide)
  | null =>
      rw [spellings]
      exact grants_sign (by decide)
  | list items ih =>
      rw [spellings, itemSpellings_eq]
      refine ((grants_commaList ih).enclosed (by decide)).mono le_rfl fun room hp => ?_
      rwa [Legal, itemsLegal_iff]
  | object fields ih =>
      rw [spellings, fieldSpellings_eq]
      refine ((grants_commaList fun field hfield => grants_named field.1
        (ih field hfield)).enclosed (by decide)).mono le_rfl fun room hp => ?_
      rwa [Legal, fieldsLegal_iff]

theorem Argument.grants (argument : Argument) :
    Grants argument.spellings fun room => argument.Legal room :=
  (grants_named argument.name argument.value.grants).mono le_rfl fun _ hp => ⟨hp.1, hp.2⟩

theorem Directive.grants (directive : Directive) :
    Grants directive.spellings fun room => directive.Legal room :=
  (((grants_sign (by decide)).mul (grants_ident directive.name)).mul
    (grants_parenthesized fun argument _ => argument.grants)).mono le_rfl
    fun _ hp => ⟨hp.1.2, hp.2⟩

theorem Directive.grants_all (directives : List Directive) :
    Grants (inOrder Directive.spellings directives)
      fun room => ∀ directive ∈ directives, directive.Legal room :=
  grants_inOrder fun directive _ => directive.grants

theorem Field.grants (field : Field) : Grants field.spellings fun room => field.Legal room := by
  have halias : Grants (orNothing (fun key => ident key * sign .colon) field.alias?)
      fun _ => ∀ key ∈ field.alias?, IsName key :=
    grants_orNothing fun key _ => ((grants_ident key).mul (grants_sign (by decide))).mono le_rfl
      fun _ hp => hp.1
  exact (((halias.mul (grants_ident field.name)).mul
    (grants_parenthesized fun argument _ => argument.grants)).mul
    (Directive.grants_all field.directives)).mono le_rfl
    fun _ hp => ⟨hp.1.1.1, hp.1.1.2, hp.1.2, hp.2⟩

namespace Selection

theorem grants_set {selections : List Selection}
    (h : ∀ selection ∈ selections, Grants selection.spellings fun room => selection.Legal room) :
    Grants (setSpellings selections) fun room => SetLegal room selections := by
  cases selections with
  | nil => exact grants_zero _
  | cons first rest =>
      exact ((grants_commaList h).enclosed (by decide)).mono le_rfl
        fun _ hp => ⟨hp.1, List.cons_ne_nil _ _, hp.2⟩

theorem grants (selection : Selection) :
    Grants selection.spellings fun room => selection.Legal room := by
  induction selection using Selection.induction with
  | leaf head =>
      rw [spellings]
      exact head.grants
  | field head nested ih =>
      rw [spellings, itemSpellings_eq]
      refine (head.grants.mul (grants_set ih)).mono le_rfl fun room hp => ?_
      exact ⟨hp.1, hp.2.room_pos, hp.2.ne_nil, allLegal_iff.mpr hp.2.all⟩
  | spread name directives =>
      rw [spellings]
      exact (((grants_sign (by decide)).mul (grants_fragmentName name)).mul
        (Directive.grants_all directives)).mono le_rfl fun _ hp => ⟨hp.1.2, hp.2⟩
  | inlineFragment condition? directives nested ih =>
      rw [spellings, itemSpellings_eq]
      have hcondition : Grants
          (orNothing (fun condition => ident "on" * ident condition) condition?)
          fun _ => ∀ condition ∈ condition?, IsName condition :=
        grants_orNothing fun condition _ => ((grants_ident "on").mul
          (grants_ident condition)).mono le_rfl fun _ hp => hp.2
      refine ((((grants_sign (by decide)).mul hcondition).mul
        (Directive.grants_all directives)).mul (grants_set ih)).mono le_rfl fun room hp => ?_
      exact ⟨hp.1.1.2, hp.1.2, hp.2.room_pos, hp.2.ne_nil, allLegal_iff.mpr hp.2.all⟩

end Selection

theorem TypeRef.grants (type : TypeRef) : Grants type.spellings fun room => type.Legal room := by
  induction type with
  | named name =>
      rw [spellings]
      exact grants_ident name
  | list item ih =>
      rw [spellings]
      exact ih.enclosed (by decide)
  | nonNull type ih =>
      rw [spellings]
      split
      · exact grants_zero _
      · rename_i hmark
        exact (ih.mul (grants_sign (by decide))).mono le_rfl
          fun _ hp => ⟨by simpa using hmark, hp.1⟩

theorem VariableDefinition.grants (definition : VariableDefinition) :
    Grants definition.spellings fun room => definition.Legal room := by
  have hdefault : Grants (orNothing (fun value => sign .equals * value.spellings)
      definition.default?) fun room => ∀ value ∈ definition.default?, value.Legal room :=
    grants_orNothing fun value _ => ((grants_sign (by decide)).mul value.grants).mono le_rfl
      fun _ hp => hp.2
  exact ((((grants_sign (by decide)).mul (grants_named definition.name
    definition.type.grants)).mul hdefault).mul (Directive.grants_all definition.directives)).mono
    le_rfl fun _ hp => ⟨hp.1.1.2.1, hp.1.1.2.2, hp.1.2, hp.2⟩

theorem Operation.grants (operation : Operation) :
    Grants operation.spellings fun room => operation.Legal room := by
  have hset := @Selection.grants_set operation.selections fun s _ => s.grants
  have hkeyword : Grants operation.keywordSpellings fun room => operation.Legal room :=
    (((((grants_ident operation.kind.text).mul (grants_orNothing fun name _ =>
      grants_ident name)).mul (grants_parenthesized fun definition _ => definition.grants)).mul
      (Directive.grants_all operation.directives)).mul hset).mono le_rfl
      fun _ hp => ⟨hp.1.1.1.2, hp.1.1.2, hp.1.2, hp.2⟩
  intro depth tokens rest hmem hlexed hdepth
  rcases hmem.1 with hlong | ⟨⟨-, hname, hdeclarations, hdirectives⟩, hshort⟩
  · exact hkeyword hlong hlexed hdepth
  · obtain ⟨hlegal, hrest⟩ := hset hshort hlexed hdepth
    refine ⟨⟨?_, ?_, ?_, hlegal⟩, hrest⟩
    · simp [hname]
    · simp [hdeclarations]
    · simp [hdirectives]

theorem Fragment.grants (fragment : Fragment) :
    Grants fragment.spellings fun room => fragment.Legal room :=
  ((((((grants_ident "fragment").mul (grants_fragmentName fragment.name)).mul
    (grants_ident "on")).mul (grants_ident fragment.condition)).mul
    (Directive.grants_all fragment.directives)).mul
    (Selection.grants_set fun s _ => s.grants)).mono (fun _ hmem => hmem.1)
    fun _ hp => ⟨hp.1.1.1.1.2, hp.1.1.2, hp.1.2, hp.2⟩

theorem Document.grants (document : Document) :
    Grants document.spellings fun room => document.Legal room := by
  obtain ⟨definitions⟩ := document
  have hall : ∀ definition ∈ definitions,
      Grants definition.spellings fun room => definition.Legal room := by
    intro definition _
    cases definition with
    | operation found => exact found.grants
    | fragment found => exact found.grants
  cases definitions with
  | nil => exact grants_zero _
  | cons first rest =>
      exact ((grants_inOrder hall).mul (grants_sign (by decide))).mono le_rfl
        fun _ hp => ⟨List.cons_ne_nil _ _, hp.1⟩

/-- What the scan of a source text gives comes from a scan. -/
theorem Grammar.lexed_of_tokenize {source : String} {tokens : List Token}
    (h : Token.tokenize source = .ok tokens) : Lexed tokens := by
  have hscan : ∀ (cs : List Char) (pending : Nat) (here : Location) (tokens : List Token),
      Token.collect (Token.scanFrom pending here cs) = .ok tokens → Lexed tokens := by
    intro cs
    induction cs with
    | nil =>
        intro pending here tokens h t ht
        simp only [Token.scanFrom, Token.collect, Except.map, Except.ok.injEq] at h
        subst h
        obtain rfl := List.mem_singleton.mp ht
        exact .inl rfl
    | cons c cs ih =>
        intro pending here tokens h
        cases pending with
        | succ pending =>
            rw [Token.scanFrom] at h
            exact ih _ _ _ h
        | zero =>
            rw [Token.scanFrom] at h
            split at h
            · exact ih _ _ _ h
            · split at h
              · exact ih _ _ _ h
              · split at h
                · rename_i kind tail hread
                  rw [Token.collect] at h
                  obtain ⟨rest, hrest, rfl⟩ := Outcomes.map_eq_ok.mp h
                  intro t ht
                  rcases List.mem_cons.mp ht with rfl | ht
                  · have hstable := (Lexeme.read_stable hread).2 [] Lexeme.Breaks.nil
                    rw [List.append_nil] at hstable
                    exact .inr ⟨c, tail, String.toList_ofList, hstable⟩
                  · exact ih _ _ _ hrest t ht
                · simp [Token.collect] at h
  exact hscan _ _ _ _ h

/-- **Every document that is read is legal**, with all the room there is. -/
theorem Document.legal_of_parse {source : String} {document : Document}
    (h : Document.parse source = .ok document) : document.Legal Grammar.nestingLimit := by
  unfold Document.parse at h
  split at h
  · simp at h
  · rename_i tokens htokens
    cases hdocument : Document.ofTokens tokens with
    | error error => simp [hdocument, Except.mapError] at h
    | ok found =>
        simp only [hdocument, Except.mapError, Except.ok.injEq] at h
        subst h
        have hdepth := Document.tooDeep?_of_ofTokens hdocument
        obtain ⟨taken, rest, hmem, rfl⟩ := Document.mem_spellings_of_ofTokens hdocument
        exact (found.grants hmem (lexed_append.mp (lexed_of_tokenize htokens)).1 hdepth).1

end QueryBatching
