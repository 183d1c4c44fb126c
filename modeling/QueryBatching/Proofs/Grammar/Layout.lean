/-
Where commas may stand.

A layout says which tokens a tree is spelled with, and between which of them there is a place for
commas: before every item of a list in brackets, and behind the last one.  It says nothing about
the commas themselves, so the layouts of a tree are a second language for it, over tokens and gaps.

The spellings of a tree are its layouts with any commas in the gaps.  That is shown along the
grammar by one relation between the two languages, which goes through concatenation; together with
it goes that a layout has no comma of its own, so all commas of a spelling are in gaps.
-/
import QueryBatching.Proofs.Document.Trees
import QueryBatching.Proofs.Grammar.FirstTokens

namespace QueryBatching

open Token (Kind)

/-- Tokens, and gaps between them, where any number of commas may stand. -/
abbrev Layout := List (Option Token)

namespace Layout

/-- The tokens are those of the layout, with nothing but commas in each of its gaps. -/
inductive Fills : Layout → List Token → Prop
  | nil : Fills [] []
  | token (t : Token) {layout : Layout} {tokens : List Token} :
      Fills layout tokens → Fills (some t :: layout) (t :: tokens)
  | gap {commas : List Token} {layout : Layout} {tokens : List Token} :
      commas ∈ Spelling.commas → Fills layout tokens → Fills (none :: layout) (commas ++ tokens)

theorem Fills.append {front back : Layout} {first second : List Token} (h : Fills front first)
    (h' : Fills back second) : Fills (front ++ back) (first ++ second) := by
  induction h with
  | nil => exact h'
  | token t _ ih => exact .token t ih
  | gap hcommas _ ih =>
      rw [List.append_assoc]
      exact .gap hcommas ih

/-- What fills two layouts one after the other fills the one and then the other. -/
theorem Fills.split {front back : Layout} {tokens : List Token} (h : Fills (front ++ back) tokens) :
    ∃ first second, tokens = first ++ second ∧ Fills front first ∧ Fills back second := by
  induction front generalizing tokens with
  | nil => exact ⟨[], tokens, rfl, .nil, h⟩
  | cons entry front ih =>
      cases h with
      | token t h =>
          obtain ⟨first, second, rfl, hfirst, hsecond⟩ := ih h
          exact ⟨t :: first, second, rfl, .token t hfirst, hsecond⟩
      | gap hcommas h =>
          obtain ⟨first, second, rfl, hfirst, hsecond⟩ := ih h
          exact ⟨_, second, (List.append_assoc _ first second).symm, .gap hcommas hfirst, hsecond⟩

/-- Tokens alone are a layout that only they fill. -/
theorem fills_map_some {tokens taken : List Token} :
    Fills (tokens.map some) taken ↔ taken = tokens := by
  induction tokens generalizing taken with
  | nil =>
      constructor
      · rintro ⟨⟩
        rfl
      · rintro rfl
        exact .nil
  | cons t tokens ih =>
      constructor
      · intro h
        cases h with
        | token _ h => rw [ih.mp h]
      · rintro rfl
        exact .token t (ih.mpr rfl)

theorem fills_gap {taken : List Token} : Fills [none] taken ↔ taken ∈ Spelling.commas := by
  constructor
  · intro h
    cases h with
    | gap hcommas h =>
        cases h with
        | nil => rwa [List.append_nil]
  · intro h
    exact List.append_nil taken ▸ .gap h .nil

/-- Where a layout starts that does not start with a gap. -/
def start : Layout → Position
  | some t :: _ => t.position
  | _ => {}

/-! ### The layouts of lists -/

/-- Spellings without any gap. -/
def solid (L : Language Token) : Language (Option Token) := Language.map some L

/-- A gap and nothing else. -/
def gap : Language (Option Token) := {[none]}

/-- Something between two brackets. -/
def enclosed (opening closing : Kind) (inner : Language (Option Token)) :
    Language (Option Token) :=
  solid (Spelling.sign opening) * inner * solid (Spelling.sign closing)

/-- Items one after another. -/
def inOrder {α : Type} (lay : α → Language (Option Token)) : List α → Language (Option Token)
  | [] => 1
  | item :: rest => lay item * inOrder lay rest

/-- Items with a gap before each of them and one behind the last. -/
def commaList {α : Type} (lay : α → Language (Option Token)) : List α → Language (Option Token)
  | [] => gap
  | item :: rest => gap * lay item * commaList lay rest

/-- A bracketed list that is left out when it is empty. -/
def parenthesized {α : Type} (lay : α → Language (Option Token)) :
    List α → Language (Option Token)
  | [] => 1
  | items => enclosed .parenOpen .parenClose (commaList lay items)

/-- Something that may be left out. -/
def orNothing {α : Type} (lay : α → Language (Option Token)) : Option α → Language (Option Token)
  | none => 1
  | some item => lay item

/-- A name, a colon, and what follows them. -/
def named (text : String) (rest : Language (Option Token)) : Language (Option Token) :=
  solid (Spelling.ident text * Spelling.sign .colon) * rest

end Layout

open Layout (solid)
open Spelling (sign word ident fragmentName)

/-! ### The layouts of a document -/

namespace Value

mutual

/-- The layouts of a value.  Only lists and objects have gaps. -/
def layouts : Value → Language (Option Token)
  | .list items => Layout.enclosed .bracketOpen .bracketClose (itemLayouts items)
  | .object fields => Layout.enclosed .braceOpen .braceClose (fieldLayouts fields)
  | value => solid value.spellings

/-- The layouts of the items of a list. -/
def itemLayouts : List Value → Language (Option Token)
  | [] => Layout.gap
  | item :: rest => Layout.gap * layouts item * itemLayouts rest

/-- The layouts of the fields of an object. -/
def fieldLayouts : List (String × Value) → Language (Option Token)
  | [] => Layout.gap
  | (key, value) :: rest => Layout.gap * Layout.named key (layouts value) * fieldLayouts rest

end

theorem itemLayouts_eq (items : List Value) :
    itemLayouts items = Layout.commaList layouts items := by
  induction items with
  | nil => rfl
  | cons item rest ih => simp only [itemLayouts, Layout.commaList, ih]

theorem fieldLayouts_eq (fields : List (String × Value)) :
    fieldLayouts fields =
      Layout.commaList (fun field => Layout.named field.1 field.2.layouts) fields := by
  induction fields with
  | nil => rfl
  | cons field rest ih =>
      obtain ⟨key, value⟩ := field
      simp only [fieldLayouts, Layout.commaList, ih]

end Value

/-- The layouts of an argument. -/
def Argument.layouts (argument : Argument) : Language (Option Token) :=
  Layout.named argument.name argument.value.layouts

/-- The layouts of a directive. -/
def Directive.layouts (directive : Directive) : Language (Option Token) :=
  solid (sign .atSign * ident directive.name) *
    Layout.parenthesized Argument.layouts directive.arguments

/-- The layouts of a field without the selections below it. -/
def Field.layouts (field : Field) : Language (Option Token) :=
  solid (Spelling.orNothing (fun key => ident key * sign .colon) field.alias? *
      ident field.name) *
    Layout.parenthesized Argument.layouts field.arguments *
    Layout.inOrder Directive.layouts field.directives

namespace Selection

/-- A selection set whose selections have the given layouts; it has at least one. -/
def bracedLayouts (inner : Language (Option Token)) : List Selection → Language (Option Token)
  | [] => 0
  | _ :: _ => Layout.enclosed .braceOpen .braceClose inner

mutual

/-- The layouts of a selection. -/
def layouts : Selection → Language (Option Token)
  | .field head none => head.layouts
  | .field head (some nested) => head.layouts * bracedLayouts (itemLayouts nested) nested
  | .spread text directives =>
    solid (sign .ellipsis * fragmentName text) * Layout.inOrder Directive.layouts directives
  | .inlineFragment condition? directives nested =>
    solid (sign .ellipsis *
        Spelling.orNothing (fun condition => ident "on" * ident condition) condition?) *
      Layout.inOrder Directive.layouts directives * bracedLayouts (itemLayouts nested) nested

/-- The layouts of several selections. -/
def itemLayouts : List Selection → Language (Option Token)
  | [] => Layout.gap
  | selection :: rest => Layout.gap * layouts selection * itemLayouts rest

end

theorem itemLayouts_eq (selections : List Selection) :
    itemLayouts selections = Layout.commaList layouts selections := by
  induction selections with
  | nil => rfl
  | cons selection rest ih => simp only [itemLayouts, Layout.commaList, ih]

/-- The layouts of a selection set. -/
def setLayouts (selections : List Selection) : Language (Option Token) :=
  bracedLayouts (Layout.commaList layouts selections) selections

end Selection

/-- The layouts of the declaration of a variable. -/
def VariableDefinition.layouts (definition : VariableDefinition) : Language (Option Token) :=
  solid (sign .dollar * Spelling.named definition.name definition.type.spellings) *
    Layout.orNothing (fun value => solid (sign .equals) * value.layouts) definition.default? *
    Layout.inOrder Directive.layouts definition.directives

namespace Operation

/-- The layouts of an operation with its keyword. -/
def keywordLayouts (operation : Operation) : Language (Option Token) :=
  solid (ident operation.kind.text * Spelling.orNothing ident operation.name?) *
    Layout.parenthesized VariableDefinition.layouts operation.declarations *
    Layout.inOrder Directive.layouts operation.directives *
    Selection.setLayouts operation.selections

/-- The layouts of an operation. -/
def layouts (operation : Operation) : Language (Option Token) :=
  {layout | (layout ∈ operation.keywordLayouts ∨
    operation.IsShorthand ∧ layout ∈ Selection.setLayouts operation.selections) ∧
      operation.position = Layout.start layout}

end Operation

namespace Fragment

/-- The layouts of a fragment, wherever it starts. -/
def bodyLayouts (fragment : Fragment) : Language (Option Token) :=
  solid (ident "fragment" * fragmentName fragment.name * ident "on" * ident fragment.condition) *
    Layout.inOrder Directive.layouts fragment.directives * Selection.setLayouts fragment.selections

/-- The layouts of a fragment. -/
def layouts (fragment : Fragment) : Language (Option Token) :=
  {layout | layout ∈ fragment.bodyLayouts ∧ fragment.position = Layout.start layout}

end Fragment

/-- The layouts of a definition. -/
def Definition.layouts : Definition → Language (Option Token)
  | .operation found => found.layouts
  | .fragment found => found.layouts

/-- The layouts of a document, with the end of the input after it. -/
def Document.layouts : Document → Language (Option Token)
  | ⟨[]⟩ => 0
  | ⟨definitions⟩ => Layout.inOrder Definition.layouts definitions * solid (sign .endOfInput)

/-! ### Spellings without commas -/

namespace Spelling

/-- No spelling has a comma. -/
def CommaFree (L : Language Token) : Prop := ∀ tokens ∈ L, ∀ t ∈ tokens, t.kind ≠ .comma

theorem commaFree_zero : CommaFree 0 := fun _ hmem => absurd hmem (Language.notMem_zero _)

theorem commaFree_one : CommaFree 1 := by
  rintro _ rfl t ht
  exact absurd ht List.not_mem_nil

theorem commaFree_sign {kind : Kind} (h : kind ≠ .comma) : CommaFree (sign kind) := by
  rintro _ ⟨u, rfl, hu⟩ t ht
  rwa [List.mem_singleton.mp ht, hu]

theorem commaFree_word {kind : Kind} (text : String) (h : kind ≠ .comma) :
    CommaFree (word kind text) := by
  rintro _ ⟨u, rfl, hu, -⟩ t ht
  rwa [List.mem_singleton.mp ht, hu]

theorem commaFree_ident (text : String) : CommaFree (ident text) := commaFree_word text (by decide)

theorem commaFree_fragmentName (text : String) : CommaFree (fragmentName text) := by
  unfold fragmentName
  split
  · exact commaFree_zero
  · exact commaFree_ident text

theorem CommaFree.mul {L M : Language Token} (h : CommaFree L) (h' : CommaFree M) :
    CommaFree (L * M) := by
  rintro _ ⟨first, hfirst, second, hsecond, rfl⟩ t ht
  rcases List.mem_append.mp ht with ht | ht
  · exact h first hfirst t ht
  · exact h' second hsecond t ht

theorem commaFree_orNothing {α : Type} {spell : α → Language Token}
    (h : ∀ a, CommaFree (spell a)) (item? : Option α) : CommaFree (orNothing spell item?) := by
  cases item? with
  | none => exact commaFree_one
  | some item => exact h item

end Spelling

open Spelling

theorem TypeRef.commaFree (type : TypeRef) : CommaFree type.spellings := by
  induction type with
  | named text => exact commaFree_ident text
  | list item ih => exact ((commaFree_sign (by decide)).mul ih).mul (commaFree_sign (by decide))
  | nonNull type ih =>
      rw [spellings]
      split
      · exact commaFree_zero
      · exact ih.mul (commaFree_sign (by decide))

/-! ### Spellings are filled layouts -/

namespace Layout

/-- The spellings are the layouts with their gaps filled, and the layouts have no commas. -/
structure Lays (M : Language (Option Token)) (L : Language Token) : Prop where
  mem_iff : ∀ tokens, tokens ∈ L ↔ ∃ layout ∈ M, Fills layout tokens
  commaless : ∀ layout ∈ M, ∀ t, some t ∈ layout → t.kind ≠ .comma

variable {M N : Language (Option Token)} {L K : Language Token}

theorem lays_zero : Lays 0 0 where
  mem_iff _ := ⟨fun h => absurd h (Language.notMem_zero _),
    fun ⟨_, h, _⟩ => absurd h (Language.notMem_zero _)⟩
  commaless _ h := absurd h (Language.notMem_zero _)

theorem lays_solid (h : CommaFree L) : Lays (solid L) L := by
  refine ⟨fun tokens => ⟨fun hmem => ⟨_, ⟨tokens, hmem, rfl⟩, fills_map_some.mpr rfl⟩, ?_⟩, ?_⟩
  · rintro ⟨_, ⟨taken, hmem, rfl⟩, hfills⟩
    rwa [fills_map_some.mp hfills]
  · rintro _ ⟨tokens, hmem, rfl⟩ t ht
    obtain ⟨u, hu, hut⟩ := List.mem_map.mp ht
    exact Option.some.inj hut ▸ h tokens hmem u hu

theorem lays_one : Lays 1 1 := map_one (Language.map some) ▸ lays_solid commaFree_one

theorem lays_gap : Lays gap Spelling.commas where
  mem_iff tokens := by
    constructor
    · exact fun hmem => ⟨[none], rfl, fills_gap.mpr hmem⟩
    · rintro ⟨_, rfl, hfills⟩
      exact fills_gap.mp hfills
  commaless := by
    rintro _ rfl t ht
    exact absurd (List.mem_singleton.mp ht) (Option.some_ne_none t)

theorem Lays.mul (h : Lays M L) (h' : Lays N K) : Lays (M * N) (L * K) := by
  refine ⟨fun tokens => ⟨?_, ?_⟩, ?_⟩
  · rintro ⟨first, hfirst, second, hsecond, rfl⟩
    obtain ⟨front, hfront, hfills⟩ := (h.mem_iff first).mp hfirst
    obtain ⟨back, hback, hfills'⟩ := (h'.mem_iff second).mp hsecond
    exact ⟨front ++ back, Language.append_mem_mul hfront hback, hfills.append hfills'⟩
  · rintro ⟨_, ⟨front, hfront, back, hback, rfl⟩, hfills⟩
    obtain ⟨first, second, rfl, hfirst, hsecond⟩ := hfills.split
    exact mem_mul ((h.mem_iff first).mpr ⟨front, hfront, hfirst⟩)
      ((h'.mem_iff second).mpr ⟨back, hback, hsecond⟩)
  · rintro _ ⟨front, hfront, back, hback, rfl⟩ t ht
    rcases List.mem_append.mp ht with ht | ht
    · exact h.commaless front hfront t ht
    · exact h'.commaless back hback t ht

theorem Lays.enclosed {opening closing : Kind} (h : Lays M L) (hopening : opening ≠ .comma)
    (hclosing : closing ≠ .comma) :
    Lays (Layout.enclosed opening closing M) (Spelling.enclosed opening closing L) :=
  ((lays_solid (commaFree_sign hopening)).mul h).mul (lays_solid (commaFree_sign hclosing))

theorem lays_named (text : String) (h : Lays M L) : Lays (named text M) (Spelling.named text L) :=
  (lays_solid ((commaFree_ident text).mul (commaFree_sign (by decide)))).mul h

section Lists

variable {α : Type} {lay : α → Language (Option Token)} {spell : α → Language Token}
  {items : List α}

theorem lays_inOrder (h : ∀ item ∈ items, Lays (lay item) (spell item)) :
    Lays (inOrder lay items) (Spelling.inOrder spell items) := by
  induction items with
  | nil => exact lays_one
  | cons item rest ih =>
      rw [List.forall_mem_cons] at h
      exact h.1.mul (ih h.2)

theorem lays_commaList (h : ∀ item ∈ items, Lays (lay item) (spell item)) :
    Lays (commaList lay items) (Spelling.commaList spell items) := by
  induction items with
  | nil => exact lays_gap
  | cons item rest ih =>
      rw [List.forall_mem_cons] at h
      exact (lays_gap.mul h.1).mul (ih h.2)

theorem lays_parenthesized (h : ∀ item ∈ items, Lays (lay item) (spell item)) :
    Lays (parenthesized lay items) (Spelling.parenthesized spell items) := by
  cases items with
  | nil => exact lays_one
  | cons item rest => exact (lays_commaList h).enclosed (by decide) (by decide)

theorem lays_orNothing (h : ∀ item, Lays (lay item) (spell item)) (item? : Option α) :
    Lays (orNothing lay item?) (Spelling.orNothing spell item?) := by
  cases item? with
  | none => exact lays_one
  | some item => exact h item

end Lists

/-- What does not begin with a comma does not begin with a gap either. -/
theorem Lays.start_eq {kinds : List Kind} (h : Lays M L) (hbegins : Begins kinds L)
    (hcomma : .comma ∉ kinds) {layout : Layout} {tokens : List Token} (hmem : layout ∈ M)
    (hfills : Fills layout tokens) : Spelling.start tokens = start layout := by
  cases hfills with
  | nil =>
      obtain ⟨t, rest, hnil, -⟩ := hbegins [] ((h.mem_iff _).mpr ⟨[], hmem, .nil⟩)
      exact absurd hnil.symm (List.cons_ne_nil t rest)
  | token t hfills => rfl
  | @gap commas layout tokens hcommas hfills =>
      have hone : [⟨.comma, "", {}⟩] ∈ Spelling.commas := fun t ht => by
        rw [List.mem_singleton.mp ht]
      obtain ⟨t, rest, hcons, ht⟩ := hbegins _ ((h.mem_iff _).mpr ⟨_, hmem, .gap hone hfills⟩)
      obtain ⟨rfl, -⟩ := List.cons.inj hcons
      exact absurd ht hcomma

end Layout

open Layout

/-! ### The parts of a document -/

theorem Value.lays (value : Value) : Lays value.layouts value.spellings := by
  induction value using Value.induction with
  | var name => exact lays_solid ((commaFree_sign (by decide)).mul (commaFree_ident name))
  | int text => exact lays_solid (commaFree_word text (by decide))
  | float text => exact lays_solid (commaFree_word text (by decide))
  | string text => exact lays_solid (commaFree_word text (by decide))
  | enum name => exact lays_solid (commaFree_ident name)
  | bool b =>
      cases b with
      | true => exact lays_solid (commaFree_sign (by decide))
      | false => exact lays_solid (commaFree_sign (by decide))
  | null => exact lays_solid (commaFree_sign (by decide))
  | list items ih =>
      rw [layouts, spellings, itemLayouts_eq, itemSpellings_eq]
      exact (lays_commaList ih).enclosed (by decide) (by decide)
  | object fields ih =>
      rw [layouts, spellings, fieldLayouts_eq, fieldSpellings_eq]
      exact (lays_commaList fun field hfield => lays_named field.1 (ih field hfield)).enclosed
        (by decide) (by decide)

theorem Argument.lays (argument : Argument) : Lays argument.layouts argument.spellings :=
  lays_named argument.name argument.value.lays

theorem Directive.lays (directive : Directive) : Lays directive.layouts directive.spellings :=
  (lays_solid ((commaFree_sign (by decide)).mul (commaFree_ident directive.name))).mul
    (lays_parenthesized fun argument _ => argument.lays)

theorem Field.lays (field : Field) : Lays field.layouts field.spellings :=
  ((lays_solid ((commaFree_orNothing (fun key => (commaFree_ident key).mul
    (commaFree_sign (by decide))) field.alias?).mul (commaFree_ident field.name))).mul
    (lays_parenthesized fun argument _ => argument.lays)).mul
    (lays_inOrder fun directive _ => directive.lays)

namespace Selection

theorem lays_braced {M : Language (Option Token)} {L : Language Token} (h : Lays M L)
    (selections : List Selection) :
    Lays (bracedLayouts M selections) (bracedSpellings L selections) := by
  cases selections with
  | nil => exact lays_zero
  | cons first rest => exact h.enclosed (by decide) (by decide)

theorem lays (selection : Selection) : Lays selection.layouts selection.spellings := by
  induction selection using Selection.induction with
  | leaf head =>
      rw [layouts, spellings]
      exact head.lays
  | field head nested ih =>
      rw [layouts, spellings, itemLayouts_eq, itemSpellings_eq]
      exact head.lays.mul (lays_braced (lays_commaList ih) nested)
  | spread name directives =>
      rw [layouts, spellings]
      exact (lays_solid ((commaFree_sign (by decide)).mul (commaFree_fragmentName name))).mul
        (lays_inOrder fun directive _ => directive.lays)
  | inlineFragment condition? directives nested ih =>
      rw [layouts, spellings, itemLayouts_eq, itemSpellings_eq]
      exact ((lays_solid ((commaFree_sign (by decide)).mul (commaFree_orNothing
        (fun condition => (commaFree_ident "on").mul (commaFree_ident condition))
        condition?))).mul (lays_inOrder fun directive _ => directive.lays)).mul
        (lays_braced (lays_commaList ih) nested)

theorem lays_set (selections : List Selection) :
    Lays (setLayouts selections) (setSpellings selections) :=
  lays_braced (lays_commaList fun selection _ => selection.lays) selections

end Selection

theorem VariableDefinition.lays (definition : VariableDefinition) :
    Lays definition.layouts definition.spellings :=
  ((lays_solid ((commaFree_sign (by decide)).mul (((commaFree_ident definition.name).mul
    (commaFree_sign (by decide))).mul definition.type.commaFree))).mul
    (lays_orNothing (fun value => (lays_solid (commaFree_sign (by decide))).mul value.lays)
      definition.default?)).mul
    (lays_inOrder fun directive _ => directive.lays)

namespace Operation

theorem lays_keyword (operation : Operation) :
    Lays operation.keywordLayouts operation.keywordSpellings :=
  (((lays_solid ((commaFree_ident operation.kind.text).mul
    (commaFree_orNothing commaFree_ident operation.name?))).mul
    (lays_parenthesized fun definition _ => definition.lays)).mul
    (lays_inOrder fun directive _ => directive.lays)).mul (Selection.lays_set operation.selections)

theorem lays (operation : Operation) : Lays operation.layouts operation.spellings := by
  have hkeyword := operation.lays_keyword
  have hset := Selection.lays_set operation.selections
  have hstart : ∀ {layout tokens}, (layout ∈ operation.keywordLayouts ∨
      operation.IsShorthand ∧ layout ∈ Selection.setLayouts operation.selections) →
      Fills layout tokens → Spelling.start tokens = Layout.start layout := by
    rintro layout tokens (hmem | ⟨-, hmem⟩) hfills
    · exact hkeyword.start_eq (begins_ident operation.kind.text).mul.mul.mul.mul (by decide)
        hmem hfills
    · exact hset.start_eq (Selection.begins_setSpellings _) (by decide) hmem hfills
  refine ⟨fun tokens => ⟨?_, ?_⟩, ?_⟩
  · rintro ⟨hmem | ⟨hshort, hmem⟩, hposition⟩
    · obtain ⟨layout, hlayout, hfills⟩ := (hkeyword.mem_iff tokens).mp hmem
      exact ⟨layout, ⟨.inl hlayout, hposition.trans (hstart (.inl hlayout) hfills)⟩, hfills⟩
    · obtain ⟨layout, hlayout, hfills⟩ := (hset.mem_iff tokens).mp hmem
      exact ⟨layout, ⟨.inr ⟨hshort, hlayout⟩,
        hposition.trans (hstart (.inr ⟨hshort, hlayout⟩) hfills)⟩, hfills⟩
  · rintro ⟨layout, ⟨hlayout, hposition⟩, hfills⟩
    refine ⟨?_, hposition.trans (hstart hlayout hfills).symm⟩
    exact hlayout.imp (fun h => (hkeyword.mem_iff tokens).mpr ⟨layout, h, hfills⟩)
      fun ⟨hshort, h⟩ => ⟨hshort, (hset.mem_iff tokens).mpr ⟨layout, h, hfills⟩⟩
  · rintro layout ⟨hmem | ⟨-, hmem⟩, -⟩
    · exact hkeyword.commaless layout hmem
    · exact hset.commaless layout hmem

end Operation

theorem Fragment.lays_body (fragment : Fragment) :
    Lays fragment.bodyLayouts fragment.bodySpellings :=
  ((lays_solid ((((commaFree_ident "fragment").mul (commaFree_fragmentName fragment.name)).mul
    (commaFree_ident "on")).mul (commaFree_ident fragment.condition))).mul
    (lays_inOrder fun directive _ => directive.lays)).mul (Selection.lays_set fragment.selections)

theorem Fragment.lays (fragment : Fragment) : Lays fragment.layouts fragment.spellings := by
  have hbody := fragment.lays_body
  have hstart : ∀ {layout tokens}, layout ∈ fragment.bodyLayouts → Fills layout tokens →
      Spelling.start tokens = Layout.start layout := fun hmem hfills =>
    hbody.start_eq (begins_ident "fragment").mul.mul.mul.mul.mul (by decide) hmem hfills
  refine ⟨fun tokens => ⟨?_, ?_⟩, fun layout hmem => hbody.commaless layout hmem.1⟩
  · rintro ⟨hmem, hposition⟩
    obtain ⟨layout, hlayout, hfills⟩ := (hbody.mem_iff tokens).mp hmem
    exact ⟨layout, ⟨hlayout, hposition.trans (hstart hlayout hfills)⟩, hfills⟩
  · rintro ⟨layout, ⟨hlayout, hposition⟩, hfills⟩
    exact ⟨(hbody.mem_iff tokens).mpr ⟨layout, hlayout, hfills⟩,
      hposition.trans (hstart hlayout hfills).symm⟩

theorem Definition.lays (definition : Definition) :
    Lays definition.layouts definition.spellings := by
  cases definition with
  | operation found => exact found.lays
  | fragment found => exact found.lays

/-- **A document is spelled by its layouts**, with any commas in the gaps. -/
theorem Document.lays (document : Document) : Lays document.layouts document.spellings := by
  obtain ⟨definitions⟩ := document
  cases definitions with
  | nil => exact lays_zero
  | cons first rest =>
      exact (lays_inOrder fun definition _ => definition.lays).mul
        (lays_solid (commaFree_sign (by decide)))

end QueryBatching
