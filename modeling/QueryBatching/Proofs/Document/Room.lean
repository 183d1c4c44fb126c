/-
How many brackets the spelling of a legal tree opens inside one another.

A legal tree with room for some number of brackets can be spelled where that much is left of
the nesting limit, and the limit is then as it was before.  This is the other half of what
legal trees are for: reading a document grants that it is legal, and a legal document stays
within the limit however it is spelled.
-/
import QueryBatching.Proofs.Document.Legal

namespace QueryBatching

open Grammar Spelling
open Token (Kind)

namespace Grammar

/-- Where there is as much room, what is spelled leaves the nesting limit as it was. -/
def Fits (room : Nat) (L : Language Token) : Prop :=
  ∀ ⦃depth : Nat⦄ ⦃tokens : List Token⦄, tokens ∈ L → depth + room ≤ nestingLimit →
    ∀ rest, tooDeep? depth (tokens ++ rest) = tooDeep? depth rest

variable {room : Nat} {L M : Language Token}

theorem fits_zero : Fits room 0 :=
  fun _ _ hmem => absurd hmem (Language.notMem_zero _)

theorem fits_one : Fits room 1 := by
  rintro depth _ rfl - rest
  rfl

theorem Fits.mul (h : Fits room L) (h' : Fits room M) : Fits room (L * M) := by
  rintro depth _ ⟨first, hfirst, second, hsecond, rfl⟩ hdepth rest
  simp only [List.append_assoc]
  rw [h hfirst hdepth, h' hsecond hdepth]

theorem fits_sign {kind : Kind} (h : kind ∉ brackets) : Fits room (sign kind) := by
  rintro depth _ ⟨t, rfl, rfl⟩ - rest
  exact tooDeep?_cons h depth rest

theorem fits_word {kind : Kind} (text : String) (h : kind ∉ brackets) :
    Fits room (word kind text) := by
  rintro depth _ ⟨t, rfl, rfl, -⟩ - rest
  exact tooDeep?_cons h depth rest

theorem fits_ident (text : String) : Fits room (ident text) := fits_word text (by decide)

theorem fits_fragmentName (text : String) : Fits room (Spelling.fragmentName text) := by
  unfold Spelling.fragmentName
  split
  · exact fits_zero
  · exact fits_ident text

theorem fits_named (text : String) (h : Fits room L) : Fits room (Spelling.named text L) :=
  ((fits_ident text).mul (fits_sign (by decide))).mul h

theorem fits_commas : Fits room Spelling.commas := by
  intro depth tokens hmem hdepth rest
  induction tokens with
  | nil => rfl
  | cons t tokens ih =>
      rw [List.cons_append, tooDeep?_cons (by simp [hmem t (by simp), brackets])]
      exact ih fun u hu => hmem u (List.mem_cons_of_mem t hu)

/-- Brackets need room for one more. -/
theorem Fits.enclosed (h : Fits (room - 1) L) (hroom : 0 < room) {opening closing : Kind}
    (hpair : (opening, closing) ∈ bracketPairs) :
    Fits room (Spelling.enclosed opening closing L) := by
  rintro depth _ ⟨_, ⟨_, ⟨o, rfl, ho⟩, inner, hinner, rfl⟩, _, ⟨c, rfl, hc⟩, rfl⟩ hdepth rest
  simp only [List.append_assoc, List.cons_append, List.nil_append]
  rw [tooDeep?_opening hpair ho, if_neg (by omega), h hinner (by omega),
    tooDeep?_closing hpair hc, Nat.add_sub_cancel]

theorem Fits.parens (h : Fits room L) :
    Fits room (Spelling.enclosed .parenOpen .parenClose L) :=
  ((fits_sign (by decide)).mul h).mul (fits_sign (by decide))

section Lists

variable {α : Type} {spell : α → Language Token}

theorem fits_inOrder {items : List α} (h : ∀ item ∈ items, Fits room (spell item)) :
    Fits room (inOrder spell items) := by
  induction items with
  | nil => exact fits_one
  | cons item rest ih =>
      rw [List.forall_mem_cons] at h
      exact h.1.mul (ih h.2)

theorem fits_commaList {items : List α} (h : ∀ item ∈ items, Fits room (spell item)) :
    Fits room (Spelling.commaList spell items) := by
  rw [commaList_eq]
  exact fits_commas.mul (fits_inOrder fun item hmem => (h item hmem).mul fits_commas)

theorem fits_parenthesized {items : List α} (h : ∀ item ∈ items, Fits room (spell item)) :
    Fits room (Spelling.parenthesized spell items) := by
  cases items with
  | nil => exact fits_one
  | cons first rest => exact (fits_commaList h).parens

theorem fits_orNothing {item? : Option α} (h : ∀ item ∈ item?, Fits room (spell item)) :
    Fits room (orNothing spell item?) := by
  cases item? with
  | none => exact fits_one
  | some item => exact h item rfl

end Lists

end Grammar

/-! ### The parts of a document -/

theorem Value.fits {room : Nat} {value : Value} (h : value.Legal room) :
    Fits room value.spellings := by
  induction value using Value.induction generalizing room with
  | var name =>
      rw [spellings]
      exact (fits_sign (by decide)).mul (fits_ident name)
  | int text =>
      rw [spellings]
      exact fits_word text (by decide)
  | float text =>
      rw [spellings]
      exact fits_word text (by decide)
  | string text =>
      rw [spellings]
      exact fits_word text (by decide)
  | enum name =>
      rw [spellings]
      exact fits_ident name
  | bool b =>
      cases b with
      | true =>
          rw [spellings]
          exact fits_sign (by decide)
      | false =>
          rw [spellings]
          exact fits_sign (by decide)
  | null =>
      rw [spellings]
      exact fits_sign (by decide)
  | list items ih =>
      rw [Legal, itemsLegal_iff] at h
      rw [spellings, itemSpellings_eq]
      exact (fits_commaList fun item hitem => ih item hitem (h.2 item hitem)).enclosed h.1
        (by decide)
  | object fields ih =>
      rw [Legal, fieldsLegal_iff] at h
      rw [spellings, fieldSpellings_eq]
      exact (fits_commaList fun field hfield => fits_named field.1
        (ih field hfield (h.2 field hfield).2)).enclosed h.1 (by decide)

theorem Argument.fits {room : Nat} {argument : Argument} (h : argument.Legal room) :
    Fits room argument.spellings :=
  fits_named argument.name (Value.fits h.value)

theorem Directive.fits {room : Nat} {directive : Directive} (h : directive.Legal room) :
    Fits room directive.spellings :=
  ((fits_sign (by decide)).mul (fits_ident directive.name)).mul
    (fits_parenthesized fun argument hmem => Argument.fits (h.arguments argument hmem))

theorem Directive.fits_all {room : Nat} {directives : List Directive}
    (h : ∀ directive ∈ directives, directive.Legal room) :
    Fits room (inOrder Directive.spellings directives) :=
  fits_inOrder fun directive hmem => fits (h directive hmem)

theorem Field.fits {room : Nat} {field : Field} (h : field.Legal room) :
    Fits room field.spellings :=
  (((fits_orNothing fun key _ => (fits_ident key).mul (fits_sign (by decide))).mul
    (fits_ident field.name)).mul
    (fits_parenthesized fun argument hmem => Argument.fits (h.arguments argument hmem))).mul
    (Directive.fits_all h.directives)

namespace Selection

theorem fits_set {room : Nat} {selections : List Selection} (h : SetLegal room selections)
    (hall : ∀ selection ∈ selections, Fits (room - 1) selection.spellings) :
    Fits room (setSpellings selections) := by
  obtain ⟨first, rest, rfl⟩ := List.exists_cons_of_ne_nil h.ne_nil
  exact (fits_commaList hall).enclosed h.room_pos (by decide)

theorem fits {room : Nat} {selection : Selection} (h : selection.Legal room) :
    Fits room selection.spellings := by
  induction selection using Selection.induction generalizing room with
  | leaf head =>
      rw [spellings]
      exact Field.fits h
  | field head nested ih =>
      obtain ⟨hhead, hroom, hne, hall⟩ := h
      rw [allLegal_iff] at hall
      rw [spellings, itemSpellings_eq]
      exact (Field.fits hhead).mul (fits_set ⟨hroom, hne, hall⟩
        fun selection hmem => ih selection hmem (hall selection hmem))
  | spread name directives =>
      rw [spellings]
      exact ((fits_sign (by decide)).mul (fits_fragmentName name)).mul (Directive.fits_all h.2)
  | inlineFragment condition? directives nested ih =>
      obtain ⟨-, hdirectives, hroom, hne, hall⟩ := h
      rw [allLegal_iff] at hall
      rw [spellings, itemSpellings_eq]
      exact (((fits_sign (by decide)).mul (fits_orNothing fun condition _ =>
        (fits_ident "on").mul (fits_ident condition))).mul (Directive.fits_all hdirectives)).mul
        (fits_set ⟨hroom, hne, hall⟩ fun selection hmem => ih selection hmem (hall selection hmem))

end Selection

theorem TypeRef.fits {room : Nat} {type : TypeRef} (h : type.Legal room) :
    Fits room type.spellings := by
  induction type generalizing room with
  | named name =>
      rw [spellings]
      exact fits_ident name
  | list item ih =>
      rw [spellings]
      exact (ih h.2).enclosed h.1 (by decide)
  | nonNull type ih =>
      rw [spellings, h.1]
      exact (ih h.2).mul (fits_sign (by decide))

theorem VariableDefinition.fits {room : Nat} {definition : VariableDefinition}
    (h : definition.Legal room) : Fits room definition.spellings :=
  (((fits_sign (by decide)).mul (fits_named definition.name (TypeRef.fits h.type))).mul
    (fits_orNothing fun value hmem =>
      (fits_sign (by decide)).mul (Value.fits (h.default value hmem)))).mul
    (Directive.fits_all h.directives)

theorem Operation.fits {room : Nat} {operation : Operation} (h : operation.Legal room) :
    Fits room operation.keywordSpellings :=
  ((((fits_ident operation.kind.text).mul (fits_orNothing fun name _ => fits_ident name)).mul
    (fits_parenthesized fun definition hmem =>
      VariableDefinition.fits (h.declarations definition hmem))).mul
    (Directive.fits_all h.directives)).mul
    (Selection.fits_set h.selections fun selection hmem =>
      Selection.fits (h.selections.all selection hmem))

theorem Fragment.fits {room : Nat} {fragment : Fragment} (h : fragment.Legal room) :
    Fits room fragment.bodySpellings :=
  (((((fits_ident "fragment").mul (fits_fragmentName fragment.name)).mul (fits_ident "on")).mul
    (fits_ident fragment.condition)).mul (Directive.fits_all h.directives)).mul
    (Selection.fits_set h.selections fun selection hmem =>
      Selection.fits (h.selections.all selection hmem))

end QueryBatching
