/-
What a spelling begins with.

A parser that looks one token ahead decides by the kind of that token alone, so what matters
about a language is which kinds its spellings begin with.  `Begins` and `MayBegin` say so, the
second for spellings that may be empty.  `Clear` says the same about what follows a spelling,
from the other side: the next token is of none of the kinds that would make a rule go on.
-/
import QueryBatching.Proofs.Grammar.Spelling

namespace QueryBatching

open Token (Kind)

namespace Spelling

/-! ### What a spelling begins with -/

/-- The next token, if there is one, is of none of the kinds. -/
def Clear (blocked : List Kind) (tokens : List Token) : Prop :=
  ∀ t ∈ tokens.head?, t.kind ∉ blocked

/-- Every spelling begins with a token of one of the kinds. -/
def Begins (kinds : List Kind) (L : Language Token) : Prop :=
  ∀ tokens ∈ L, ∃ t rest, tokens = t :: rest ∧ t.kind ∈ kinds

/-- Every spelling is empty or begins with a token of one of the kinds. -/
def MayBegin (kinds : List Kind) (L : Language Token) : Prop :=
  ∀ tokens ∈ L, ∀ t ∈ tokens.head?, t.kind ∈ kinds

/-- A spelling in front of what is clear of `after` is clear of `before`. -/
def Shields (L : Language Token) (after before : List Kind) : Prop :=
  ∀ tokens ∈ L, ∀ rest, Clear after rest → Clear before (tokens ++ rest)

theorem Clear.mono {blocked fewer : List Kind} {tokens : List Token} (h : Clear blocked tokens)
    (hle : fewer ⊆ blocked) : Clear fewer tokens :=
  fun t ht hmem => h t ht (hle hmem)

theorem clear_cons {blocked : List Kind} {t : Token} {tokens : List Token}
    (h : t.kind ∉ blocked) : Clear blocked (t :: tokens) := by
  intro u hu
  simp only [List.head?_cons, Option.mem_def, Option.some.injEq] at hu
  exact hu ▸ h

theorem Begins.mayBegin {kinds : List Kind} {L : Language Token} (h : Begins kinds L) :
    MayBegin kinds L := by
  intro tokens hmem t ht
  obtain ⟨u, rest, rfl, hu⟩ := h tokens hmem
  simp only [List.head?_cons, Option.mem_def, Option.some.injEq] at ht
  exact ht ▸ hu

theorem Begins.mono {kinds more : List Kind} {L : Language Token} (h : Begins kinds L)
    (hle : kinds ⊆ more) : Begins more L := by
  intro tokens hmem
  obtain ⟨t, rest, rfl, ht⟩ := h tokens hmem
  exact ⟨t, rest, rfl, hle ht⟩

theorem Begins.mul {kinds : List Kind} {L M : Language Token} (h : Begins kinds L) :
    Begins kinds (L * M) := by
  rintro _ ⟨first, hfirst, second, -, rfl⟩
  obtain ⟨t, rest, rfl, ht⟩ := h first hfirst
  exact ⟨t, rest ++ second, rfl, ht⟩

theorem begins_sign (kind : Kind) : Begins [kind] (sign kind) := by
  rintro _ ⟨t, rfl, ht⟩
  exact ⟨t, [], rfl, by simp [ht]⟩

theorem begins_word (kind : Kind) (text : String) : Begins [kind] (word kind text) := by
  rintro _ ⟨t, rfl, ht, -⟩
  exact ⟨t, [], rfl, by simp [ht]⟩

theorem begins_ident (text : String) : Begins [.name] (ident text) := begins_word _ _

theorem begins_enclosed (opening closing : Kind) (inner : Language Token) :
    Begins [opening] (enclosed opening closing inner) :=
  (begins_sign opening).mul.mul

theorem mayBegin_orNothing {α : Type} {kinds : List Kind} {spell : α → Language Token}
    (h : ∀ a, Begins kinds (spell a)) (value? : Option α) :
    MayBegin kinds (orNothing spell value?) := by
  cases value? with
  | none =>
      rintro _ rfl t ht
      simp at ht
  | some a => exact (h a).mayBegin

theorem mayBegin_inOrder {α : Type} {kinds : List Kind} {spell : α → Language Token}
    (h : ∀ a, Begins kinds (spell a)) (values : List α) :
    MayBegin kinds (inOrder spell values) := by
  cases values with
  | nil =>
      rintro _ rfl t ht
      simp at ht
  | cons a rest => exact (h a).mul.mayBegin

theorem mayBegin_commas : MayBegin [.comma] commas := by
  intro tokens hmem t ht
  simp [hmem t (List.mem_of_mem_head? ht)]

theorem Begins.shields {kinds before : List Kind} {L : Language Token} (h : Begins kinds L)
    (hd : ∀ kind ∈ kinds, kind ∉ before) (after : List Kind) : Shields L after before := by
  intro tokens hmem rest _
  obtain ⟨t, tail, rfl, ht⟩ := h tokens hmem
  exact clear_cons (hd _ ht)

theorem MayBegin.shields {kinds before after : List Kind} {L : Language Token}
    (h : MayBegin kinds L) (hd : ∀ kind ∈ kinds, kind ∉ before) (hle : before ⊆ after) :
    Shields L after before := by
  intro tokens hmem rest hclear
  cases tokens with
  | nil => exact hclear.mono hle
  | cons t tail => exact clear_cons (hd _ (h (t :: tail) hmem t (by simp)))

theorem Begins.ne_nil {kinds : List Kind} {L : Language Token} (h : Begins kinds L)
    {tokens : List Token} (hmem : tokens ∈ L) : tokens ≠ [] := by
  obtain ⟨t, rest, rfl, -⟩ := h tokens hmem
  simp

/-- A spelling is clear of all kinds it does not begin with. -/
theorem Begins.clear {kinds blocked : List Kind} {L : Language Token} (h : Begins kinds L)
    (hd : ∀ kind ∈ kinds, kind ∉ blocked) {tokens : List Token} (hmem : tokens ∈ L)
    (rest : List Token) : Clear blocked (tokens ++ rest) := by
  obtain ⟨t, tail, rfl, ht⟩ := h tokens hmem
  exact clear_cons (hd _ ht)

theorem begins_zero (kinds : List Kind) : Begins kinds (0 : Language Token) :=
  fun _ hmem => absurd hmem (Language.notMem_zero _)

end Spelling

open Spelling

/-! ### The parts of a document -/

/-- The kinds of tokens a value begins with. -/
def Value.firstKinds : List Kind :=
  [.dollar, .intLiteral, .floatLiteral, .stringLiteral, .trueLiteral, .falseLiteral,
    .nullLiteral, .name, .bracketOpen, .braceOpen]

theorem Value.begins_spellings (value : Value) : Begins firstKinds value.spellings := by
  cases value with
  | var text =>
      rw [spellings]
      exact (begins_sign .dollar).mul.mono (by decide)
  | int text =>
      rw [spellings]
      exact (begins_word .intLiteral text).mono (by decide)
  | float text =>
      rw [spellings]
      exact (begins_word .floatLiteral text).mono (by decide)
  | string text =>
      rw [spellings]
      exact (begins_word .stringLiteral text).mono (by decide)
  | enum text =>
      rw [spellings]
      exact (begins_ident text).mono (by decide)
  | bool b =>
      cases b with
      | true =>
          rw [spellings]
          exact (begins_sign .trueLiteral).mono (by decide)
      | false =>
          rw [spellings]
          exact (begins_sign .falseLiteral).mono (by decide)
  | null =>
      rw [spellings]
      exact (begins_sign .nullLiteral).mono (by decide)
  | list items =>
      rw [spellings]
      exact (begins_enclosed .bracketOpen _ _).mono (by decide)
  | object fields =>
      rw [spellings]
      exact (begins_enclosed .braceOpen _ _).mono (by decide)

theorem Directive.begins_spellings (directive : Directive) :
    Begins [.atSign] directive.spellings :=
  (begins_sign .atSign).mul.mul

theorem Field.begins_spellings (field : Field) : Begins [.name] field.spellings := by
  have halias : Begins [.name]
      (orNothing (fun key => ident key * sign .colon) field.alias? * ident field.name) := by
    cases field.alias? with
    | none => exact (one_mul (ident field.name)).symm ▸ begins_ident field.name
    | some key => exact (begins_ident key).mul.mul
  exact halias.mul.mul

namespace Selection

theorem begins_bracedSpellings (inner : Language Token) (selections : List Selection) :
    Begins [.braceOpen] (bracedSpellings inner selections) := by
  cases selections with
  | nil => exact begins_zero _
  | cons first rest => exact begins_enclosed _ _ _

theorem begins_setSpellings (selections : List Selection) :
    Begins [.braceOpen] (setSpellings selections) :=
  begins_bracedSpellings _ selections

end Selection

theorem TypeRef.begins_spellings (type : TypeRef) :
    Begins [.name, .bracketOpen] type.spellings := by
  induction type with
  | named text =>
      rw [spellings]
      exact (begins_ident text).mono (by decide)
  | list item =>
      rw [spellings]
      exact (begins_enclosed .bracketOpen _ _).mono (by decide)
  | nonNull type ih =>
      rw [spellings]
      split
      · exact begins_zero _
      · exact ih.mul

theorem VariableDefinition.begins_spellings (definition : VariableDefinition) :
    Begins [.dollar] definition.spellings :=
  (begins_sign .dollar).mul.mul.mul

theorem Operation.begins_spellings (operation : Operation) :
    Begins [.name, .braceOpen] operation.spellings := by
  intro tokens hmem
  rcases hmem.1 with hkeyword | ⟨-, hset⟩
  · exact ((begins_ident operation.kind.text).mul.mul.mul.mul.mono (by decide)) tokens hkeyword
  · exact ((Selection.begins_setSpellings operation.selections).mono (by decide)) tokens hset

theorem Fragment.begins_spellings (fragment : Fragment) : Begins [.name] fragment.spellings :=
  fun tokens hmem => (begins_ident "fragment").mul.mul.mul.mul.mul tokens hmem.1

theorem Definition.begins_spellings (definition : Definition) :
    Begins [.name, .braceOpen] definition.spellings := by
  cases definition with
  | operation found => exact found.begins_spellings
  | fragment found => exact found.begins_spellings.mono (by decide)

end QueryBatching
