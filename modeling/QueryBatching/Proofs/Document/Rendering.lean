/-
The canonical text of a legal tree is read as that tree.

`Token.Writes` is followed along the trees: for every part of a document its canonical text
scans as tokens that spell the part, as long as the part is legal.  The places where two
lexemes could run together are those where one text is put behind another without a blank or
a sign, and each of them is an `append` below, with the break that keeps the two apart.
-/
import QueryBatching.Proofs.Document.Legal

namespace QueryBatching

open Lexeme Spelling
open Token (Kind Seals Writes breaks_of_front seals_blank seals_dots seals_sign sign_le_commas
  writes_commaList writes_intercalate writes_join writes_lexeme)

/-! ### Signs, names and lists -/

namespace Token

theorem seals_comma : Seals ", " (sign .comma) :=
  ((seals_sign (c := ',') rfl).seal seals_blank).mono (mul_one _).le

theorem seals_colon : Seals ": " (sign .colon) :=
  ((seals_sign (c := ':') rfl).seal seals_blank).mono (mul_one _).le

theorem writes_name {name : String} (h : IsName name) : Writes name (ident name) :=
  writes_lexeme h

theorem writes_fragmentName {name : String} (h : IsFragmentName name) :
    Writes name (fragmentName name) := by
  rw [fragmentName, if_neg h.ne_on]
  exact writes_name h.name

/-- A word that is a constant. -/
theorem writes_constant {kind : Kind} {text : String} (h : IsLexeme kind text) :
    Writes text (sign kind) :=
  (writes_lexeme h).mono fun _ ⟨t, ht, hkind, _⟩ => ⟨t, ht, hkind⟩

/-- A word with a blank behind it. -/
theorem Writes.blank {text : String} {L : Language Token} (h : Writes text L) :
    Seals (text ++ " ") L :=
  (h.seal seals_blank (by decide) (by decide)).mono (mul_one _).le

/-- The keyword in front of a type condition, with the blanks around it. -/
theorem seals_on : Seals " on " (ident "on") := by
  have hword : Writes "on" (ident "on") := writes_name ⟨'o', ['n'], by decide, by decide⟩
  exact (seals_blank.seal hword.blank).mono (one_mul _).le

theorem Writes.colon {text : String} {L : Language Token} (h : Writes text L) :
    Seals (text ++ ": ") (L * sign .colon) :=
  h.seal seals_colon (by decide) (by decide)

theorem Writes.named {name text : String} {L : Language Token} (hname : IsName name)
    (h : Writes text L) : Writes (name ++ ": " ++ text) (Spelling.named name L) :=
  (writes_name hname).colon.append h

/-- A text between two signs, of which the second is a break. -/
theorem Writes.enclosed {text : String} {L : Language Token} (h : Writes text L)
    (opening closing : Char) {kind kind' : Kind} (hopen : Kind.ofSign? opening = some kind)
    (hclose : Kind.ofSign? closing = some kind') (hb : isBreak closing = true) :
    Seals (String.singleton opening ++ text ++ String.singleton closing)
      (Spelling.enclosed kind kind' L) := by
  refine ((seals_sign hopen).append h).seal (seals_sign hclose) ?_ ?_
  · rw [String.toList_singleton]
    exact Breaks.cons hb
  · intro hnil
    have := congrArg String.toList hnil
    simp at this

section Lists

variable {α : Type} {text : α → String} {spell : α → Language Token} {items : List α}

theorem writes_listed (h : ∀ item ∈ items, Writes (text item) (spell item)) :
    Writes (", ".intercalate (items.map text)) (commaList spell items) :=
  writes_commaList seals_comma (by decide) (by decide) sign_le_commas h

/-- A bracketed list that is left out when it is empty, in front of whatever breaks. -/
theorem writes_parenthesized (h : ∀ item ∈ items, Writes (text item) (spell item))
    {listText : String} (hnil : items = [] → listText = "")
    (hcons : items ≠ [] → listText = "(" ++ ", ".intercalate (items.map text) ++ ")") :
    Writes listText (parenthesized spell items) ∧ Breaks listText.toList := by
  cases items with
  | nil =>
      rw [hnil rfl]
      exact ⟨seals_empty.writes, Breaks.nil⟩
  | cons first rest =>
      rw [hcons (List.cons_ne_nil _ _)]
      refine ⟨((writes_listed h).enclosed '(' ')' rfl rfl (by decide)).writes, ?_⟩
      rw [String.append_assoc]
      exact breaks_of_front _ (by decide) (by decide)

end Lists

end Token

open Token

/-! ### The parts of a document -/

theorem Value.writes {room : Nat} {value : Value} (h : value.Legal room) :
    Writes value.text value.spellings := by
  induction value using Value.induction generalizing room with
  | var name =>
      rw [text, spellings]
      exact (seals_sign (c := '$') rfl).append (writes_name h)
  | int text =>
      rw [Value.text, spellings]
      exact writes_lexeme h
  | float text =>
      rw [Value.text, spellings]
      exact writes_lexeme h
  | string text =>
      rw [Value.text, spellings]
      exact writes_lexeme h
  | enum name =>
      rw [text, spellings]
      exact writes_name h
  | bool b =>
      cases b with
      | true =>
          rw [text, spellings]
          exact writes_constant ⟨'t', ['r', 'u', 'e'], by decide, by decide⟩
      | false =>
          rw [text, spellings]
          exact writes_constant ⟨'f', ['a', 'l', 's', 'e'], by decide, by decide⟩
  | null =>
      rw [text, spellings]
      exact writes_constant ⟨'n', ['u', 'l', 'l'], by decide, by decide⟩
  | list items ih =>
      rw [Legal, itemsLegal_iff] at h
      rw [text, spellings, itemTexts_eq, itemSpellings_eq]
      have hitems := writes_listed fun item hitem => ih item hitem (h.2 item hitem)
      exact (hitems.enclosed '[' ']' rfl rfl (by decide)).writes
  | object fields ih =>
      rw [Legal, fieldsLegal_iff] at h
      rw [text, spellings, fieldTexts_eq, fieldSpellings_eq]
      exact ((writes_listed fun field hfield => Writes.named (h.2 field hfield).1
        (ih field hfield (h.2 field hfield).2)).enclosed '\x7b' '\x7d' rfl rfl (by decide)).writes

theorem Argument.writes {room : Nat} {argument : Argument} (h : argument.Legal room) :
    Writes argument.text argument.spellings :=
  Writes.named h.name (Value.writes h.value)

theorem Argument.writes_list {room : Nat} {arguments : List Argument}
    (h : ∀ argument ∈ arguments, argument.Legal room) :
    Writes (listText arguments) (parenthesized Argument.spellings arguments) ∧
      Breaks (listText arguments).toList := by
  refine writes_parenthesized (fun argument hmem => writes (h argument hmem)) ?_ ?_
  · rintro rfl
    rfl
  · intro hne
    obtain ⟨first, rest, rfl⟩ := List.exists_cons_of_ne_nil hne
    rfl

theorem Directive.writes {room : Nat} {directive : Directive} (h : directive.Legal room) :
    Writes directive.text directive.spellings := by
  obtain ⟨harguments, hb⟩ := Argument.writes_list h.arguments
  exact ((seals_sign (c := '@') rfl).append (writes_name h.name)).append harguments hb

theorem Directive.writes_list {room : Nat} {directives : List Directive}
    (h : ∀ directive ∈ directives, directive.Legal room) :
    Writes (listText directives) (inOrder Directive.spellings directives) ∧
      Breaks (listText directives).toList := by
  refine writes_join (fun directive hmem => ?_) fun directive => ?_
  · exact (seals_blank.append (writes (h directive hmem))).mono (one_mul _).le
  · exact breaks_of_front _ (by decide) (by decide)

theorem Field.writes {room : Nat} {field : Field} (h : field.Legal room) :
    Writes field.text field.spellings := by
  obtain ⟨harguments, hb⟩ := Argument.writes_list h.arguments
  obtain ⟨hdirectives, hb'⟩ := Directive.writes_list h.directives
  refine (Writes.append ?_ harguments hb).append hdirectives hb'
  cases halias : field.alias? with
  | none => exact seals_empty.append (writes_name h.name)
  | some key =>
      have hkey := writes_name (h.key key (by simp [halias]))
      exact hkey.colon.append (writes_name h.name)

namespace Selection

theorem writes_set {room : Nat} {selections : List Selection} (h : SetLegal room selections)
    (hall : ∀ selection ∈ selections, Writes selection.text selection.spellings) :
    Seals (setText selections) (setSpellings selections) := by
  obtain ⟨first, rest, rfl⟩ := List.exists_cons_of_ne_nil h.ne_nil
  have hitems : Writes (" ".intercalate ((first :: rest).map text))
      (commaList spellings (first :: rest)) :=
    writes_commaList seals_blank (by decide) (by decide) one_le_commas hall
  have hopen : Seals "\x7b " (sign .braceOpen) :=
    ((seals_sign (c := '\x7b') rfl).seal seals_blank).mono (mul_one _).le
  have hclose : Seals " \x7d" (sign .braceClose) :=
    (seals_blank.seal (seals_sign (c := '\x7d') rfl)).mono (one_mul _).le
  rw [setText, texts_eq, List.map_cons, braced]
  · exact (hopen.append hitems).seal hclose (by decide) (by decide)
  · simp

/-- A selection set behind something, with a blank between them. -/
theorem seals_behind {room : Nat} {front : String} {L : Language Token} (hfront : Writes front L)
    {selections : List Selection} (h : SetLegal room selections)
    (hall : ∀ selection ∈ selections, Writes selection.text selection.spellings) :
    Seals (front ++ " " ++ setText selections) (L * setSpellings selections) :=
  hfront.blank.seal (writes_set h hall)

theorem writes {room : Nat} {selection : Selection} (h : selection.Legal room) :
    Writes selection.text selection.spellings := by
  induction selection using Selection.induction generalizing room with
  | leaf head =>
      rw [text, spellings]
      exact Field.writes h
  | field head nested ih =>
      obtain ⟨hhead, hroom, hne, hall⟩ := h
      rw [allLegal_iff] at hall
      rw [text, spellings, itemSpellings_eq]
      exact (seals_behind (Field.writes hhead) ⟨hroom, hne, hall⟩
        fun selection hmem => ih selection hmem (hall selection hmem)).writes
  | spread name directives =>
      obtain ⟨hname, hdirectives⟩ := h
      obtain ⟨hwrites, hb⟩ := Directive.writes_list hdirectives
      rw [text, spellings]
      exact (seals_dots.append (writes_fragmentName hname)).append hwrites hb
  | inlineFragment condition? directives nested ih =>
      obtain ⟨hcondition, hdirectives, hroom, hne, hall⟩ := h
      rw [allLegal_iff] at hall
      obtain ⟨hwrites, hb⟩ := Directive.writes_list hdirectives
      have hset : ∀ {front : String} {L : Language Token}, Writes front L →
          Writes (front ++ " " ++ setText nested) (L * setSpellings nested) :=
        fun hfront => (seals_behind hfront ⟨hroom, hne, hall⟩
          fun selection hmem => ih selection hmem (hall selection hmem)).writes
      rw [spellings, itemSpellings_eq]
      cases condition? with
      | none =>
          rw [text]
          refine hset ((seals_dots.writes.append hwrites hb).mono ?_)
          exact mul_le_mul' (mul_one _).ge le_rfl
      | some condition =>
          rw [text]
          have hon : Seals ("..." ++ " on ") (sign .ellipsis * ident "on") :=
            seals_dots.seal seals_on
          refine hset (((hon.append (writes_name (hcondition condition rfl))).append
            hwrites hb).mono ?_)
          exact mul_le_mul' (mul_assoc _ _ _).le le_rfl

end Selection

theorem TypeRef.writes {room : Nat} {type : TypeRef} (h : type.Legal room) :
    Writes type.text type.spellings := by
  induction type generalizing room with
  | named name =>
      rw [text, spellings]
      exact writes_name h
  | list item ih =>
      rw [text, spellings]
      exact ((ih h.2).enclosed '[' ']' rfl rfl (by decide)).writes
  | nonNull type ih =>
      obtain ⟨hmark, hlegal⟩ := h
      rw [text, spellings, hmark]
      exact ((ih hlegal).seal (seals_sign (c := '!') rfl) (by decide) (by decide)).writes

theorem VariableDefinition.writes {room : Nat} {definition : VariableDefinition}
    (h : definition.Legal room) : Writes definition.text definition.spellings := by
  obtain ⟨hdirectives, hb⟩ := Directive.writes_list h.directives
  have hnamed : Writes ("$" ++ definition.name ++ ": " ++ definition.type.text)
      (sign .dollar * Spelling.named definition.name definition.type.spellings) := by
    have := (seals_sign (c := '$') rfl).append (Writes.named h.name (TypeRef.writes h.type))
    rwa [← String.append_assoc, ← String.append_assoc] at this
  have hequals : Seals " = " (sign .equals) :=
    (((seals_blank.seal (seals_sign (c := '=') rfl)).mono (one_mul _).le).seal
      seals_blank).mono (mul_one _).le
  refine Writes.append ?_ hdirectives hb
  cases hdefault : definition.default? with
  | none =>
      rw [String.append_empty]
      exact hnamed.mono (mul_one _).ge
  | some value =>
      have hvalue := Value.writes (h.default value (by simp [hdefault]))
      exact hnamed.append (hequals.append hvalue) (breaks_of_front _ (by decide) (by decide))

theorem VariableDefinition.writes_list {room : Nat} {definitions : List VariableDefinition}
    (h : ∀ definition ∈ definitions, definition.Legal room) :
    Writes (listText definitions) (parenthesized VariableDefinition.spellings definitions) ∧
      Breaks (listText definitions).toList := by
  refine writes_parenthesized (fun definition hmem => writes (h definition hmem)) ?_ ?_
  · rintro rfl
    rfl
  · intro hne
    obtain ⟨first, rest, rfl⟩ := List.exists_cons_of_ne_nil hne
    rfl

theorem OperationKind.isName_text (kind : OperationKind) : IsName kind.text := by
  cases kind with
  | query => exact ⟨'q', ['u', 'e', 'r', 'y'], by decide, by decide⟩
  | mutation => exact ⟨'m', ['u', 't', 'a', 't', 'i', 'o', 'n'], by decide, by decide⟩
  | subscription =>
      exact ⟨'s', ['u', 'b', 's', 'c', 'r', 'i', 'p', 't', 'i', 'o', 'n'], by decide, by decide⟩

theorem Operation.writes_header {room : Nat} {operation : Operation} (h : operation.Legal room) :
    Writes operation.header (orNothing ident operation.name? *
      parenthesized VariableDefinition.spellings operation.declarations) ∧
        Breaks operation.header.toList := by
  obtain ⟨hdeclarations, hb⟩ := VariableDefinition.writes_list h.declarations
  unfold header
  cases hname : operation.name? with
  | some name =>
      have hfront := (seals_blank.append (writes_name (h.name name hname))).mono (one_mul _).le
      refine ⟨hfront.append hdeclarations hb, ?_⟩
      show Breaks (" " ++ name ++ VariableDefinition.listText operation.declarations).toList
      rw [String.append_assoc]
      exact breaks_of_front _ (by decide) (by decide)
  | none =>
      cases hlist : operation.declarations with
      | nil => exact ⟨seals_empty.writes.mono (mul_one 1).ge, Breaks.nil⟩
      | cons first rest =>
          rw [hlist] at hdeclarations
          exact ⟨seals_blank.append hdeclarations, breaks_of_front _ (by decide) (by decide)⟩

theorem Operation.seals {room : Nat} {operation : Operation} (h : operation.Legal room) :
    Seals operation.text operation.keywordSpellings := by
  obtain ⟨hheader, hb⟩ := writes_header h
  obtain ⟨hdirectives, hb'⟩ := Directive.writes_list h.directives
  have hfront := ((writes_name operation.kind.isName_text).append hheader hb).append hdirectives hb'
  refine (Selection.seals_behind hfront h.selections
    fun selection hmem => Selection.writes (h.selections.all selection hmem)).mono ?_
  simp only [keywordSpellings, mul_assoc]
  exact le_rfl

theorem Fragment.seals {room : Nat} {fragment : Fragment} (h : fragment.Legal room) :
    Seals fragment.text fragment.bodySpellings := by
  obtain ⟨hdirectives, hb⟩ := Directive.writes_list h.directives
  have hkeyword : Writes "fragment" (ident "fragment") :=
    writes_name ⟨'f', ['r', 'a', 'g', 'm', 'e', 'n', 't'], by decide, by decide⟩
  have hfront := ((((hkeyword.blank.append (writes_fragmentName h.name)).seal seals_on (by decide)
    (by decide)).append (writes_name h.condition)).append hdirectives hb)
  exact Selection.seals_behind hfront h.selections
    fun selection hmem => Selection.writes (h.selections.all selection hmem)

end QueryBatching
