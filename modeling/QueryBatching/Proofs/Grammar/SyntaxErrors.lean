/-
Syntax errors are exact.

Two facts about the parser meet here.  What it reports could have stood there: its failures are
foreseen, so the tokens before the error can be gone on with to a document, and so they can with
a token of each kind that is expected.  And nothing else could have stood there: the parser
looks no further than to the failure it reports, so an input that agrees up to the error and
goes on with another token, of a kind that is not expected, fails in the same way; if it were
the beginning of a document, the parser would read that document.

The second fact goes through the grammar once more, rule by rule, and this time there is
nothing to be said about any language.
-/
import QueryBatching.Proofs.Grammar.Completeness
import QueryBatching.Proofs.Parse.Locality

namespace QueryBatching

open Token (Kind)
open Parse (Cursor Failure Outcome Swaps)

namespace Grammar

open QueryBatching.Parser Spelling

variable {α : Type} {bound budget more : Nat}

/-! ### The rules look no further -/

/-- Only commas are expected where commas end. -/
theorem met_repeated_comma (here : Cursor) :
    ∀ f ∈ (repeated (expect .comma) here).furthest?,
      f.index ≤ (repeated (expect .comma) here).next.index ∧ f.expected ⊆ [.comma] := by
  have honward : Onward (expect .comma) := .token _ _
  have hone : ∀ here, MeetsOnly (expect .comma) here fun f =>
      f.index ≤ here.index ∧ f.expected ⊆ [.comma] :=
    fun here => meetsOnly_token ⟨Nat.le_refl _, List.Subset.refl _⟩
  fun_induction repeated (expect .comma) here with
  | case1 here failure heq => exact Failure.forall_mem_some ((hone here).of_error heq)
  | case2 here parsed heq hshorter rest ih =>
      have hclosed : Failure.MergeClosed fun f =>
          f.index ≤ rest.next.index ∧ f.expected ⊆ [.comma] := by
        refine Failure.MergeClosed.of_isMerge fun a b c hmerge ha hb => ?_
        cases hmerge with
        | second => exact hb
        | first => exact ha
        | union heq expected hmem =>
            refine ⟨ha.1, fun kind hkind => ?_⟩
            rcases (hmem kind).mp hkind with hkind | hkind
            · exact ha.2 hkind
            · exact hb.2 hkind
      refine hclosed.furthest (fun f hf => ?_) ih
      have hle := (honward.index_le (accepts_of_eq_ok heq)).trans
        (honward.repeated_index_le parsed.next)
      exact ⟨((hone here).of_ok heq f hf).1.trans hle, ((hone here).of_ok heq f hf).2⟩
  | case3 here parsed heq hshorter => exact (hone here).of_ok heq

theorem mimics_commas : Mimics bound commas commas := by
  refine ⟨⟨sound_commas.mono fun _ => le_top, fun _ => nofun⟩,
    fun limit kinds tail tail' here here' hswap htwins hless hwithin => ?_⟩
  -- The attempt that ends them is forgotten, but it is in vain for no other kind.
  have hmore : Swaps (.comma :: kinds) tail tail' := by
    cases hswap with
    | same t rest rest' => exact .same t rest rest'
    | other t t' rest rest' hcomma hkind =>
        exact .other t t' rest rest' hcomma (by simp [hcomma, hkind])
  have hcommas : Outcome.Within limit (.comma :: kinds) (.ok (repeated (expect .comma) here)) := by
    refine Outcome.within_ok.mpr ⟨hwithin.index, fun f hf => ?_⟩
    obtain ⟨hle, hsub⟩ := met_repeated_comma here f hf
    exact ⟨hle.trans hwithin.index, fun _ =>
      List.Subset.trans hsub (List.cons_subset_cons _ (List.nil_subset _))⟩
  obtain ⟨hsame, -⟩ := Mimics.twins_repeated (.expect .comma) hmore htwins hless hcommas
  unfold commas
  generalize repeated (expect .comma) here = parsed at hsame ⊢
  generalize repeated (expect .comma) here' = parsed' at hsame ⊢
  cases hsame with
  | ok hnext => exact .ok hnext _ _ _

theorem mimics_commaList1 {item item' : Parser α} (h : Mimics bound item item') :
    Mimics bound (commaList1 item) (commaList1 item') :=
  mimics_commas.right (h.left mimics_commas).many1

theorem mimics_commaList {item item' : Parser α} (h : Mimics bound item item')
    (htakes : ∀ ⦃here value next⦄, Accepts item here value next →
      next.ahead.length < here.ahead.length) :
    Mimics bound (commaList item) (commaList item') :=
  (mimics_commas.right (h.separatedBy mimics_commas htakes)).left mimics_commas

theorem mimics_parenthesized {inner inner' : Parser α} (h : Mimics bound inner inner') :
    Mimics bound (parenthesized inner) (parenthesized inner') :=
  (h.enclosed .parenOpen .parenClose).mono (Nat.le_succ bound)

theorem mimics_name : Mimics bound name name := (Mimics.expect .name).map _ _

theorem mimics_fragmentName : Mimics bound fragmentName fragmentName := by
  refine (Mimics.token fun t ht => ?_).map _ _
  rw [Bool.and_eq_true, decide_eq_true_iff] at ht
  exact ht.1

theorem mimics_keyword (text : String) : Mimics bound (keyword text) (keyword text) := by
  refine Mimics.token fun t ht => ?_
  rw [Token.isWord, Bool.and_eq_true, decide_eq_true_iff] at ht
  exact ht.1

theorem mimics_named {value value' : Parser α} (h : Mimics bound value value') :
    Mimics bound (Grammar.named value) (Grammar.named value') :=
  ((mimics_name.both (.expect .colon)).both h).map _ _

/-! Values -/

theorem mimics_valueWith {items items' : Parser (List Value)}
    {fields fields' : Parser (List (String × Value))} (hitems : Mimics bound items items')
    (hfields : Mimics bound fields fields') :
    Mimics (bound + 1) (valueWith items fields) (valueWith items' fields') := by
  have hwords : Mimics (bound + 1)
      (choice [constant .trueLiteral (.bool true), constant .falseLiteral (.bool false),
        constant .nullLiteral .null, map Value.enum name])
      (choice [constant .trueLiteral (.bool true), constant .falseLiteral (.bool false),
        constant .nullLiteral .null, map Value.enum name]) :=
    .choice (.cons ((Mimics.expect _).map _ _) (.cons ((Mimics.expect _).map _ _)
      (.cons ((Mimics.expect _).map _ _) (.cons (mimics_name.map _ _) .nil))))
  have hbrackets : Mimics (bound + 1)
      (choice [map Value.list (bracketed items), map Value.object (braced fields)])
      (choice [map Value.list (bracketed items'), map Value.object (braced fields')]) :=
    .choice (.cons ((hitems.enclosed _ _).map _ _) (.cons ((hfields.enclosed _ _).map _ _) .nil))
  exact .choice (.cons (((Mimics.expect _).right mimics_name).map _ _)
    (.cons ((Mimics.expect _).map _ _) (.cons ((Mimics.expect _).map _ _)
      (.cons ((Mimics.expect _).map _ _) (.cons hwords (.cons hbrackets .nil))))))

/-- What is spelled with a token takes one. -/
theorem takes_of_begins {p : Parser α} {L : α → Language Token} {kinds : List Kind} (h : Sound p L)
    (hbegins : ∀ a, Begins kinds (L a)) ⦃here : Cursor⦄ ⦃value : α⦄ ⦃next : Cursor⦄
    (hacc : Accepts p here value next) : next.ahead.length < here.ahead.length := by
  obtain ⟨taken, hmem, hadv⟩ := h hacc
  have := List.length_pos_of_ne_nil ((hbegins value).ne_nil hmem)
  rw [hadv.ahead, List.length_append]
  omega

theorem mimics_value (h : budget ≤ more) : Mimics (budget + 1) (value budget) (value more) := by
  induction budget generalizing more with
  | zero =>
      cases more with
      | zero => exact mimics_valueWith (.zero .stop) (.zero .stop)
      | succ more => exact mimics_valueWith (.zero .stop) (.zero .stop)
  | succ budget ih =>
      obtain ⟨more, rfl⟩ := Nat.exists_eq_add_of_le' h
      have hvalue := ih (Nat.le_of_succ_le_succ h)
      have hnamed := foresees_named (foresees_value budget)
      refine mimics_valueWith (mimics_commaList hvalue ?_)
        (mimics_commaList (mimics_named hvalue) ?_)
      · exact takes_of_begins (foresees_value budget).sound Value.begins_spellings
      · exact takes_of_begins hnamed.sound fun x => (begins_ident x.1).mul.mul

/-! Arguments and directives -/

theorem mimics_arguments (h : budget ≤ more) :
    Mimics (budget + 1) (arguments budget) (arguments more) :=
  mimics_parenthesized (mimics_commaList1 ((mimics_named (mimics_value h)).map _ _))

theorem mimics_directives (h : budget ≤ more) :
    Mimics (budget + 1) (directives budget) (directives more) :=
  ((((Mimics.expect .atSign).both mimics_name).both (mimics_arguments h).optional).map _ _).many

/-! Selections -/

section Selections

variable {selectionSet selectionSet' : Parser (List Selection)}

theorem mimics_field (h : budget ≤ more)
    (hset : Mimics (budget + 1) selectionSet selectionSet') :
    Mimics (budget + 1) (field budget selectionSet) (field more selectionSet') :=
  (((((mimics_name.left (.expect .colon)).optional.both mimics_name).both
    (mimics_arguments h).optional).both (mimics_directives h)).both hset.optional).map _ _

theorem mimics_inlineFragment (h : budget ≤ more)
    (hset : Mimics (budget + 1) selectionSet selectionSet') :
    Mimics (budget + 1) (inlineFragment budget selectionSet) (inlineFragment more selectionSet') :=
  ((((mimics_keyword "on").right mimics_name).optional.both (mimics_directives h)).both hset).map
    _ _

theorem mimics_spread (h : budget ≤ more) : Mimics (budget + 1) (spread budget) (spread more) :=
  (mimics_fragmentName.both (mimics_directives h)).map _ _

theorem mimics_selection (h : budget ≤ more)
    (hset : Mimics (budget + 1) selectionSet selectionSet') :
    Mimics (budget + 1) (selection budget selectionSet) (selection more selectionSet') := by
  have hdots : Mimics (budget + 1) (choice [inlineFragment budget selectionSet, spread budget])
      (choice [inlineFragment more selectionSet', spread more]) :=
    .choice (.cons (mimics_inlineFragment h hset) (.cons (mimics_spread h) .nil))
  exact .choice (.cons (mimics_field h hset)
    (.cons ((Mimics.expect .ellipsis).right hdots) .nil))

end Selections

theorem mimics_selectionSet (h : budget ≤ more) :
    Mimics (budget + 1) (selectionSet budget) (selectionSet more) := by
  induction budget generalizing more with
  | zero =>
      have hbraced : ∀ items : Parser (List Selection), Mimics 1 (selectionSet 0) (braced items) :=
        fun items => Mimics.enclosed (.zero .stop) _ _
      cases more with
      | zero => exact hbraced stop
      | succ more => exact hbraced _
  | succ budget ih =>
      obtain ⟨more, rfl⟩ := Nat.exists_eq_add_of_le' h
      have hle := Nat.le_of_succ_le_succ h
      exact (mimics_commaList1 (mimics_selection hle (ih hle))).enclosed _ _

/-! Variable declarations -/

theorem mimics_typeWith {item item' : Parser TypeRef} (h : Mimics bound item item') :
    Mimics (bound + 1) (typeWith item) (typeWith item') := by
  have hbase : Mimics (bound + 1)
      (choice [map TypeRef.named name, map TypeRef.list (bracketed item)])
      (choice [map TypeRef.named name, map TypeRef.list (bracketed item')]) :=
    .choice (.cons (mimics_name.map _ _) (.cons ((h.enclosed _ _).map _ _) .nil))
  exact (hbase.both (Mimics.expect .bang).optional).map _ _

theorem mimics_typeRef (h : budget ≤ more) :
    Mimics (budget + 1) (typeRef budget) (typeRef more) := by
  induction budget generalizing more with
  | zero =>
      cases more with
      | zero => exact mimics_typeWith (.zero .stop)
      | succ more => exact mimics_typeWith (.zero .stop)
  | succ budget ih =>
      obtain ⟨more, rfl⟩ := Nat.exists_eq_add_of_le' h
      exact mimics_typeWith (ih (Nat.le_of_succ_le_succ h))

theorem mimics_variableDefinitions (h : budget ≤ more) :
    Mimics (budget + 1) (variableDefinitions budget) (variableDefinitions more) := by
  have hdefinition : Mimics (budget + 1) (variableDefinition budget) (variableDefinition more) :=
    ((((((Mimics.expect .dollar).both mimics_name).both (.expect .colon)).both
      (mimics_typeRef h)).both ((Mimics.expect .equals).right (mimics_value h)).optional).both
      (mimics_directives h)).map _ _
  exact mimics_parenthesized (mimics_commaList1 hdefinition)

/-! Definitions -/

theorem mimics_operationKind : Mimics bound operationKind operationKind :=
  .choice (.cons ((mimics_keyword _).map _ _) (.cons ((mimics_keyword _).map _ _)
    (.cons ((mimics_keyword _).map _ _) .nil)))

theorem mimics_operation (h : budget ≤ more) :
    Mimics (budget + 1) (operation budget) (operation more) :=
  .choice (.cons (((((mimics_operationKind.both mimics_name.optional).both
      (mimics_variableDefinitions h).optional).both (mimics_directives h)).both
      (mimics_selectionSet h)).placed _ _)
    (.cons ((mimics_selectionSet h).placed _ _) .nil))

theorem mimics_fragment (h : budget ≤ more) :
    Mimics (budget + 1) (fragment budget) (fragment more) :=
  ((((((mimics_keyword "fragment").both mimics_fragmentName).both (mimics_keyword "on")).both
    mimics_name).both (mimics_directives h)).both (mimics_selectionSet h)).placed _ _

/-- **The parser looks no further than to the failure it reports**, however many brackets it
may open. -/
theorem mimics_document (h : budget ≤ more) :
    Mimics (budget + 1) (document budget) (document more) := by
  have hdefinition : Mimics (budget + 1)
      (choice [map Definition.operation (operation budget),
        map Definition.fragment (fragment budget)])
      (choice [map Definition.operation (operation more),
        map Definition.fragment (fragment more)]) :=
    .choice (.cons ((mimics_operation h).map _ _) (.cons ((mimics_fragment h).map _ _) .nil))
  exact (hdefinition.many1.map _ _).left (.expect .endOfInput)

/-! ### What a document can begin with -/

/-- **The failure of a document is foreseen.** -/
theorem foreseen_document (budget : Nat) (here : Cursor) :
    MeetsOnly (document budget) here (Foreseen (fronts Document.spellings) here) := by
  have hdefinitions := foresees_definitionList budget
  have hsign : [⟨.endOfInput, "", {}⟩] ∈ sign .endOfInput := mem_sign rfl
  have hinhabits : Inhabits fun _ : Token => sign .endOfInput := ⟨default, _, hsign⟩
  have hend : ∀ middle, MeetsOnly (expect .endOfInput) middle
      (Foreseen (fronts fun _ : Token => sign .endOfInput) middle) := by
    intro middle
    refine meetsOnly_token ?_
    exact .single (t := ⟨.endOfInput, "", {}⟩) hinhabits.nil_mem_fronts
      (mem_fronts (a := default) hsign) (by decide)
  have hboth := (hdefinitions.foreseen_first hinhabits here).left (Foreseen.mergeClosed _ _)
    fun _ _ hacc => hdefinitions.foreseen_second hend hacc
  exact hboth.mono fun _ hf => hf.mono (fronts_le fun x tokens hmem =>
    ⟨x.1, definitionSpellings_mul_le x.1 hmem⟩)

/-- A document is spelled by definitions up to an end of the input, and there is none before. -/
theorem exists_inside_of_mem_spellings {document : Document} {tokens : List Token}
    (h : tokens ∈ document.spellings) :
    ∃ front last, tokens = front ++ [last] ∧ last.kind = .endOfInput ∧ front ∈ inside := by
  obtain ⟨last, middle, hdefinitions, hlast⟩ := accepts_left.mp (accepts_document h le_rfl [])
  obtain ⟨front, -, hinside, hadv'⟩ := (foresees_definitionList tokens.length).takes hdefinitions
  obtain ⟨hkind, hahead, -⟩ := accepts_expect.mp hlast
  refine ⟨front, last, ?_, hkind, hinside⟩
  have hsplit := hadv'.ahead
  rw [hahead, List.append_nil] at hsplit
  exact hsplit

end Grammar

open Spelling

namespace Document

/-- The tokens are the beginning of a document, however deep its brackets are. -/
def Viable (tokens : List Token) : Prop :=
  ∃ document : Document, ∃ rest, tokens ++ rest ∈ document.spellings

theorem Viable.of_append {tokens more : List Token} (h : Viable (tokens ++ more)) :
    Viable tokens := by
  obtain ⟨document, rest, hmem⟩ := h
  exact ⟨document, more ++ rest, List.append_assoc tokens more rest ▸ hmem⟩

/-- Where the input ends first, it ends. -/
theorem eq_nil_of_end {front before rest : List Token} {last stop : Token} (hfront : front ∈ inside)
    (hstop : stop.kind = .endOfInput) (h : front ++ [last] = before ++ stop :: rest) :
    rest = [] := by
  cases rest using List.reverseRecOn with
  | nil => rfl
  | append_singleton rest other =>
      rw [← List.cons_append, ← List.append_assoc] at h
      obtain ⟨rfl, -⟩ := List.append_inj' h rfl
      exact absurd hstop (hfront stop (by simp))

/-- The end of the input can come behind tokens that are a whole document, and only there. -/
theorem viable_end_iff {tokens : List Token} :
    (∃ t : Token, t.kind = .endOfInput ∧ Viable (tokens ++ [t])) ↔
      ∃ (document : Document) (t : Token),
        t.kind = .endOfInput ∧ tokens ++ [t] ∈ document.spellings := by
  constructor
  · rintro ⟨t, ht, document, rest, hmem⟩
    obtain ⟨front, last, hsplit, -, hinside⟩ := Grammar.exists_inside_of_mem_spellings hmem
    rw [List.append_assoc, List.singleton_append] at hsplit
    obtain rfl := eq_nil_of_end hinside ht hsplit.symm
    exact ⟨document, t, ht, List.append_nil (tokens ++ [t]) ▸ hmem⟩
  · rintro ⟨document, t, ht, hmem⟩
    exact ⟨t, ht, document, [], (List.append_nil (tokens ++ [t])).symm ▸ hmem⟩

/-- **Nothing else could have stood where the parser fails**: neither the token that does, nor one
of a kind that is not expected. -/
theorem not_viable_of_error {tokens seen rest : List Token} {found : Token} {failure : Failure}
    (hsplit : tokens = seen ++ found :: rest)
    (herror : Grammar.document tokens.length (.ofTokens tokens 0) = .error failure)
    (hindex : failure.index = seen.length) {t : Token}
    (ht : t = found ∨ t.kind ≠ .comma ∧ t.kind ∉ failure.expected) : ¬ Viable (seen ++ [t]) := by
  rintro ⟨document, others, hmem⟩
  rw [List.append_assoc, List.singleton_append] at hmem
  have hswap : Swaps failure.expected (found :: rest) (t :: others) := by
    rcases ht with rfl | ⟨hcomma, hkind⟩
    · exact .same t rest others
    · exact .other found t rest others hcomma hkind
  have htwins : (Cursor.ofTokens tokens 0).Twins seen.length (found :: rest) (t :: others)
      (Cursor.ofTokens (seen ++ t :: others) 0) :=
    ⟨rfl, seen, hsplit, rfl, Nat.zero_add _⟩
  -- With room for the brackets of both inputs, the parser reads the document, and fails on it.
  have hread := Grammar.accepts_document hmem
    (Nat.le_max_right tokens.length (seen ++ t :: others).length) []
  rw [List.append_nil] at hread
  have hsame := (Grammar.mimics_document (Nat.le_max_left tokens.length
    (seen ++ t :: others).length)).twins hswap htwins (Nat.lt_succ_self _)
    (herror ▸ Outcome.within_error.mpr ⟨hindex.le, fun _ => List.Subset.refl _⟩)
  obtain ⟨furthest?, hread⟩ := hread
  rw [herror, hread] at hsame
  cases hsame

theorem exists_error {front : List Token} {last : Token}
    (hfront : ∀ t ∈ front, t.kind ≠ .endOfInput)
    (hdepth : Grammar.tooDeep? 0 (front ++ [last]) = none)
    (hno : ∀ document : Document, front ++ [last] ∉ document.spellings) :
    ∃ failure, Grammar.document (front ++ [last]).length (.ofTokens (front ++ [last]) 0) =
      .error failure := by
  cases herror : Grammar.document (front ++ [last]).length (.ofTokens (front ++ [last]) 0) with
  | error failure => exact ⟨failure, rfl⟩
  | ok parsed =>
      have hread : ofTokens (front ++ [last]) = .ok parsed.value := by
        simp only [ofTokens, hdepth, herror]
      obtain ⟨taken, rest, hmem, hsplit⟩ := mem_spellings_of_ofTokens hread
      obtain ⟨before, stop, rfl, hstop⟩ := exists_end_of_mem_spellings hmem
      rw [List.append_assoc, List.singleton_append] at hsplit
      obtain rfl := eq_nil_of_end hfront hstop hsplit
      exact absurd (hsplit ▸ hmem) (hno parsed.value)

/-- **The first token that no document goes on with** is behind what the failure has seen. -/
theorem isLeast_not_viable {seen rest : List Token} {found : Token} (hviable : Viable seen)
    (hnot : ¬ Viable (seen ++ [found])) :
    IsLeast {t | ¬ Viable ((seen ++ found :: rest).take (t + 1))} seen.length := by
  constructor
  · show ¬ Viable ((seen ++ found :: rest).take (seen.length + 1))
    rw [List.append_cons, List.take_left' (by simp)]
    exact hnot
  · intro t ht
    by_contra hless
    refine ht ?_
    rw [List.take_append_of_le_length (by omega)]
    rw [← List.take_append_drop (t + 1) seen] at hviable
    exact hviable.of_append

/--
**Syntax errors are exact.**  Let tokens that end with the only end of the input spell no document,
and not open too many brackets inside one another.  The error is reported at the first token that no
document goes on with.  The kinds that are reported as expected are those of which some token could
have stood there, without commas, and each is reported once; the end of the input is among them
exactly if the tokens before are a whole document.
-/
theorem ofTokens_error_exact {front : List Token} {last : Token}
    (hfront : ∀ t ∈ front, t.kind ≠ .endOfInput) (hlast : last.kind = .endOfInput)
    (hdepth : Grammar.tooDeep? 0 (front ++ [last]) = none)
    (hno : ∀ document : Document, front ++ [last] ∉ document.spellings) :
    ∃ t, IsLeast {t | ¬ Viable ((front ++ [last]).take (t + 1))} t ∧
      ∃ expected found, (front ++ [last])[t]? = some found ∧
        ofTokens (front ++ [last]) =
          .error ⟨.unexpected expected found.kind found.text, found.position⟩ ∧
        expected.Nodup ∧
        (∀ kind, kind ∈ expected ↔
          kind ≠ .comma ∧ ∃ token : Token, token.kind = kind ∧
            Viable ((front ++ [last]).take t ++ [token])) ∧
        (.endOfInput ∈ expected ↔ ∃ (document : Document) (token : Token),
          token.kind = .endOfInput ∧ (front ++ [last]).take t ++ [token] ∈ document.spellings) := by
  obtain ⟨failure, herror⟩ := exists_error hfront hdepth hno
  obtain ⟨hnodup, seen, stop, hadv, hindex, hinside, hviable, hkinds⟩ :=
    (Grammar.foreseen_document _ _).of_error herror
  have hsplit : front ++ [last] = seen ++ stop.ahead := hadv.ahead
  have hlength : failure.index = seen.length := hindex.trans (hadv.index.trans (Nat.zero_add _))
  cases hahead : stop.ahead with
  | nil =>
      -- The end of the input has not been seen.
      rw [hahead, List.append_nil] at hsplit
      exact absurd hlast (hinside last (hsplit ▸ by simp))
  | cons found rest =>
      rw [hahead] at hsplit
      have hother : ∀ {t : Token}, t = found ∨ t.kind ≠ .comma ∧ t.kind ∉ failure.expected →
          ¬ Viable (seen ++ [t]) := not_viable_of_error hsplit herror hlength
      have hmem : ∀ kind, kind ∈ failure.expected ↔ kind ≠ .comma ∧
          ∃ token : Token, token.kind = kind ∧ Viable (seen ++ [token]) := by
        refine fun kind => ⟨hkinds kind, ?_⟩
        rintro ⟨hcomma, token, rfl, hgo⟩
        by_contra hnot
        exact hother (.inr ⟨hcomma, hnot⟩) hgo
      have hfound : (front ++ [last])[failure.index]? = some found := by
        rw [hsplit, hlength, List.getElem?_append_right (Nat.le_refl _), Nat.sub_self]
        rfl
      refine ⟨seen.length, ?_, failure.expected, found, hlength ▸ hfound, ?_, hnodup, ?_, ?_⟩
      · rw [hsplit]
        exact isLeast_not_viable hviable (hother (.inl rfl))
      · simp only [ofTokens, hdepth, herror, ParseError.ofFailure, hfound]
        rfl
      · rw [hsplit, List.take_left]
        exact hmem
      · rw [hsplit, List.take_left, hmem, and_iff_right (by decide)]
        exact viable_end_iff

/-- A brace too many: another definition could stand there, or the end of the input. -/
theorem ofTokens_error_exact_brace :
    ∃ tokens t, Token.tokenize "\x7b a \x7d \x7d" = .ok tokens ∧
      IsLeast {t | ¬ Viable (tokens.take (t + 1))} t ∧
      tokens[t]?.map Token.position = some ⟨0, 6, 6, 6⟩ ∧
      ∀ kind, kind ∈ [.endOfInput, .name, .braceOpen] ↔
        kind ≠ .comma ∧ ∃ token : Token, token.kind = kind ∧ Viable (tokens.take t ++ [token]) := by
  have hcheck : (match Token.tokenize "\x7b a \x7d \x7d" with
      | .ok tokens =>
        decide (∀ t ∈ tokens.dropLast, t.kind ≠ .endOfInput) &&
        decide (∃ last ∈ tokens.getLast?, last.kind = .endOfInput) &&
        (Grammar.tooDeep? 0 tokens).isNone && (match ofTokens tokens with
          | .ok _ => false
          | .error error =>
            error = ⟨.unexpected [.endOfInput, .name, .braceOpen] .braceClose "\x7d", ⟨0, 6, 6, 6⟩⟩)
      | .error _ => false) = true := by decide +kernel
  split at hcheck
  · rename_i tokens htokens
    simp only [Bool.and_eq_true, decide_eq_true_eq, Option.isNone_iff_eq_none] at hcheck
    obtain ⟨⟨⟨hfront, last, hlast, hkind⟩, hdepth⟩, herror⟩ := hcheck
    split at herror
    · exact absurd herror Bool.false_ne_true
    · rename_i error hread
      obtain rfl := of_decide_eq_true herror
      obtain hsplit := List.dropLast_append_getLast? last hlast
      rw [← hsplit] at hdepth hread
      obtain ⟨t, hleast, expected, found, hfound, hexact, -, hmem, -⟩ :=
        ofTokens_error_exact hfront hkind hdepth fun document hmem => by
          rw [ofTokens_of_mem_spellings hmem hdepth] at hread
          exact nomatch hread
      rw [hread, Except.error.injEq, ParseError.mk.injEq, ParseFault.unexpected.injEq] at hexact
      obtain ⟨⟨rfl, -, -⟩, hposition⟩ := hexact
      rw [hsplit] at hleast hfound hmem
      exact ⟨tokens, t, htokens, hleast, by rw [hfound, Option.map_some, hposition], hmem⟩
  · exact absurd hcheck Bool.false_ne_true

end Document

end QueryBatching
