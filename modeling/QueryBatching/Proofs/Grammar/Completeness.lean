/-
What is spelled is read.

Every rule of the grammar is complete for the spellings of what it reads.  What has to be
checked along the grammar is which kinds of tokens a spelling can begin with: no alternative
can start where an earlier one would have gone on, so ordered choice and greedy repetition
lose nothing.

Together with the soundness of the parser this decides the grammar: `Document.ofTokens_eq_ok_iff`.
-/
import QueryBatching.Proofs.Grammar.Complete

namespace QueryBatching

open Token (Kind)
open Parse (Cursor)

/-! ### The rules of the grammar -/

namespace Grammar

open QueryBatching.Parser Spelling

variable {α : Type}

theorem complete_commas (bound : Nat) :
    Complete commas bound (fun _ => Spelling.commas) [.comma] := by
  intro here next value taken hmem hlen hadv hclear
  refine accepts_commas.mpr ⟨taken, ?_⟩
  refine (decides_expect .comma bound).repeats (fun _ _ => List.not_mem_nil) ?_ hlen hadv hclear
  clear hlen hadv
  induction taken with
  | nil => exact rfl
  | cons t rest ih =>
      have ht : [t] ∈ ({tokens | tokens = [t] ∧ t.kind = .comma} : Language Token) :=
        ⟨rfl, hmem t (by simp)⟩
      exact mem_mul ht (ih fun u hu => hmem u (List.mem_cons_of_mem t hu))

section Lists

variable {item : Parser α} {bound : Nat} {L : α → Language Token} {kinds : List Kind}

theorem complete_commaList1 {blocked : List Kind} (h : Decides item bound L blocked kinds)
    (hd : ∀ kind ∈ kinds, kind ∉ .comma :: blocked) (hcomma : .comma ∉ blocked) :
    Complete (commaList1 item) bound
      (fun values => {tokens | values ≠ [] ∧ tokens ∈ Spelling.commaList L values})
      (.comma :: blocked ++ kinds) := by
  have hitem : Decides (Parser.left item commas) bound (fun a => L a * Spelling.commas)
      (.comma :: blocked) kinds := by
    refine (h.both ((complete_commas bound).mono le_rfl (fun _ => le_rfl) (by simp))
      fun _ => mayBegin_commas.shields ?_ (List.subset_cons_self _ _)).map ?_
    · intro kind hkind
      exact List.mem_singleton.mp hkind ▸ hcomma
    · exact fun a tokens hmem => ⟨(a, ()), rfl, hmem⟩
  have hitems := hitem.many1 hd
  refine ((complete_commas bound).right hitems (fun values => ?_)
    fun _ hmem => ⟨(), hmem⟩).mono le_rfl ?_ (List.Subset.refl _)
  · rintro tokens ⟨-, hmem⟩ rest hclear
    refine (mayBegin_inOrder (fun a => (h.begins a).mul) values).shields (fun kind hkind => ?_)
      (by simp) tokens hmem rest hclear
    intro hc
    exact hd kind hkind (List.mem_singleton.mp hc ▸ List.mem_cons_self)
  · rintro values tokens ⟨hne, hmem⟩
    rw [commaList_eq] at hmem
    obtain ⟨gap, hgap, rest, hrest, rfl⟩ := hmem
    exact mem_mul hgap ⟨hne, hrest⟩

/-- The items behind the first, each behind commas, and the commas at the end. -/
theorem complete_separates (h : Decides item bound L [] kinds) (hd : .comma ∉ kinds)
    {values : List α} :
    ∀ {here stop next : Cursor} {taken gap : List Token},
      taken ∈ inOrder (fun a => Spelling.commas * L a) values → gap ∈ Spelling.commas →
      (taken ++ gap).length ≤ bound → here.Advances taken stop → stop.Advances gap next →
      Clear (.comma :: kinds) next.ahead → Separates item commas here values stop := by
  induction values with
  | nil =>
      intro here stop next taken gap hmem hgap hlen hadv hadv' hclear
      obtain rfl : taken = [] := hmem
      obtain rfl := eq_of_advances_nil hadv
      refine .stop fun _ middle value after hcommas hitem => ?_
      have hend : Accepts commas stop () next :=
        complete_commas bound hgap (by simpa using hlen) hadv' (hclear.mono (by simp))
      obtain ⟨-, rfl⟩ := hcommas.unique hend
      exact absurd (h.refuses (hclear.mono (List.subset_cons_self _ _))) hitem.not_rejects
  | cons value values ih =>
      intro here stop next taken gap hmem hgap hlen hadv hadv' hclear
      obtain ⟨_, ⟨front, hfront, first, hfirst, rfl⟩, rest, hrest, rfl⟩ := hmem
      obtain ⟨after, hadv, hadvrest⟩ := hadv.split
      obtain ⟨middle, hadvfront, hadvfirst⟩ := hadv.split
      simp only [List.length_append] at hlen
      have hitem : Accepts item middle value after :=
        h.complete hfirst (by omega) hadvfirst fun _ _ => List.not_mem_nil
      have hcommas : Accepts commas here () middle := by
        refine complete_commas bound hfront (by omega) hadvfront ?_
        rw [hadvfirst.ahead]
        refine (h.begins value).clear (fun kind hkind hc => ?_) hfirst _
        exact hd (List.mem_singleton.mp hc ▸ hkind)
      refine .more hcommas hitem ?_
        (ih hrest hgap (by simp only [List.length_append]; omega) hadvrest hadv' hclear)
      have := List.length_pos_of_ne_nil ((h.begins value).ne_nil hfirst)
      rw [hadvfront.ahead, hadvfirst.ahead, List.length_append, List.length_append]
      omega

theorem complete_commaList (h : Decides item bound L [] kinds) (hd : .comma ∉ kinds) :
    Complete (commaList item) bound (Spelling.commaList L) (.comma :: kinds) := by
  intro here next values taken hmem hlen hadv hclear
  cases values with
  | nil =>
      have hopen : Accepts commas here () next :=
        complete_commas bound hmem hlen hadv (hclear.mono (by simp))
      have hclose : Accepts commas next () next :=
        @complete_commas bound next next () [] (fun t ht => absurd ht List.not_mem_nil)
          (Nat.zero_le _) (.refl _) (hclear.mono (by simp))
      refine accepts_delimited.mpr ⟨(), (), next, next, hopen, ?_, hclose⟩
      refine accepts_separatedBy.mpr (.inl ⟨rfl, rfl, ?_⟩)
      exact h.refuses (hclear.mono (List.subset_cons_self _ _))
  | cons first rest =>
      rw [commaList_cons_eq] at hmem
      obtain ⟨_, ⟨before, hbefore, _, ⟨a, ha, b, hb, rfl⟩, rfl⟩, after, hafter, rfl⟩ := hmem
      obtain ⟨stop, hadv, hadvafter⟩ := hadv.split
      obtain ⟨start, hadvbefore, hadvitems⟩ := hadv.split
      obtain ⟨middle, hadva, hadvb⟩ := hadvitems.split
      simp only [List.length_append] at hlen
      refine accepts_delimited.mpr ⟨(), (), start, stop, ?_, ?_, ?_⟩
      · refine complete_commas bound hbefore (by omega) hadvbefore ?_
        rw [hadva.ahead]
        refine (h.begins first).clear (fun kind hkind hc => ?_) ha _
        exact hd (List.mem_singleton.mp hc ▸ hkind)
      · refine accepts_separatedBy.mpr (.inr ⟨first, rest, middle, rfl, ?_, ?_⟩)
        · exact h.complete ha (by omega) hadva fun _ _ => List.not_mem_nil
        · exact complete_separates h hd hb hafter
            (by simp only [List.length_append]; omega) hadvb hadvafter hclear
      · exact complete_commas bound hafter (by omega) hadvafter (hclear.mono (by simp))

end Lists

/-! Names -/

theorem decides_name (bound : Nat) : Decides name bound ident [] [.name] := by
  refine (decides_expect .name bound).map ?_
  rintro text _ ⟨t, rfl, hkind, ht⟩
  exact ⟨t, ht, rfl, hkind⟩

theorem complete_fragmentName (bound : Nat) :
    Complete fragmentName bound Spelling.fragmentName [] := by
  refine (complete_token _ _ bound).map ?_
  intro text tokens hmem
  unfold Spelling.fragmentName at hmem
  split at hmem
  · exact absurd hmem (Language.notMem_zero _)
  · rename_i hne
    obtain ⟨t, rfl, hkind, rfl⟩ := hmem
    exact ⟨t, rfl, rfl, by simp [hkind, hne]⟩

theorem decides_named {value : Parser α} {bound : Nat} {L : α → Language Token}
    {blocked : List Kind} (h : Complete value bound L blocked) :
    Decides (Grammar.named value) bound (fun x => Spelling.named x.1 (L x.2)) blocked [.name] := by
  refine (((decides_name bound).both (complete_expect .colon bound)
    fun _ => shields_of_nil _ _).both h fun _ => shields_of_nil _ _).map ?_
  rintro ⟨text, a⟩ _ ⟨_, ⟨front, hfront, _, ⟨t, rfl, ht⟩, rfl⟩, rest, hrest, rfl⟩
  exact ⟨((text, t), a), rfl, mem_mul (mem_mul hfront ⟨rfl, ht⟩) hrest⟩

/-! Values -/

theorem decides_literal (kind : Kind) (build : String → Value) (bound : Nat) :
    Decides (literal kind build) bound (image build (word kind)) [] [kind] := by
  refine (decides_expect kind bound).map ?_
  rintro _ _ ⟨_, rfl, t, rfl, hkind, rfl⟩
  exact ⟨t, rfl, rfl, hkind⟩

theorem decides_constant (kind : Kind) (found : Value) (bound : Nat) :
    Decides (constant kind found) bound (image (fun _ : Unit => found) fun _ => sign kind) []
      [kind] := by
  refine (decides_expect kind bound).map ?_
  rintro _ _ ⟨_, rfl, t, rfl, hkind⟩
  exact ⟨t, rfl, rfl, hkind⟩

/-- The spellings of a value, given what may stand between its brackets. -/
private def spellingsWith (items : List Value → Language Token)
    (fields : List (String × Value) → Language Token) : Value → Language Token
  | .list inner => enclosed .bracketOpen .bracketClose (items inner)
  | .object inner => enclosed .braceOpen .braceClose (fields inner)
  | value => value.spellings

private theorem decides_valueWith {items : Parser (List Value)}
    {fields : Parser (List (String × Value))} {bound : Nat} {I : List Value → Language Token}
    {F : List (String × Value) → Language Token} {blocked : List Kind}
    (hitems : Complete items bound I blocked) (hfields : Complete fields bound F blocked)
    (hd : .bracketClose ∉ blocked ∧ .braceClose ∉ blocked) :
    Decides (valueWith items fields) (bound + 1) (spellingsWith I F) [] Value.firstKinds := by
  have hvar : Decides variableValue (bound + 1)
      (image .var fun text => sign .dollar * ident text) [] [.dollar] :=
    ((decides_name _).complete.behind .dollar).map fun _ => le_rfl
  have hlist : Decides (map Value.list (bracketed items)) (bound + 1)
      (image .list fun inner => enclosed .bracketOpen .bracketClose (I inner)) []
      [.bracketOpen] :=
    (Decides.enclosed hitems .bracketOpen hd.1).map fun _ => le_rfl
  have hobject : Decides (map Value.object (braced fields)) (bound + 1)
      (image .object fun inner => enclosed .braceOpen .braceClose (F inner)) [] [.braceOpen] :=
    (Decides.enclosed hfields .braceOpen hd.2).map fun _ => le_rfl
  have henum : Decides (map Value.enum name) (bound + 1) (image .enum ident) [] [.name] :=
    (decides_name _).map fun _ => le_rfl
  have hwords := (decides_constant .trueLiteral (.bool true) (bound + 1)).choice_cons
    ((decides_constant .falseLiteral (.bool false) _).choice_cons
      ((decides_constant .nullLiteral .null _).choice_cons henum.choice_one
        (by decide)) (by decide)) (by decide)
  have hbrackets := hlist.choice_cons hobject.choice_one (by decide)
  have hall := hvar.choice_cons ((decides_literal .intLiteral .int _).choice_cons
    ((decides_literal .floatLiteral .float _).choice_cons
      ((decides_literal .stringLiteral .string _).choice_cons
        (hwords.choice_cons hbrackets.choice_one (by decide)) (by decide)) (by decide))
      (by decide)) (by decide)
  refine hall.mono le_rfl (fun value tokens hmem => ?_) (List.Subset.refl _)
  cases value with
  | var text => exact Or.inl ⟨text, rfl, hmem⟩
  | int text => exact Or.inr (Or.inl ⟨text, rfl, hmem⟩)
  | float text => exact Or.inr (Or.inr (Or.inl ⟨text, rfl, hmem⟩))
  | string text => exact Or.inr (Or.inr (Or.inr (Or.inl ⟨text, rfl, hmem⟩)))
  | bool b =>
      cases b with
      | true => exact Or.inr (Or.inr (Or.inr (Or.inr (Or.inl (Or.inl ⟨(), rfl, hmem⟩)))))
      | false => exact Or.inr (Or.inr (Or.inr (Or.inr (Or.inl (Or.inr (Or.inl ⟨(), rfl, hmem⟩))))))
  | null =>
      exact Or.inr (Or.inr (Or.inr (Or.inr (Or.inl (Or.inr (Or.inr (Or.inl ⟨(), rfl, hmem⟩)))))))
  | enum text =>
      exact Or.inr (Or.inr (Or.inr (Or.inr (Or.inl (Or.inr (Or.inr (Or.inr ⟨text, rfl, hmem⟩)))))))
  | list inner => exact Or.inr (Or.inr (Or.inr (Or.inr (Or.inr (Or.inl ⟨inner, rfl, hmem⟩)))))
  | object inner => exact Or.inr (Or.inr (Or.inr (Or.inr (Or.inr (Or.inr ⟨inner, rfl, hmem⟩)))))

private theorem spellingsWith_eq (value : Value) :
    spellingsWith Value.itemSpellings Value.fieldSpellings value = value.spellings := by
  cases value with
  | list items => rw [spellingsWith, Value.spellings]
  | object fields => rw [spellingsWith, Value.spellings]
  | _ => rfl

/-- A parser that takes the tokens it is to take, where there must be some, takes none of none. -/
theorem decides_zero {p : Parser α} {L : α → Language Token} {blocked kinds : List Kind}
    (hno : Refuses p kinds) (hbegin : ∀ a, Begins kinds (L a)) : Decides p 0 L blocked kinds := by
  refine ⟨fun here next a taken hmem hlen => ?_, hno, hbegin⟩
  exact absurd (List.length_eq_zero_iff.mp (Nat.le_zero.mp hlen)) ((hbegin a).ne_nil hmem)

theorem decides_value (budget : Nat) :
    Decides (value budget) budget Value.spellings [] Value.firstKinds := by
  induction budget with
  | zero =>
      exact decides_zero (decides_valueWith (complete_stop 0) (complete_stop 0) (by decide)).refuses
        Value.begins_spellings
  | succ budget ih =>
      have hitems : Complete (commaList (value budget)) budget Value.itemSpellings
          (.comma :: Value.firstKinds) :=
        (complete_commaList ih (by decide)).mono le_rfl
          (fun items => (Value.itemSpellings_eq items).le) (List.Subset.refl _)
      have hfields : Complete (commaList (Grammar.named (value budget))) budget
          Value.fieldSpellings (.comma :: Value.firstKinds) :=
        (complete_commaList (decides_named ih.complete) (by decide)).mono le_rfl
          (fun fields => (Value.fieldSpellings_eq fields).le) (by decide)
      exact (decides_valueWith hitems hfields (by decide)).mono le_rfl
        (fun value => (spellingsWith_eq value).ge) (List.Subset.refl _)

/-! Arguments and directives -/

/-- A list that is left out when it is empty is a bracketed list or nothing. -/
theorem exists_of_mem_parenthesized {L : α → Language Token} {values : List α}
    {tokens : List Token} (h : tokens ∈ Spelling.parenthesized L values) :
    ∃ values? : Option (List α), values?.getD [] = values ∧
      tokens ∈ orNothing (fun values => enclosed .parenOpen .parenClose
        {tokens | values ≠ [] ∧ tokens ∈ Spelling.commaList L values}) values? := by
  cases values with
  | nil => exact ⟨none, rfl, h⟩
  | cons first rest =>
      obtain ⟨_, ⟨opening, hopening, inner, hinner, rfl⟩, closing, hclosing, rfl⟩ := h
      exact ⟨some (first :: rest), rfl,
        mem_mul (mem_mul hopening ⟨List.cons_ne_nil _ _, hinner⟩) hclosing⟩

theorem decides_arguments (budget : Nat) :
    Decides (arguments budget) budget (fun values => enclosed .parenOpen .parenClose
      {tokens | values ≠ [] ∧ tokens ∈ Spelling.commaList Argument.spellings values}) []
      [.parenOpen] := by
  have hargument : Decides (map (fun pair => (⟨pair.1, pair.2⟩ : Argument))
      (Grammar.named (value budget))) budget Argument.spellings [] [.name] :=
    (decides_named (decides_value budget).complete).map
      fun argument tokens hmem => ⟨(argument.name, argument.value), rfl, hmem⟩
  exact (Decides.enclosed (complete_commaList1 hargument (by decide) (by decide)) .parenOpen
    (by decide)).mono (Nat.le_succ budget) (fun _ => le_rfl) (List.Subset.refl _)

theorem decides_directive (budget : Nat) :
    Decides (directive budget) budget Directive.spellings [.parenOpen] [.atSign] := by
  refine (((decides_expect .atSign budget).both (decides_name budget).complete
    fun _ => shields_of_nil _ _).both (decides_arguments budget).optional
    fun _ => shields_of_nil _ _).map ?_
  rintro ⟨text, arguments⟩ _ ⟨_, ⟨_, ⟨t, rfl, ht⟩, found, hfound, rfl⟩, rest, hrest, rfl⟩
  obtain ⟨arguments?, rfl, harguments⟩ := exists_of_mem_parenthesized hrest
  exact ⟨((t, text), arguments?), rfl, mem_mul (mem_mul ⟨rfl, ht⟩ hfound) harguments⟩

theorem complete_directives (budget : Nat) :
    Complete (directives budget) budget (inOrder Directive.spellings) [.parenOpen, .atSign] :=
  (decides_directive budget).many (by decide)

/-! Selections -/

/-- A name that a colon follows is an alias. -/
theorem complete_aliased (bound : Nat) :
    Complete (Parser.both (optional (Parser.left name (expect .colon))) name) bound
      (fun x => orNothing (fun key => ident key * sign .colon) x.1 * ident x.2) [.colon] := by
  have halias : Complete (Parser.left name (expect .colon)) bound
      (fun key => ident key * sign .colon) [] :=
    (decides_name bound).complete.before_sign (by decide)
  rintro here next ⟨alias?, text⟩ _ ⟨first, hfirst, second, hsecond, rfl⟩ hlen hadv hclear
  obtain ⟨middle, hadva, hadvb⟩ := hadv.split
  simp only [List.length_append] at hlen
  refine accepts_both.mpr ⟨middle, ?_, (decides_name bound).complete hsecond (by omega) hadvb
    fun _ _ => List.not_mem_nil⟩
  cases alias? with
  | some key =>
      exact accepts_optional.mpr (.inl ⟨key, rfl,
        halias hfirst (by omega) hadva fun _ _ => List.not_mem_nil⟩)
  | none =>
      obtain rfl : first = [] := hfirst
      obtain rfl := eq_of_advances_nil hadva
      refine accepts_optional.mpr (.inr ⟨rfl, rfl, rejects_left.mpr (.inr ?_)⟩)
      exact ⟨text, next, (decides_name bound).complete hsecond (by omega) hadvb
        (fun _ _ => List.not_mem_nil), refuses_expect .colon hclear⟩

theorem refuses_aliased :
    Refuses (Parser.both (optional (Parser.left name (expect .colon))) name) [.name] := by
  intro here hclear
  have hname : Rejects name here := (refuses_expect .name).map hclear
  refine rejects_both.mpr (.inr ⟨none, here, ?_, hname⟩)
  exact accepts_optional.mpr (.inr ⟨rfl, rfl, rejects_left.mpr (.inl hname)⟩)

section Selections

variable {budget : Nat} {selectionSet : Parser (List Selection)}
  (h : Decides selectionSet budget Selection.setSpellings [] [.braceOpen])

include h

theorem decides_field : Decides (field budget selectionSet) budget
    (fun selection => {tokens | (∃ head nested?, selection = .field head nested?) ∧
      tokens ∈ selection.spellings}) [.colon, .parenOpen, .atSign, .braceOpen] [.name] := by
  have hparts := (((complete_aliased budget).andMaybe (decides_arguments budget).optional
    (mayBegin_orNothing (decides_arguments budget).begins) (by decide)).andMaybe
    (complete_directives budget) (mayBegin_inOrder Directive.begins_spellings) (by decide)).andMaybe
    h.optional (mayBegin_orNothing h.begins) (by decide)
  refine ⟨(hparts.map ?_).mono le_rfl (fun _ => le_rfl) (by decide),
    refuses_aliased.both.both.both.map, ?_⟩
  · rintro _ tokens ⟨⟨⟨alias?, text, arguments, directives⟩, nested?, rfl⟩, hmem⟩
    have hhead : ∀ tokens ∈ Field.spellings ⟨alias?, text, arguments, directives⟩,
        ∃ arguments? : Option (List Argument), arguments?.getD [] = arguments ∧
          tokens ∈ orNothing (fun key => ident key * sign .colon) alias? * ident text *
            orNothing (fun values => enclosed .parenOpen .parenClose {tokens | values ≠ [] ∧
              tokens ∈ Spelling.commaList Argument.spellings values}) arguments? *
            inOrder Directive.spellings directives := by
      rintro _ ⟨_, ⟨front, hfront, middle, hmiddle, rfl⟩, rest, hrest, rfl⟩
      obtain ⟨arguments?, rfl, harguments⟩ := exists_of_mem_parenthesized hmiddle
      exact ⟨arguments?, rfl, mem_mul (mem_mul hfront harguments) hrest⟩
    cases nested? with
    | none =>
        rw [Selection.spellings] at hmem
        obtain ⟨arguments?, rfl, hfield⟩ := hhead tokens hmem
        exact ⟨((((alias?, text), arguments?), directives), none), rfl,
          List.append_nil tokens ▸ mem_mul hfield rfl⟩
    | some nested =>
        rw [Selection.spellings, Selection.itemSpellings_eq] at hmem
        obtain ⟨front, hfront, rest, hrest, rfl⟩ := hmem
        obtain ⟨arguments?, rfl, hfield⟩ := hhead front hfront
        exact ⟨((((alias?, text), arguments?), directives), some nested), rfl,
          mem_mul hfield hrest⟩
  · rintro _ tokens ⟨⟨head, nested?, rfl⟩, hmem⟩
    cases nested? with
    | none =>
        rw [Selection.spellings] at hmem
        exact head.begins_spellings tokens hmem
    | some nested =>
        rw [Selection.spellings] at hmem
        exact head.begins_spellings.mul tokens hmem

/-- What follows the dots of a fragment written in place. -/
private def inPlace : Selection → Language Token :=
  image (fun x : (Option String × List Directive) × List Selection =>
      .inlineFragment x.1.1 x.1.2 x.2)
    fun x => orNothing (fun condition => ident "on" * ident condition) x.1.1 *
      inOrder Directive.spellings x.1.2 * Selection.setSpellings x.2

/-- What follows the dots of a spread. -/
private def spreadName : Selection → Language Token :=
  image (fun x : String × List Directive => .spread x.1 x.2)
    fun x => Spelling.fragmentName x.1 * inOrder Directive.spellings x.2

private theorem complete_inlineFragment :
    Complete (inlineFragment budget selectionSet) budget inPlace [] := by
  have hcondition : Decides (Parser.right (keyword "on") name) budget
      (fun condition => ident "on" * ident condition) [] [.name] := by
    refine ⟨(decides_keyword "on" budget).complete.right (decides_name budget).complete
      (fun _ => shields_of_nil _ _) ?_, (refuses_keyword "on").right,
      fun _ => (begins_ident "on").mul⟩
    exact fun _ ⟨t, ht, hkind, htext⟩ => ⟨t, ht, hkind, htext⟩
  exact ((hcondition.optional.andMaybe (complete_directives budget)
    (mayBegin_inOrder Directive.begins_spellings) (by decide)).both h.complete
    fun selections => (Selection.begins_setSpellings selections).shields (by decide) _).map
    fun _ => le_rfl

/-- A name that is not `on` does not begin a fragment written in place. -/
private theorem rejects_inlineFragment {here : Cursor} {t : Token} {rest : List Token}
    (hahead : here.ahead = t :: rest) (hkind : t.kind = .name) (hon : t.text ≠ "on") :
    Rejects (inlineFragment budget selectionSet) here := by
  have hno : ∀ {kinds : List Kind}, .name ∉ kinds → Clear kinds here.ahead := by
    intro kinds hnot
    rw [hahead]
    exact clear_cons (hkind ▸ hnot)
  have hcondition : Rejects (Parser.right (keyword "on") name) here := by
    refine rejects_right.mpr (.inl (rejects_keyword.mpr fun next hnext hword => ?_))
    simp only [hahead, List.head?_cons, Option.mem_def, Option.some.injEq] at hnext
    exact hon (hnext ▸ hword.2)
  have hdirectives : Accepts (directives budget) here [] here :=
    accepts_many.mpr (.stop ((decides_directive budget).refuses (hno (by decide))).stops)
  refine rejects_map.mpr (rejects_both.mpr
    (.inr ⟨(none, []), here, ?_, h.refuses (hno (by decide))⟩))
  exact accepts_both.mpr ⟨here, accepts_optional.mpr (.inr ⟨rfl, rfl, hcondition⟩), hdirectives⟩

private theorem complete_afterDots :
    Complete (choice [inlineFragment budget selectionSet, spread budget]) budget
      (fun selection => inPlace selection + spreadName selection) [.parenOpen, .atSign] := by
  have hspread : Complete (spread budget) budget spreadName [.parenOpen, .atSign] :=
    ((complete_fragmentName budget).both (complete_directives budget)
      fun _ => shields_of_nil _ _).map fun _ => le_rfl
  intro here next selection tokens hmem hlen hadv hclear
  rcases (Language.mem_add _ _ _).mp hmem with hinline | hname
  · exact (complete_inlineFragment h hinline hlen hadv fun _ _ => List.not_mem_nil).choice_here
  · refine (hspread hname hlen hadv hclear).choice_here.choice_later ?_
    obtain ⟨⟨text, directives⟩, -, _, htext, rest, -, rfl⟩ := hname
    unfold Spelling.fragmentName at htext
    split at htext
    · exact absurd htext (Language.notMem_zero _)
    · rename_i hon
      obtain ⟨t, rfl, hkind, rfl⟩ := htext
      exact rejects_inlineFragment h hadv.ahead hkind hon

theorem decides_dots : Decides (Parser.right (expect .ellipsis)
      (choice [inlineFragment budget selectionSet, spread budget])) budget
    (fun selection => {tokens | (∀ head nested?, selection ≠ .field head nested?) ∧
      tokens ∈ selection.spellings}) [.parenOpen, .atSign] [.ellipsis] := by
  refine ((complete_afterDots h).behind .ellipsis).mono le_rfl ?_ (List.Subset.refl _)
  rintro selection tokens ⟨hnot, hmem⟩
  cases selection with
  | field head nested? => exact absurd rfl (hnot head nested?)
  | spread text directives =>
      rw [Selection.spellings, mul_assoc] at hmem
      obtain ⟨dots, hdots, rest, hrest, rfl⟩ := hmem
      exact mem_mul hdots (Or.inr ⟨(text, directives), rfl, hrest⟩)
  | inlineFragment condition? directives nested =>
      rw [Selection.spellings, Selection.itemSpellings_eq, mul_assoc, mul_assoc] at hmem
      obtain ⟨dots, hdots, rest, hrest, rfl⟩ := hmem
      rw [← mul_assoc] at hrest
      exact mem_mul hdots (Or.inl ⟨((condition?, directives), nested), rfl, hrest⟩)

end Selections

theorem decides_selection {budget : Nat} {selectionSet : Parser (List Selection)}
    (h : Decides selectionSet budget Selection.setSpellings [] [.braceOpen]) :
    Decides (selection budget selectionSet) budget Selection.spellings
      [.colon, .parenOpen, .atSign, .braceOpen] [.name, .ellipsis] := by
  refine ((decides_field h).choice_cons ((decides_dots h).mono le_rfl (fun _ => le_rfl)
    (by decide)).choice_one (by decide)).mono le_rfl (fun selection tokens hmem => ?_)
    (List.Subset.refl _)
  cases selection with
  | field head nested? => exact Or.inl ⟨⟨head, nested?, rfl⟩, hmem⟩
  | spread text directives => exact Or.inr ⟨fun _ _ => nofun, hmem⟩
  | inlineFragment condition? directives nested => exact Or.inr ⟨fun _ _ => nofun, hmem⟩

theorem decides_selectionSet (budget : Nat) :
    Decides (selectionSet budget) budget Selection.setSpellings [] [.braceOpen] := by
  induction budget with
  | zero =>
      exact decides_zero (Decides.enclosed (complete_stop 0) .braceOpen (by decide)).refuses
        Selection.begins_setSpellings
  | succ budget ih =>
      refine (Decides.enclosed (complete_commaList1 (decides_selection ih) (by decide) (by decide))
        .braceOpen (by decide)).mono le_rfl (fun selections tokens hmem => ?_) (List.Subset.refl _)
      cases selections with
      | nil => exact absurd hmem (Language.notMem_zero _)
      | cons first rest =>
          obtain ⟨_, ⟨opening, hopening, inner, hinner, rfl⟩, closing, hclosing, rfl⟩ := hmem
          exact mem_mul (mem_mul hopening ⟨List.cons_ne_nil _ _, hinner⟩) hclosing

/-! Variable declarations -/

private theorem decides_typeWith {item : Parser TypeRef} {bound : Nat}
    {L : TypeRef → Language Token} {blocked : List Kind} (h : Complete item bound L blocked)
    (hd : .bracketClose ∉ blocked) :
    Decides (typeWith item) (bound + 1)
      (image (fun x : TypeRef × Option Token => if x.2.isSome then .nonNull x.1 else x.1)
        fun x => (image .named ident x.1 +
          image .list (fun type => enclosed .bracketOpen .bracketClose (L type)) x.1) *
          orNothing (fun t => {tokens | tokens = [t] ∧ t.kind = .bang}) x.2) [.bang]
      [.name, .bracketOpen] := by
  have hname : Decides (map TypeRef.named name) (bound + 1) (image .named ident) [] [.name] :=
    (decides_name _).map fun _ => le_rfl
  have hlist : Decides (map TypeRef.list (bracketed item)) (bound + 1)
      (image .list fun type => enclosed .bracketOpen .bracketClose (L type)) []
      [.bracketOpen] :=
    (Decides.enclosed h .bracketOpen hd).map fun _ => le_rfl
  exact ((hname.choice_cons hlist.choice_one (by decide)).both
    (decides_expect .bang _).optional fun _ => shields_of_nil _ _).map fun _ => le_rfl

theorem decides_typeRef (budget : Nat) :
    Decides (typeRef budget) budget TypeRef.spellings [.bang] [.name, .bracketOpen] := by
  induction budget with
  | zero =>
      exact decides_zero (decides_typeWith (complete_stop 0) (by decide)).refuses
        TypeRef.begins_spellings
  | succ budget ih =>
      refine (decides_typeWith ih.complete (by decide)).mono le_rfl (fun type tokens hmem => ?_)
        (List.Subset.refl _)
      have hbase : ∀ base : TypeRef, base.isNonNull = false → base.spellings ≤
          image .named ident base + image .list (fun type =>
            enclosed .bracketOpen .bracketClose type.spellings) base := by
        intro base hmark tokens hmem
        cases base with
        | named text => exact Or.inl ⟨text, rfl, hmem⟩
        | list item => exact Or.inr ⟨item, rfl, hmem⟩
        | nonNull type => exact absurd hmark (by simp [TypeRef.isNonNull])
      cases type with
      | nonNull type =>
          rw [TypeRef.spellings] at hmem
          split at hmem
          · exact absurd hmem (Language.notMem_zero _)
          · rename_i hmark
            obtain ⟨front, hfront, _, ⟨t, rfl, ht⟩, rfl⟩ := hmem
            exact ⟨(type, some t), rfl,
              mem_mul (hbase type (by simpa using hmark) hfront) ⟨rfl, ht⟩⟩
      | named text =>
          exact ⟨(.named text, none), rfl, List.append_nil tokens ▸
            mem_mul (hbase (.named text) rfl hmem) rfl⟩
      | list item =>
          exact ⟨(.list item, none), rfl, List.append_nil tokens ▸
            mem_mul (hbase (.list item) rfl hmem) rfl⟩

theorem decides_variableDefinition (budget : Nat) :
    Decides (variableDefinition budget) budget VariableDefinition.spellings
      [.bang, .equals, .parenOpen, .atSign] [.dollar] := by
  have hdefault : Decides (Parser.right (expect .equals) (value budget)) budget
      (fun value => sign .equals * value.spellings) [] [.equals] :=
    (decides_value budget).complete.behind .equals
  have hfront := (((decides_expect .dollar budget).both (decides_name budget).complete
    fun _ => shields_of_nil _ _).both (complete_expect .colon budget)
    fun _ => shields_of_nil _ _).both (decides_typeRef budget).complete
    fun _ => shields_of_nil _ _
  have hparts := (hfront.complete.andMaybe hdefault.optional (mayBegin_orNothing hdefault.begins)
    (by decide)).andMaybe (complete_directives budget)
    (mayBegin_inOrder Directive.begins_spellings) (by decide)
  refine ⟨(hparts.map ?_).mono le_rfl (fun _ => le_rfl) (by decide),
    hfront.refuses.both.both.map, VariableDefinition.begins_spellings⟩
  rintro ⟨text, type, default?, directives⟩ _ ⟨_, ⟨_, ⟨_, ⟨d, rfl, hd⟩, _, ⟨_,
    ⟨found, hfound, _, ⟨c, rfl, hc⟩, rfl⟩, marked, htype, rfl⟩, rfl⟩, value, hvalue, rfl⟩,
    rest, hrest, rfl⟩
  refine ⟨(((((d, text), c), type), default?), directives), rfl, ?_⟩
  have hmem := mem_mul (mem_mul (mem_mul (mem_mul (mem_mul
    (show [d] ∈ ({tokens | tokens = [d] ∧ d.kind = .dollar} : Language Token) from ⟨rfl, hd⟩)
    hfound) (show [c] ∈ ({tokens | tokens = [c] ∧ c.kind = .colon} : Language Token) from
      ⟨rfl, hc⟩)) htype) hvalue) hrest
  simpa only [List.append_assoc] using hmem

theorem decides_variableDefinitions (budget : Nat) :
    Decides (variableDefinitions budget) budget (fun values => enclosed .parenOpen .parenClose
      {tokens | values ≠ [] ∧ tokens ∈ Spelling.commaList VariableDefinition.spellings values}) []
      [.parenOpen] :=
  (Decides.enclosed (complete_commaList1 (decides_variableDefinition budget) (by decide)
    (by decide)) .parenOpen (by decide)).mono (Nat.le_succ budget) (fun _ => le_rfl)
    (List.Subset.refl _)

/-! Definitions -/

theorem accepts_keyword_of_mem {text : String} {here next : Cursor} {tokens : List Token}
    (h : tokens ∈ ident text) (hadv : here.Advances tokens next) :
    ∃ t, Accepts (keyword text) here t next := by
  obtain ⟨t, rfl, hkind, htext⟩ := h
  exact ⟨t, accepts_keyword.mpr ⟨⟨hkind, htext⟩, hadv.ahead, hadv.index⟩⟩

theorem rejects_keyword_of_mem {text other : String} {here next : Cursor} {tokens : List Token}
    (h : tokens ∈ ident text) (hadv : here.Advances tokens next) (hne : text ≠ other) :
    Rejects (keyword other) here := by
  obtain ⟨t, rfl, hkind, rfl⟩ := h
  refine rejects_keyword.mpr fun u hu hword => ?_
  rw [hadv.ahead, List.singleton_append, List.head?_cons, Option.mem_def, Option.some.injEq] at hu
  exact hne (hu ▸ hword.2)

theorem decides_operationKind (bound : Nat) :
    Decides operationKind bound (fun kind => ident kind.text) [] [.name] := by
  refine ⟨?_, Refuses.choice ?_, fun kind => begins_ident kind.text⟩
  · intro here next kind tokens hmem hlen hadv hclear
    obtain ⟨t, ht⟩ := accepts_keyword_of_mem hmem hadv
    have hno : ∀ {other : String} {found : OperationKind}, kind.text ≠ other →
        Rejects (map (fun _ => found) (keyword other)) here :=
      fun hne => rejects_map.mpr (rejects_keyword_of_mem hmem hadv hne)
    have hyes : Accepts (map (fun _ => kind) (keyword kind.text)) here kind next :=
      accepts_map.mpr ⟨t, rfl, ht⟩
    cases kind with
    | query => exact hyes.choice_here
    | mutation => exact hyes.choice_here.choice_later (hno (by decide))
    | subscription =>
        exact (hyes.choice_here.choice_later (hno (by decide))).choice_later (hno (by decide))
  · simp only [List.forall_mem_cons, List.not_mem_nil, false_imp_iff, implies_true, and_true]
    exact ⟨(refuses_keyword _).map, (refuses_keyword _).map, (refuses_keyword _).map⟩

theorem decides_operation (budget : Nat) :
    Decides (operation budget) budget Operation.spellings [] [.name, .braceOpen] := by
  have hname : Complete (optional name) budget (orNothing ident) [.name] :=
    (decides_name budget).optional
  have hfront := (((decides_operationKind budget).complete.andMaybe hname
    (mayBegin_orNothing begins_ident) (by decide)).andMaybe
    (decides_variableDefinitions budget).optional
    (mayBegin_orNothing (decides_variableDefinitions budget).begins) (by decide)).andMaybe
    (complete_directives budget) (mayBegin_inOrder Directive.begins_spellings) (by decide)
  have hkeyword := hfront.both (decides_selectionSet budget).complete
    fun selections => (Selection.begins_setSpellings selections).shields (by decide) _
  have hparts : Decides _ budget _ [] [.name] :=
    ⟨hkeyword, (decides_operationKind budget).refuses.both.both.both.both,
      fun _ => (begins_ident _).mul.mul.mul.mul⟩
  have hlong := hparts.placed
    (f := fun position x => (⟨x.1.1.1.1, x.1.1.1.2, x.1.1.2.getD [], x.1.2, x.2, position⟩ :
      Operation))
    (M := fun operation => {tokens | tokens ∈ operation.keywordSpellings ∧
      operation.position = start tokens}) <| by
    rintro ⟨kind, name?, declarations, directives, selections, position⟩ _
      ⟨⟨_, ⟨_, ⟨front, hfront, middle, hmiddle, rfl⟩, rest, hrest, rfl⟩, set, hset, rfl⟩, rfl⟩
    obtain ⟨declarations?, rfl, hdeclarations⟩ := exists_of_mem_parenthesized hmiddle
    exact ⟨((((kind, name?), declarations?), directives), selections), rfl,
      mem_mul (mem_mul (mem_mul hfront hdeclarations) hrest) hset⟩
  have hshort := (decides_selectionSet budget).placed
    (f := fun position selections =>
      (⟨.query, none, [], [], selections, position⟩ : Operation))
    (M := fun operation => {tokens | (operation.IsShorthand ∧
      tokens ∈ Selection.setSpellings operation.selections) ∧
      operation.position = start tokens}) <| by
    rintro ⟨kind, name?, declarations, directives, selections, position⟩ tokens
      ⟨⟨⟨rfl, rfl, rfl, rfl⟩, hset⟩, rfl⟩
    exact ⟨selections, rfl, hset⟩
  refine (hlong.choice_cons hshort.choice_one (by decide)).mono le_rfl ?_ (List.Subset.refl _)
  rintro operation tokens ⟨hmem | hmem, hposition⟩
  · exact Or.inl ⟨hmem, hposition⟩
  · exact Or.inr ⟨hmem, hposition⟩

theorem complete_fragment (budget : Nat) :
    Complete (fragment budget) budget Fragment.spellings [] := by
  have hfront := ((((decides_keyword "fragment" budget).complete.both
    (complete_fragmentName budget) fun _ => shields_of_nil _ _).both
    (complete_keyword "on" budget) fun _ => shields_of_nil _ _).both
    (decides_name budget).complete fun _ => shields_of_nil _ _).both
    (complete_directives budget) fun _ => shields_of_nil _ _
  refine (hfront.both (decides_selectionSet budget).complete
    fun selections => (Selection.begins_setSpellings selections).shields (by decide) _).placed ?_
  rintro ⟨text, condition, directives, selections, position⟩ tokens ⟨hbody, rfl⟩
  refine ⟨(Fragment.begins_spellings _).ne_nil ⟨hbody, rfl⟩, ?_⟩
  obtain ⟨_, ⟨_, ⟨_, ⟨_, ⟨_, ⟨f, rfl, hf⟩, name, hname, rfl⟩, _, ⟨o, rfl, ho⟩, rfl⟩,
    found, hfound, rfl⟩, rest, hrest, rfl⟩, set, hset, rfl⟩ := hbody
  exact ⟨(((((f, text), o), condition), directives), selections), rfl,
    mem_mul (mem_mul (mem_mul (mem_mul (mem_mul ⟨rfl, hf⟩ hname) ⟨rfl, ho⟩) hfound) hrest) hset⟩

/-- The keyword of a fragment begins no operation. -/
theorem rejects_operation {budget : Nat} {here : Cursor} {t : Token} {rest : List Token}
    (hahead : here.ahead = t :: rest) (hkind : t.kind = .name) (htext : t.text = "fragment") :
    Rejects (operation budget) here := by
  have hno : ∀ {other : String} {found : OperationKind}, "fragment" ≠ other →
      Rejects (map (fun _ => found) (keyword other)) here := by
    intro other found hne
    refine rejects_map.mpr (rejects_keyword.mpr fun next hnext hword => hne ?_)
    simp only [hahead, List.head?_cons, Option.mem_def, Option.some.injEq] at hnext
    rw [← htext, hnext, hword.2]
  refine rejects_choice_cons.mpr ⟨rejects_placed.mpr ?_, rejects_choice_cons.mpr
    ⟨rejects_placed.mpr ((decides_selectionSet budget).refuses ?_), rejects_choice_nil⟩⟩
  · refine rejects_both.mpr (.inl (rejects_both.mpr (.inl (rejects_both.mpr (.inl
      (rejects_both.mpr (.inl ?_)))))))
    exact rejects_choice_cons.mpr ⟨hno (by decide), rejects_choice_cons.mpr
      ⟨hno (by decide), rejects_choice_cons.mpr ⟨hno (by decide), rejects_choice_nil⟩⟩⟩
  · rw [hahead]
    exact clear_cons (hkind ▸ by decide)

theorem decides_definition (budget : Nat) :
    Decides (choice [map Definition.operation (operation budget),
      map Definition.fragment (fragment budget)]) budget Definition.spellings []
      [.name, .braceOpen] := by
  refine ⟨?_, Refuses.choice ?_, Definition.begins_spellings⟩
  · intro here next definition tokens hmem hlen hadv hclear
    cases definition with
    | operation found =>
        exact (accepts_map.mpr ⟨found, rfl,
          (decides_operation budget).complete hmem hlen hadv hclear⟩).choice_here
    | fragment found =>
        have hacc : Accepts (map Definition.fragment (fragment budget)) here (.fragment found)
            next :=
          accepts_map.mpr ⟨found, rfl, complete_fragment budget hmem hlen hadv hclear⟩
        refine hacc.choice_here.choice_later (rejects_map.mpr ?_)
        obtain ⟨⟨_, ⟨_, ⟨_, ⟨_, ⟨_, ⟨f, rfl, hkind, htext⟩, _, -, rfl⟩, _, -, rfl⟩, _, -, rfl⟩,
          _, -, rfl⟩, _, -, rfl⟩, -⟩ := hmem
        exact rejects_operation hadv.ahead hkind htext
  · simp only [List.forall_mem_cons, List.not_mem_nil, false_imp_iff, implies_true, and_true]
    refine ⟨(decides_operation budget).refuses.map, ?_⟩
    exact (refuses_keyword "fragment").both.both.both.both.both.placed.map.mono (by decide)

theorem complete_document (budget : Nat) :
    Complete (document budget) budget Document.spellings [] := by
  have hdefinitions := (decides_definition budget).many1 (by simp)
  have hdocument : Complete (map Document.mk (definitions budget)) budget
      (fun d => {tokens | d.definitions ≠ [] ∧
        tokens ∈ inOrder Definition.spellings d.definitions}) [.name, .braceOpen] :=
    hdefinitions.map fun d tokens hmem => ⟨d.definitions, rfl, hmem⟩
  refine (hdocument.before_sign (by decide)).mono le_rfl ?_ (List.Subset.refl _)
  rintro ⟨definitions⟩ tokens hmem
  cases definitions with
  | nil => exact absurd hmem (Language.notMem_zero _)
  | cons first rest =>
      obtain ⟨front, hfront, last, hlast, rfl⟩ := hmem
      exact mem_mul ⟨List.cons_ne_nil _ _, hfront⟩ hlast

end Grammar

/-- The rule for documents reads what spells one, with a budget of as many levels as tokens. -/
theorem Grammar.accepts_document {budget : Nat} {taken : List Token} {document : Document}
    (h : taken ∈ document.spellings) (hbudget : taken.length ≤ budget) (rest : List Token) :
    Parser.Accepts (Grammar.document budget) (.ofTokens (taken ++ rest) 0) document
      ⟨taken.length, rest⟩ :=
  complete_document budget h hbudget (Cursor.advances_ofTokens taken rest)
    fun _ _ => List.not_mem_nil

/--
**What spells a document is read as that document**, whatever is behind it, unless it opens too
many brackets inside one another.
-/
theorem Document.ofTokens_append_of_mem_spellings {taken rest : List Token} {document : Document}
    (h : taken ∈ document.spellings) (hdepth : Grammar.tooDeep? 0 (taken ++ rest) = none) :
    Document.ofTokens (taken ++ rest) = .ok document := by
  have hlength : taken.length ≤ (taken ++ rest).length := by simp
  obtain ⟨furthest?, hfound⟩ := Grammar.accepts_document h hlength rest
  simp only [Document.ofTokens, hdepth, hfound]

theorem Document.ofTokens_of_mem_spellings {tokens : List Token} {document : Document}
    (h : tokens ∈ document.spellings) (hdepth : Grammar.tooDeep? 0 tokens = none) :
    Document.ofTokens tokens = .ok document := by
  have hread := @ofTokens_append_of_mem_spellings tokens [] document h
  rw [List.append_nil] at hread
  exact hread hdepth

/-- No tokens spell two documents. -/
theorem Document.eq_of_mem_spellings {tokens : List Token} {document other : Document}
    (h : tokens ∈ document.spellings) (h' : tokens ∈ other.spellings) : document = other :=
  ((Grammar.accepts_document h le_rfl []).unique (Grammar.accepts_document h' le_rfl [])).1

/-- A document is spelled up to an end of the input. -/
theorem Document.exists_end_of_mem_spellings {tokens : List Token} {document : Document}
    (h : tokens ∈ document.spellings) :
    ∃ front last, tokens = front ++ [last] ∧ last.kind = .endOfInput := by
  obtain ⟨definitions⟩ := document
  cases definitions with
  | nil => exact absurd h (Language.notMem_zero _)
  | cons first rest =>
      obtain ⟨front, -, _, ⟨last, rfl, hlast⟩, rfl⟩ := h
      exact ⟨front, last, rfl, hlast⟩

/--
**The grammar is decided exactly.**  Let the input not end before the last token, and let the
tokens not open too many brackets inside one another.  They are read as a document if and only if
they spell it, and they are read at all if and only if there is exactly one document that they
spell: no alternative, repetition or optional part of the parser takes a turn that leads away from
a spelling, or to another tree.
-/
theorem Document.ofTokens_eq_ok_iff {front : List Token} {last : Token}
    (hfront : ∀ t ∈ front, t.kind ≠ .endOfInput)
    (hdepth : Grammar.tooDeep? 0 (front ++ [last]) = none) :
    (∀ document, ofTokens (front ++ [last]) = .ok document ↔
        front ++ [last] ∈ document.spellings) ∧
      ((∃ document, ofTokens (front ++ [last]) = .ok document) ↔
        ∃! document : Document, front ++ [last] ∈ document.spellings) := by
  have hread : ∀ document, ofTokens (front ++ [last]) = .ok document ↔
      front ++ [last] ∈ document.spellings := by
    refine fun document => ⟨fun h => ?_, fun h => ofTokens_of_mem_spellings h hdepth⟩
    obtain ⟨taken, rest, hmem, hsplit⟩ := mem_spellings_of_ofTokens h
    obtain ⟨before, stop, rfl, hstop⟩ := exists_end_of_mem_spellings hmem
    -- The tokens that were read end with an end of the input, and there is none but the last.
    cases rest using List.reverseRecOn with
    | nil =>
        rw [List.append_nil] at hsplit
        exact hsplit ▸ hmem
    | append_singleton middle other =>
        rw [← List.append_assoc] at hsplit
        obtain ⟨rfl, -⟩ := List.append_inj' hsplit rfl
        exact absurd hstop (hfront stop (by simp))
  refine ⟨hread, ?_, ?_⟩
  · rintro ⟨document, hdocument⟩
    have hmem := (hread document).mp hdocument
    exact ⟨document, hmem, fun other hother => eq_of_mem_spellings hother hmem⟩
  · rintro ⟨document, hmem, -⟩
    exact ⟨document, (hread document).mpr hmem⟩

/-- Keywords in the place of names: an operation, a field and a fragment are called after them. -/
def keywordQuery : String :=
  "query query \x7b query: on ...on on \x7b on \x7d ...query \x7d " ++
    "fragment query on on \x7b a \x7d"

/-- A document in which keywords are names is read like any other. -/
theorem Document.ofTokens_eq_ok_iff_keywords :
    ∃ front last document, Token.tokenize keywordQuery = .ok (front ++ [last]) ∧
      (∀ t ∈ front, t.kind ≠ .endOfInput) ∧ last.kind = .endOfInput ∧
      Grammar.tooDeep? 0 (front ++ [last]) = none ∧
      front ++ [last] ∈ Document.spellings document ∧
      ∀ other : Document, front ++ [last] ∈ other.spellings → other = document := by
  have hcheck : (match Token.tokenize keywordQuery with
      | .ok tokens =>
        decide (∀ t ∈ tokens.dropLast, t.kind ≠ .endOfInput) &&
        decide (∃ last ∈ tokens.getLast?, last.kind = .endOfInput) &&
        (Grammar.tooDeep? 0 tokens).isNone && (ofTokens tokens).isOk
      | .error _ => false) = true := by decide +kernel
  split at hcheck
  · rename_i tokens htokens
    simp only [Bool.and_eq_true, decide_eq_true_eq, Option.isNone_iff_eq_none] at hcheck
    obtain ⟨⟨⟨hfront, last, hlast, hkind⟩, hdepth⟩, hok⟩ := hcheck
    rw [← List.dropLast_append_getLast? last hlast] at htokens hdepth hok
    obtain ⟨hread, hunique⟩ := ofTokens_eq_ok_iff hfront hdepth
    cases hdocument : ofTokens (tokens.dropLast ++ [last]) with
    | error error =>
        rw [hdocument] at hok
        exact absurd hok Bool.false_ne_true
    | ok document =>
        obtain ⟨found, hfound, honly⟩ := hunique.mp ⟨document, hdocument⟩
        exact ⟨_, last, found, htokens, hfront, hkind, hdepth, hfound, honly⟩
  · simp at hcheck

end QueryBatching
