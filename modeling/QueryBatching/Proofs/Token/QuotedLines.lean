/-
Quoted strings and the ends of lines.

A quoted string is meant to stand on one line: where its line ends before its closing quote,
there is no string but a fault at the opening quote.  The reader keeps to this for characters
and for escapes that are over, but a backslash takes the character behind it along whatever it
is, so a string goes on in the next line if its line ends behind a backslash.

`OnOneLine` says what is meant, of a whole source, and `onOneLine_iff` says of which sources it
is true: of those where no string is closed that took the end of a line along.  What the reader
takes is said by the units of `QuotedUnit` and by one kind of unit more.
-/
import QueryBatching.Proofs.Token.Separated

namespace QueryBatching

namespace Lexeme

/-! ### The units of a quoted string -/

/-- A backslash and the end of its line. -/
def EscapedBreak (text : List Char) : Prop :=
  ∃ stop, isTerminator stop = true ∧ text = ['\\', stop]

/-- What the reader takes at once between the quotes of a string. -/
def TakenUnit (text : List Char) : Prop := QuotedUnit text ∨ EscapedBreak text

theorem takenUnit_escape (c : Char) : TakenUnit ['\\', c] := by
  cases hline : isTerminator c with
  | false => exact .inl (.escaped hline)
  | true => exact .inr ⟨c, hline, rfl⟩

theorem quoted_escape (c : Char) (cs : List Char) :
    quoted ('\\' :: c :: cs) = (quoted cs).map fun text => '\\' :: c :: text := rfl

/-- Units are taken one after another. -/
theorem quoted_append {units : List (List Char)} (h : ∀ text ∈ units, TakenUnit text)
    (cs : List Char) :
    quoted (units.flatten ++ cs) = (quoted cs).map (units.flatten ++ ·) := by
  induction units with
  | nil => simp
  | cons first rest ih =>
      rw [List.forall_mem_cons] at h
      rw [List.flatten_cons, List.append_assoc]
      rcases h.1 with hunit | ⟨stop, -, rfl⟩
      · cases hunit with
        | plain hquote hback hline =>
            rw [List.singleton_append, quoted_plain hquote hback, hline, ih h.2]
            simp [Function.comp_def]
        | escaped hline =>
            rw [List.cons_append, List.singleton_append, quoted_escape, ih h.2]
            simp [Function.comp_def]
      · rw [List.cons_append, List.singleton_append, quoted_escape, ih h.2]
        simp [Function.comp_def]

/-- **What is read of a quoted string is units and the closing quote.** -/
theorem exists_units_of_quoted {cs text : List Char} (h : quoted cs = some text) :
    ∃ (units : List (List Char)) (rest : List Char), (∀ unit ∈ units, TakenUnit unit) ∧
      text = units.flatten ++ ['"'] ∧ cs = units.flatten ++ '"' :: rest := by
  fun_induction quoted cs generalizing text with
  | case1 => simp at h
  | case2 rest => exact ⟨[], rest, by simp, (Option.some.inj h).symm, rfl⟩
  | case3 c rest ih =>
      obtain ⟨inner, hinner, rfl⟩ := Option.map_eq_some_iff.mp h
      obtain ⟨units, behind, hunits, rfl, rfl⟩ := ih hinner
      exact ⟨['\\', c] :: units, behind, List.forall_mem_cons.mpr ⟨takenUnit_escape c, hunits⟩,
        rfl, rfl⟩
  | case4 c rest hquote hescape hend => simp at h
  | case5 c rest hquote hescape hend ih =>
      obtain ⟨inner, hinner, rfl⟩ := Option.map_eq_some_iff.mp h
      -- A backslash comes here only as the last character, and then nothing closes the string.
      have hback : c ≠ '\\' := by
        rintro rfl
        cases rest with
        | nil => simp [quoted] at hinner
        | cons e es => exact hescape e es rfl rfl
      obtain ⟨units, behind, hunits, rfl, rfl⟩ := ih hinner
      have hunit : QuotedUnit [c] := .plain (fun hc => hquote hc) hback (by simpa using hend)
      exact ⟨[c] :: units, behind, List.forall_mem_cons.mpr ⟨.inl hunit, hunits⟩, rfl, rfl⟩

/-- Where a line ends, or the text, there is no closing quote. -/
theorem quoted_stop {stop : Char} (h : isTerminator stop = true) (cs : List Char) :
    quoted (stop :: cs) = none := by
  simp only [isTerminator, Bool.or_eq_true, decide_eq_true_eq] at h
  rcases h with rfl | rfl <;> rfl

/-- No character of a unit ends a line, if the unit is no backslash and an end of a line. -/
theorem QuotedUnit.plain_chars {text : List Char} (h : QuotedUnit text) :
    ∀ c ∈ text, isTerminator c = false := by
  cases h with
  | plain hquote hback hline => exact List.forall_mem_singleton.mpr hline
  | escaped hline => exact List.forall_mem_cons.mpr ⟨rfl, List.forall_mem_singleton.mpr hline⟩

theorem read_quote (cs : List Char) :
    read '"' cs = (string cs).map fun tail => (.stringLiteral, tail) := rfl

/-- What is read at an opening quote that is not the first of three. -/
theorem read_quoted {cs : List Char} (h : ¬['"', '"'] <+: cs) :
    read '"' cs = match quoted cs with
      | some text => .ok (.stringLiteral, text)
      | none => .error .unterminatedString := by
  rw [read_quote, string_plain fun rest heq => h ⟨rest, heq.symm⟩]
  cases quoted cs <;> rfl

/-- Only a quote begins a string. -/
theorem eq_quote_of_read {c : Char} {cs tail : List Char}
    (h : read c cs = .ok (.stringLiteral, tail)) : c = '"' := by
  by_contra hquote
  unfold read at h
  split at h
  · rename_i kind hsign
    obtain ⟨rfl, -⟩ := Prod.mk.inj (Except.ok.inj h)
    unfold Token.Kind.ofSign? at hsign
    split at hsign <;> simp at hsign
  · rw [if_neg hquote] at h
    split at h
    · obtain ⟨_, -, hpair⟩ := Outcomes.map_eq_ok.mp h
      simp at hpair
    · split at h
      · have hkind := (Prod.mk.inj (Except.ok.inj h)).1
        unfold Token.Kind.ofWord at hkind
        repeat' split at hkind
        all_goals simp at hkind
      · split at h
        · obtain ⟨⟨_, _⟩, hnumber, hpair⟩ := Outcomes.map_eq_ok.mp h
          obtain ⟨_, _, part, power, -, -, -, rfl⟩ := numeral_of_number hnumber
          have hkind := (Prod.mk.inj hpair).1
          unfold numeralKind at hkind
          split at hkind <;> simp at hkind
        · simp at h

end Lexeme

open Lexeme (EscapedBreak QuotedUnit TakenUnit isIgnored isTerminator)

namespace Token

/-! ### Places that a scan comes to -/

/-- A scan at the first place comes to the second, over blanks, comments and lexemes. -/
inductive Reaches : Location → List Char → Location → List Char → Prop
  | here (here : Location) (cs : List Char) : Reaches here cs here cs
  | ignored {here there : Location} {c : Char} {cs ahead : List Char} (hc : isIgnored c = true)
      (h : Reaches (here.advance c) cs there ahead) : Reaches here (c :: cs) there ahead
  | comment {here there : Location} {text rest ahead : List Char}
      (htext : ∀ c ∈ text, isTerminator c = false)
      (hend : ∀ c ∈ rest.head?, isTerminator c = true)
      (h : Reaches (here.advanceAll ('#' :: text)) rest there ahead) :
    Reaches here ('#' :: (text ++ rest)) there ahead
  | lexeme {here there : Location} {c : Char} {tail rest ahead : List Char} {kind : Kind}
      (hread : Lexeme.read c (tail ++ rest) = .ok (kind, tail))
      (h : Reaches (here.advanceAll (c :: tail)) rest there ahead) :
    Reaches here (c :: (tail ++ rest)) there ahead

/-- What a scan gives from a place on that it comes to is the end of what it gives. -/
theorem Reaches.scanFrom_eq {here there : Location} {cs ahead : List Char}
    (h : Reaches here cs there ahead) :
    ∃ tokens : List Token, scanFrom 0 here cs = tokens.map .ok ++ scanFrom 0 there ahead := by
  induction h with
  | here here cs => exact ⟨[], rfl⟩
  | ignored hc h ih =>
      rw [scanFrom_ignored hc]
      exact ih
  | comment htext hend h ih =>
      rw [scanFrom_comment htext hend]
      exact ih
  | lexeme hread h ih =>
      obtain ⟨tokens, htokens⟩ := ih
      rw [scanFrom_lexeme hread, htokens]
      exact ⟨_ :: tokens, rfl⟩

/-- A token that is not the end of the input was read at a place that the scan came to. -/
theorem exists_reaches_of_mem {here : Location} {cs : List Char} {token : Token}
    (h : .ok token ∈ scanFrom 0 here cs) (hkind : token.kind ≠ .endOfInput) :
    ∃ there c tail rest, Reaches here cs there (c :: (tail ++ rest)) ∧
      Lexeme.read c (tail ++ rest) = .ok (token.kind, tail) ∧
      token.text = String.ofList (c :: tail) ∧ token.position = there.position := by
  -- What a step passes over may be long, so the induction is on how much there is to scan.
  induction hlength : cs.length using Nat.strong_induction_on generalizing here cs with
  | _ length ih =>
    subst hlength
    cases cs with
    | nil =>
        obtain rfl := Except.ok.inj (List.mem_singleton.mp h)
        exact absurd rfl hkind
    | cons c cs =>
        have hshorter : ∀ {front rest : List Char}, cs = front ++ rest →
            rest.length < (c :: cs).length := by
          intro front rest heq
          rw [heq, List.length_cons, List.length_append]
          omega
        rw [scanFrom] at h
        split at h
        · rename_i hignored
          obtain ⟨there, d, tail, rest, hreach, hrest⟩ :=
            ih cs.length (hshorter (List.nil_append cs).symm) h rfl
          exact ⟨there, d, tail, rest, .ignored hignored hreach, hrest⟩
        · split at h
          · rename_i hhash
            subst hhash
            obtain ⟨behind, hcs, htext, hend⟩ := comment_spec cs
            generalize Lexeme.comment cs = text at h hcs htext
            subst hcs
            rw [scanFrom_append] at h
            obtain ⟨there, d, tail, rest, hreach, hrest⟩ := ih behind.length (hshorter rfl) h rfl
            exact ⟨there, d, tail, rest, .comment htext hend hreach, hrest⟩
          · split at h
            · rename_i kind tail hread
              obtain ⟨behind, rfl⟩ := (Lexeme.read_stable hread).1
              rw [scanFrom_append] at h
              rcases List.mem_cons.mp h with heq | h
              · obtain rfl := Except.ok.inj heq
                exact ⟨here, c, tail, behind, .here _ _, hread, rfl, rfl⟩
              · obtain ⟨there, d, inner, rest, hreach, hrest⟩ :=
                  ih behind.length (hshorter rfl) h rfl
                exact ⟨there, d, inner, rest, .lexeme hread hreach, hrest⟩
            · simp at h

/-! ### The quoted strings of a source -/

/-- The scan of the source comes upon an opening quote, which is not the first of three, with
`behind` behind it. -/
def OpensQuoted (source : String) (there : Location) (behind : List Char) : Prop :=
  Reaches {} source.toList there ('"' :: behind) ∧ ¬['"', '"'] <+: behind

/-- The line ends before a closing quote, with or without a backslash in front of its end. -/
def BrokenOff (behind : List Char) : Prop :=
  ∃ (units : List (List Char)) (mark : List Char) (stop : Char) (rest : List Char),
    (∀ unit ∈ units, QuotedUnit unit) ∧ (mark = [] ∨ mark = ['\\']) ∧
      isTerminator stop = true ∧ behind = units.flatten ++ (mark ++ stop :: rest)

/-- The quoted strings of a source each stand on one line. -/
structure OnOneLine (source : String) : Prop where
  /-- No quoted string that is read, also in front of a fault, has the end of a line in it. -/
  whole : ∀ token, .ok token ∈ scan source → token.kind = .stringLiteral →
    ¬['"', '"', '"'] <+: token.text.toList → ∀ c ∈ token.text.toList, isTerminator c = false
  /-- A quoted string that its line breaks off is what is wrong with the source. -/
  broken : ∀ there behind, OpensQuoted source there behind → BrokenOff behind →
    tokenize source = .error ⟨.unterminatedString, there.position⟩

section Source

variable {source : String} {there : Location} {behind : List Char}
  (h : OpensQuoted source there behind)

include h

/-- A quoted string that is closed is a token. -/
theorem OpensQuoted.mem_scan {text : List Char} (htext : Lexeme.quoted behind = some text) :
    .ok ⟨.stringLiteral, String.ofList ('"' :: text), there.position⟩ ∈ scan source := by
  obtain ⟨tokens, htokens⟩ := h.1.scanFrom_eq
  have hread := Lexeme.read_quoted h.2
  rw [htext] at hread
  obtain ⟨rest, rfl⟩ := (Lexeme.read_stable hread).1
  rw [scan, htokens, scanFrom_lexeme hread]
  simp

/-- A quoted string that is not closed is the fault that the source has. -/
theorem OpensQuoted.tokenize_eq (hnone : Lexeme.quoted behind = none) :
    tokenize source = .error ⟨.unterminatedString, there.position⟩ := by
  obtain ⟨tokens, htokens⟩ := h.1.scanFrom_eq
  have hread := Lexeme.read_quoted h.2
  rw [hnone] at hread
  have hfault : scanFrom 0 there ('"' :: behind) =
      [.error ⟨.unterminatedString, there.position⟩] := by
    simp [scanFrom, hread, isIgnored, LexFault.skipped]
  rw [tokenize, scan, htokens, hfault]
  clear htokens
  induction tokens with
  | nil => rfl
  | cons token tokens ih =>
      rw [List.map_cons, List.cons_append, collect, ih]
      rfl

end Source

/-- A quoted string that is a token was read at its opening quote, unit by unit. -/
theorem exists_opensQuoted {source : String} {token : Token} (htoken : .ok token ∈ scan source)
    (hkind : token.kind = .stringLiteral) (hthree : ¬['"', '"', '"'] <+: token.text.toList) :
    ∃ (there : Location) (units : List (List Char)) (rest : List Char),
      OpensQuoted source there (units.flatten ++ '"' :: rest) ∧
      (∀ unit ∈ units, TakenUnit unit) ∧
      token.text.toList = '"' :: (units.flatten ++ ['"']) := by
  obtain ⟨there, c, tail, rest, hreach, hread, htext, -⟩ :=
    exists_reaches_of_mem htoken (by simp [hkind])
  rw [hkind] at hread
  obtain rfl := Lexeme.eq_quote_of_read hread
  rw [htext, String.toList_ofList] at hthree ⊢
  -- Were the quote the first of three, a block string would have been read.
  have hquoted : ¬['"', '"'] <+: tail ++ rest := by
    rintro ⟨more, hmore⟩
    rw [← hmore, Lexeme.read_quote] at hread
    obtain ⟨text, hstring, hpair⟩ := Outcomes.map_eq_ok.mp hread
    obtain rfl := (Prod.mk.inj hpair).2
    simp only [Lexeme.string, List.cons_append] at hstring
    split at hstring
    · rw [← Except.ok.inj hstring] at hthree
      exact hthree ⟨_, rfl⟩
    · simp at hstring
  have hfound := Lexeme.read_quoted hquoted
  rw [hread] at hfound
  split at hfound
  · rename_i text hsome
    obtain rfl := (Prod.mk.inj (Except.ok.inj hfound)).2
    obtain ⟨units, behind, hunits, rfl, hsplit⟩ := Lexeme.exists_units_of_quoted hsome
    rw [hsplit] at hreach hquoted
    exact ⟨there, units, behind, ⟨hreach, hquoted⟩, hunits, rfl⟩
  · simp at hfound

/-- A quoted string whose line breaks it off is not closed, unless a backslash takes the end of
the line along. -/
theorem BrokenOff.quoted_eq_none {behind : List Char} (h : BrokenOff behind)
    (hnone : ∀ (units : List (List Char)) (rest : List Char),
      behind = units.flatten ++ '"' :: rest → (∀ unit ∈ units, TakenUnit unit) →
        ∀ unit ∈ units, ¬EscapedBreak unit) :
    Lexeme.quoted behind = none := by
  obtain ⟨units, mark, stop, rest, hunits, hmark, hstop, rfl⟩ := h
  have htaken : ∀ unit ∈ units, TakenUnit unit := fun unit hunit => .inl (hunits unit hunit)
  rw [Lexeme.quoted_append htaken, Option.map_eq_none_iff]
  rcases hmark with rfl | rfl
  · exact Lexeme.quoted_stop hstop rest
  · rw [List.singleton_append, Lexeme.quoted_escape, Option.map_eq_none_iff]
    by_contra hclosed
    obtain ⟨text, htext⟩ := Option.ne_none_iff_exists'.mp hclosed
    obtain ⟨more, last, hmore, -, rfl⟩ := Lexeme.exists_units_of_quoted htext
    refine hnone (units ++ ['\\', stop] :: more) last (by simp) ?_ ['\\', stop] (by simp)
      ⟨stop, hstop, rfl⟩
    rw [List.forall_mem_append, List.forall_mem_cons]
    exact ⟨htaken, Lexeme.takenUnit_escape stop, hmore⟩

/--
**A quoted string stands on one line, unless it takes the end of a line along.**  Of a source it
is true that no quoted string that is read has the end of a line in it, and that one that its line
breaks off is reported as unterminated at its opening quote, exactly if between the quotes of none
there is a backslash with the end of its line as what it escapes.
-/
theorem onOneLine_iff (source : String) :
    OnOneLine source ↔
      ∀ (there : Location) (units : List (List Char)) (rest : List Char),
        OpensQuoted source there (units.flatten ++ '"' :: rest) →
          (∀ unit ∈ units, TakenUnit unit) → ∀ unit ∈ units, ¬EscapedBreak unit := by
  constructor
  · rintro hlines there units rest hopens hunits unit hunit ⟨stop, hstop, rfl⟩
    have hquoted : Lexeme.quoted (units.flatten ++ '"' :: rest) =
        some (units.flatten ++ ['"']) := by
      rw [Lexeme.quoted_append hunits]
      rfl
    have hthree : ¬['"', '"', '"'] <+: '"' :: (units.flatten ++ ['"']) := by
      intro hthree
      exact hopens.2 ((List.cons_prefix_cons.mp hthree).2.trans ⟨rest, by simp⟩)
    have hmem : stop ∈ '"' :: (units.flatten ++ ['"']) := by
      have hflat : stop ∈ units.flatten := List.mem_flatten.mpr ⟨_, hunit, by simp⟩
      simp [hflat]
    have hplain := hlines.whole _ (hopens.mem_scan hquoted) rfl
    simp only [String.toList_ofList] at hplain
    exact absurd (hplain hthree stop hmem) (by simp [hstop])
  · intro hnone
    refine ⟨fun token htoken hkind hthree => ?_, fun there behind hopens hbroken => ?_⟩
    · obtain ⟨there, units, rest, hopens, hunits, htext⟩ :=
        exists_opensQuoted htoken hkind hthree
      have hline : ∀ c ∈ units.flatten, isTerminator c = false := by
        intro c hc
        obtain ⟨unit, hunit, hc⟩ := List.mem_flatten.mp hc
        exact ((hunits unit hunit).resolve_right
          (hnone there units rest hopens hunits unit hunit)).plain_chars c hc
      rw [htext, List.forall_mem_cons, List.forall_mem_append, List.forall_mem_singleton]
      exact ⟨rfl, hline, rfl⟩
    · refine hopens.tokenize_eq (hbroken.quoted_eq_none ?_)
      rintro units rest rfl
      exact hnone there units rest hopens

/-- A string with a backslash at the end of its first line. -/
def continuedString : String := "\"a\\\nb\""

/-- **A quoted string can go on in the next line**, behind a backslash. -/
theorem not_onOneLine_continued :
    ¬OnOneLine continuedString ∧
      (tokenize continuedString).map (List.map fun token => (token.kind, token.text)) =
        .ok [(.stringLiteral, "\"a\\\nb\""), (.endOfInput, "")] := by
  have hread : scan continuedString =
      [.ok ⟨.stringLiteral, "\"a\\\nb\"", {}⟩, .ok ⟨.endOfInput, "", ⟨1, 2, 2, 6⟩⟩] := by
    decide +kernel
  refine ⟨fun hlines => ?_, by rw [tokenize, hread]; rfl⟩
  have hplain := hlines.whole ⟨.stringLiteral, "\"a\\\nb\"", {}⟩ (by simp [hread]) rfl
    (by decide) '\n' (by decide)
  exact absurd hplain (by decide)

end Token

end QueryBatching
