/-
Lexemes that are written down are read back.

What the lexemes are is said here without the readers: signs, names, numbers by their parts, and
strings by the units they are made of.  Written one after another, with something that means
nothing between each and the next, they are read as they were written.  A reader stops where its
lexeme does because what follows is a break, and of each lexeme that is all that has to be known.
-/
import QueryBatching.Proofs.Token.Reading

namespace QueryBatching

open Token (Kind)

namespace Lexeme

/-! ### Lexemes -/

/-- The punctuators, with their kinds. -/
def punctuators : List (List Char × Kind) :=
  [(['!'], .bang), (['$'], .dollar), (['('], .parenOpen), ([')'], .parenClose),
    ([','], .comma), ([':'], .colon), (['='], .equals), (['@'], .atSign),
    (['['], .bracketOpen), ([']'], .bracketClose), (['{'], .braceOpen), (['}'], .braceClose),
    (['.', '.', '.'], .ellipsis)]

/-- What may stand once between the quotes of a string: a character, or a backslash and the
character that it escapes. -/
inductive QuotedUnit : List Char → Prop
  | plain {c : Char} (hquote : c ≠ '"') (hback : c ≠ '\\') (hline : isTerminator c = false) :
    QuotedUnit [c]
  | escaped {c : Char} (hline : isTerminator c = false) : QuotedUnit ['\\', c]

/-- What follows the opening quotes of a block string: escaped quotes, and characters at which
neither these nor the closing quotes start, up to and with the closing quotes. -/
inductive BlockBody : List Char → Prop
  | closed : BlockBody ['"', '"', '"']
  | escaped {cs : List Char} (h : BlockBody cs) : BlockBody ('\\' :: '"' :: '"' :: '"' :: cs)
  | plain {c : Char} {cs : List Char} (hescape : ¬['\\', '"', '"', '"'] <+: c :: cs)
      (hclose : ¬['"', '"', '"'] <+: c :: cs) (h : BlockBody cs) : BlockBody (c :: cs)

/-- The lexemes, each with its kind. -/
inductive Spelled : Kind → List Char → Prop
  | punctuator {text : List Char} {kind : Kind} (h : (text, kind) ∈ punctuators) :
    Spelled kind text
  | name {c : Char} {tail : List Char} (hc : isNameStart c = true)
      (htail : ∀ d ∈ tail, isNamePart d = true) :
    Spelled (Kind.ofWord (String.ofList (c :: tail))) (c :: tail)
  | number {sign whole part power : List Char} (h : Numeral sign whole part power) :
    Spelled (numeralKind part power) (sign ++ whole ++ part ++ power)
  | quoted {units : List (List Char)} (h : ∀ text ∈ units, QuotedUnit text) :
    Spelled .stringLiteral ('"' :: (units.flatten ++ ['"']))
  | block {body : List Char} (h : BlockBody body) :
    Spelled .stringLiteral ('"' :: '"' :: '"' :: body)

/-! ### Strings -/

theorem quoted_units {units : List (List Char)} (h : ∀ text ∈ units, QuotedUnit text) :
    Lexeme.quoted (units.flatten ++ ['"']) = some (units.flatten ++ ['"']) := by
  induction units with
  | nil => rfl
  | cons first rest ih =>
      rw [List.forall_mem_cons] at h
      have hrest := ih h.2
      rw [List.flatten_cons, List.append_assoc]
      cases h.1 with
      | plain hquote hback hline =>
          rw [List.singleton_append, quoted_plain hquote hback, hline, hrest]
          rfl
      | @escaped c hline =>
          have hback : Lexeme.quoted ('\\' :: c :: (rest.flatten ++ ['"'])) =
              (Lexeme.quoted (rest.flatten ++ ['"'])).map fun text => '\\' :: c :: text := rfl
          rw [List.cons_append, List.singleton_append, hback, hrest]
          rfl

/-- A quoted string is not taken for a block string. -/
theorem string_units {units : List (List Char)} (h : ∀ text ∈ units, QuotedUnit text) :
    Lexeme.string (units.flatten ++ ['"']) = .ok (units.flatten ++ ['"']) := by
  rw [string_plain, quoted_units h]
  intro rest heq
  cases units with
  | nil => simp at heq
  | cons first others =>
      rw [List.flatten_cons, List.append_assoc] at heq
      cases (List.forall_mem_cons.mp h).1 with
      | plain hquote hback hline => exact hquote (List.cons.inj heq).1
      | escaped hline => simp at heq

theorem block_body {body : List Char} (h : BlockBody body) :
    Lexeme.block body = some body := by
  induction h with
  | closed => rfl
  | @escaped cs h ih =>
      have hescaped : Lexeme.block ('\\' :: '"' :: '"' :: '"' :: cs) =
          (Lexeme.block cs).map fun text => '\\' :: '"' :: '"' :: '"' :: text := rfl
      rw [hescaped, ih]
      rfl
  | @plain c cs hescape hclose h ih =>
      rw [block_plain, ih]
      · rfl
      · rintro rest rfl rfl
        exact hescape ⟨rest, rfl⟩
      · rintro rest rfl rfl
        exact hclose ⟨rest, rfl⟩

theorem string_body {body : List Char} (h : BlockBody body) :
    Lexeme.string ('"' :: '"' :: body) = .ok ('"' :: '"' :: body) := by
  rw [Lexeme.string, block_body h]

/-! ### Numbers -/

/-- A digit starts neither a sign nor a name. -/
theorem starts_of_isDigit {c : Char} (h : isDigit c = true) :
    Kind.ofSign? c = none ∧ isNameStart c = false := by
  constructor
  · unfold Kind.ofSign?
    split
    all_goals first | rfl | exact absurd h (by decide)
  · simp only [isDigit, Bool.and_eq_true, decide_eq_true_eq] at h
    rw [Bool.eq_false_iff]
    intro hstart
    simp only [isNameStart, Bool.or_eq_true, Bool.and_eq_true, decide_eq_true_eq] at hstart
    rcases hstart with (rfl | ⟨hlow, -⟩) | ⟨hlow, -⟩
    · exact absurd h.2 (by decide)
    · exact absurd (Char.le_trans hlow h.2) (by decide)
    · exact absurd (Char.le_trans hlow h.2) (by decide)

/-- Where a number starts nothing else is read. -/
theorem read_number {c : Char} {tail : List Char} {kind : Kind} (hc : c = '-' ∨ isDigit c = true)
    (h : Lexeme.number (c :: tail) = .ok (kind, c :: tail)) :
    Lexeme.read c tail = .ok (kind, tail) := by
  have hsign : Kind.ofSign? c = none := by
    rcases hc with rfl | hdigit
    · rfl
    · exact (starts_of_isDigit hdigit).1
  have hname : ¬isNameStart c = true := by
    rcases hc with rfl | hdigit
    · decide
    · simp [(starts_of_isDigit hdigit).2]
  have hdot : c ≠ '.' := by
    rintro rfl
    exact absurd hc (by decide)
  have hquote : c ≠ '"' := by
    rintro rfl
    exact absurd hc (by decide)
  simp only [Lexeme.read, hsign, if_neg hdot, if_neg hquote, if_neg hname, if_pos hc, h]
  rfl

/-- The first character of a number, and that it is read from there. -/
theorem exists_read_numeral {sign whole part power : List Char}
    (h : Numeral sign whole part power) :
    ∃ c tail, sign ++ whole ++ part ++ power = c :: tail ∧
      Lexeme.read c tail = .ok (numeralKind part power, tail) := by
  have hnumber := number_of_numeral h Breaks.nil
  rw [List.append_nil] at hnumber
  obtain ⟨d, ds, hwhole⟩ := List.exists_cons_of_ne_nil h.nonempty
  rcases h.sign with rfl | rfl
  · rw [List.nil_append, hwhole, List.cons_append, List.cons_append] at hnumber ⊢
    exact ⟨_, _, rfl, read_number (.inr (h.digits d (hwhole ▸ List.mem_cons_self))) hnumber⟩
  · exact ⟨_, _, rfl, read_number (.inl rfl) hnumber⟩

/-! ### All lexemes -/

/-- **What is spelled as a lexeme is read as one.** -/
theorem Spelled.isLexeme {kind : Kind} {text : List Char} (h : Spelled kind text) :
    Token.IsLexeme kind (String.ofList text) := by
  unfold Token.IsLexeme
  rw [String.toList_ofList]
  cases h with
  | punctuator h =>
      simp only [punctuators, List.mem_cons, Prod.mk.injEq, List.not_mem_nil, or_false] at h
      rcases h with ⟨rfl, rfl⟩ | ⟨rfl, rfl⟩ | ⟨rfl, rfl⟩ | ⟨rfl, rfl⟩ | ⟨rfl, rfl⟩ | ⟨rfl, rfl⟩ |
        ⟨rfl, rfl⟩ | ⟨rfl, rfl⟩ | ⟨rfl, rfl⟩ | ⟨rfl, rfl⟩ | ⟨rfl, rfl⟩ | ⟨rfl, rfl⟩ | ⟨rfl, rfl⟩
      all_goals exact ⟨_, _, rfl, rfl⟩
  | name hc htail => exact ⟨_, _, rfl, read_word hc htail⟩
  | number h => exact exists_read_numeral h
  | @quoted units h =>
      refine ⟨_, _, rfl, ?_⟩
      have hread : Lexeme.read '"' (units.flatten ++ ['"']) =
          (Lexeme.string (units.flatten ++ ['"'])).map fun tail => (.stringLiteral, tail) := rfl
      rw [hread, string_units h]
      rfl
  | @block body h =>
      refine ⟨_, _, rfl, ?_⟩
      have hread : Lexeme.read '"' ('"' :: '"' :: body) =
          (Lexeme.string ('"' :: '"' :: body)).map fun tail => (.stringLiteral, tail) := rfl
      rw [hread, string_body h]
      rfl

end Lexeme

open Lexeme (Breaks Spelled isBreak isIgnored isTerminator)

namespace Token

/-! ### What stands between them -/

/-- Characters that mean nothing wherever they stand: ignored ones, and comments that end with
their lines. -/
inductive Skipped : List Char → Prop
  | nil : Skipped []
  | ignored {c : Char} {cs : List Char} (hc : isIgnored c = true) (h : Skipped cs) :
    Skipped (c :: cs)
  | comment {text : List Char} {stop : Char} {cs : List Char}
      (htext : ∀ c ∈ text, isTerminator c = false) (hstop : isTerminator stop = true)
      (h : Skipped cs) : Skipped ('#' :: (text ++ stop :: cs))

/-- A lexeme that is written down, and what is written behind it. -/
structure Written where
  kind : Kind
  text : List Char
  gap : List Char
deriving DecidableEq, Repr

/-- The characters of the lexeme and of what is behind it. -/
def Written.chars (written : Written) : List Char := written.text ++ written.gap

/-- Ignored characters and comments end any lexeme in front of them. -/
theorem Skipped.breaks {gap : List Char} (h : Skipped gap) (hne : gap ≠ []) (more : List Char) :
    Breaks (gap ++ more) := by
  cases h with
  | nil => exact absurd rfl hne
  | ignored hc h =>
      refine .cons ?_
      simp only [isIgnored, Bool.or_eq_true, decide_eq_true_eq] at hc
      rcases hc with (((rfl | rfl) | rfl) | rfl) | rfl <;> decide
  | comment htext hstop h => exact .cons (by decide)

/-! ### Reading -/

/-- The lists of tokens with these kinds and texts. -/
def spelledAs (pairs : List (Kind × String)) : Language Token :=
  {tokens | tokens.map (fun token => (token.kind, token.text)) = pairs}

theorem word_mul_spelledAs_le (kind : Kind) (text : String) (pairs : List (Kind × String)) :
    Spelling.word kind text * spelledAs pairs ≤ spelledAs ((kind, text) :: pairs) := by
  intro tokens htokens
  obtain ⟨_, ⟨token, rfl, rfl, rfl⟩, rest, hrest, rfl⟩ := Language.mem_mul.mp htokens
  exact congrArg ((token.kind, token.text) :: ·) hrest

variable {cs gap : List Char} {L : Language Token}

theorem Scans.behind_skipped (hgap : Skipped gap) (h : Scans cs L) : Scans (gap ++ cs) L := by
  induction hgap with
  | nil => exact h
  | ignored hc _ ih => exact ih.behind_ignored hc
  | @comment text stop rest htext hstop _ ih =>
      intro here
      have hend : ∀ c ∈ (stop :: (rest ++ cs)).head?, isTerminator c = true := by
        intro c hc
        exact Option.some.inj hc ▸ hstop
      rw [List.cons_append, List.append_assoc, List.cons_append, scanFrom_comment htext hend]
      exact (ih.behind_ignored (isIgnored_of_isTerminator hstop)) _

theorem Scans.behind_spelled {kind : Kind} {text : List Char} {pairs : List (Kind × String)}
    (hspelled : Spelled kind text) (hbreaks : Breaks cs) (h : Scans cs (spelledAs pairs)) :
    Scans (text ++ cs) (spelledAs ((kind, String.ofList text) :: pairs)) := by
  have hscans := writes_lexeme hspelled.isLexeme hbreaks h
  rw [String.toList_ofList] at hscans
  exact hscans.mono (word_mul_spelledAs_le _ _ _)

/-- Lexemes that are written apart are scanned as they are. -/
theorem scans_written {lexemes : List Written}
    (hspelled : ∀ written ∈ lexemes, Spelled written.kind written.text)
    (hgaps : ∀ written ∈ lexemes, Skipped written.gap)
    (hapart : ∀ written ∈ lexemes.dropLast, written.gap ≠ []) :
    Scans (lexemes.flatMap Written.chars)
      (spelledAs (lexemes.map (fun written => (written.kind, String.ofList written.text)) ++
        [(.endOfInput, "")])) := by
  induction lexemes with
  | nil => exact fun here => ⟨_, rfl, rfl⟩
  | cons first rest ih =>
      rw [List.forall_mem_cons] at hspelled hgaps
      rw [List.flatMap_cons, Written.chars, List.append_assoc, List.map_cons, List.cons_append]
      have hbreaks : Breaks (first.gap ++ rest.flatMap Written.chars) := by
        cases rest with
        | nil =>
            -- Behind the last lexeme there may be nothing, which is a break as well.
            rw [List.flatMap_nil]
            by_cases hgap : first.gap = []
            · rw [hgap]
              exact .nil
            · exact hgaps.1.breaks hgap []
        | cons next others =>
            exact hgaps.1.breaks (hapart first List.mem_cons_self) _
      refine .behind_spelled hspelled.1 hbreaks (.behind_skipped hgaps.1 (ih hspelled.2 hgaps.2 ?_))
      intro written hmem
      cases rest with
      | nil => exact absurd hmem List.not_mem_nil
      | cons next others => exact hapart written (List.mem_cons_of_mem _ hmem)

/--
**Reading undoes writing.**  Lexemes that are written one after another, with characters that mean
nothing between each and the next and any of them at both ends, are read as just these lexemes, in
their order and with their kinds and texts, and as the end of the input behind them.
-/
theorem tokenize_written {front : List Char} {lexemes : List Written} (hfront : Skipped front)
    (hspelled : ∀ written ∈ lexemes, Spelled written.kind written.text)
    (hgaps : ∀ written ∈ lexemes, Skipped written.gap)
    (hapart : ∀ written ∈ lexemes.dropLast, written.gap ≠ []) :
    (tokenize (String.ofList (front ++ lexemes.flatMap Written.chars))).map
        (List.map fun token => (token.kind, token.text)) =
      .ok (lexemes.map (fun written => (written.kind, String.ofList written.text)) ++
        [(.endOfInput, "")]) := by
  obtain ⟨tokens, hspells, htokens⟩ :=
    Scans.behind_skipped hfront (scans_written hspelled hgaps hapart) {}
  rw [tokenize, scan, String.toList_ofList, htokens]
  exact congrArg Except.ok hspells

/-- A constant, a number, an empty string in front of a comment with a quote in it, and a block
string with escaped quotes and a quote of its own. -/
def writtenStrings : List Written :=
  [⟨.trueLiteral, ['t', 'r', 'u', 'e'], ['\t']⟩,
    ⟨.floatLiteral, ['-'] ++ ['0'] ++ ['.', '5'] ++ ['E', '+', '1'], ['#', '"', '\r', '\n']⟩,
    ⟨.stringLiteral, '"' :: ([].flatten ++ ['"']), ['#', '"', '\n']⟩,
    ⟨.stringLiteral, '"' :: ([['\\', '"'], ['é']].flatten ++ ['"']), [' ']⟩,
    ⟨.stringLiteral, ['"', '"', '"', '\n', '\\', '"', '"', '"', '"', 'x', '"', '"', '"'], ['\r']⟩,
    ⟨.ellipsis, ['.', '.', '.'], []⟩]

theorem spelled_writtenStrings :
    ∀ written ∈ writtenStrings, Spelled written.kind written.text ∧ Skipped written.gap := by
  have hskip : ∀ c, isIgnored c = true → Skipped [c] := fun c hc => .ignored hc .nil
  rw [writtenStrings]
  simp only [List.forall_mem_cons]
  refine ⟨⟨?_, hskip _ rfl⟩, ⟨?_, ?_⟩, ⟨.quoted (by simp), ?_⟩, ⟨.quoted ?_, hskip _ rfl⟩,
    ⟨.block ?_, hskip _ rfl⟩, ⟨.punctuator (by decide), .nil⟩, fun _ hmem => absurd hmem (by simp)⟩
  · exact @Spelled.name 't' ['r', 'u', 'e'] rfl (List.all_eq_true.mp rfl)
  · exact .number ⟨.inr rfl, by simp, List.all_eq_true.mp rfl, fun _ => rfl,
      .inr ⟨['5'], rfl, by simp, List.all_eq_true.mp rfl⟩,
      .inr ⟨'E', ['+'], ['1'], rfl, .inr rfl, .inr (.inl rfl), by simp, List.all_eq_true.mp rfl⟩⟩
  · exact @Skipped.comment ['"'] '\r' _ (List.forall_mem_singleton.mpr rfl) rfl (hskip _ rfl)
  · exact @Skipped.comment ['"'] '\n' _ (List.forall_mem_singleton.mpr rfl) rfl .nil
  · simp only [List.forall_mem_cons]
    exact ⟨.escaped rfl, .plain (by decide) (by decide) rfl, fun _ hmem => absurd hmem (by simp)⟩
  · exact .plain (by decide) (by decide) (.escaped (.plain (by decide) (by decide)
      (.plain (by decide) (by decide) .closed)))

theorem tokenize_written_strings :
    (∀ written ∈ writtenStrings, Spelled written.kind written.text ∧ Skipped written.gap) ∧
      (tokenize (String.ofList (['\uFEFF'] ++ writtenStrings.flatMap Written.chars))).map
          (List.map fun token => (token.kind, token.text)) =
        .ok [(.trueLiteral, "true"), (.floatLiteral, "-0.5E+1"), (.stringLiteral, "\"\""),
          (.stringLiteral, "\"\\\"é\""), (.stringLiteral, "\"\"\"\n\\\"\"\"\"x\"\"\""),
          (.ellipsis, "..."), (.endOfInput, "")] :=
  ⟨spelled_writtenStrings, tokenize_written (.ignored rfl .nil)
    (fun written hmem => (spelled_writtenStrings written hmem).1)
    (fun written hmem => (spelled_writtenStrings written hmem).2) (by decide)⟩

end Token

end QueryBatching
