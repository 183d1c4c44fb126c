/-
A lexeme is read the same wherever it stands.

`Lexeme.read` looks at everything ahead, so what it answers could depend on what comes
after the lexeme.  It does so only through the next character, and only for names, numbers
and strings: a name goes on with whatever may be part of a name, a number is spoiled by a
letter or a dot, and the empty string becomes a block string before a third quote.  In
front of any other character, a break, a lexeme is read as if nothing followed.

`read_stable` says this for all lexemes at once: what `read` takes stands at the front of
the text, and is taken again in front of any break.  Everything that writes tokens one
after another rests on it.
-/
import QueryBatching.Proofs.Outcomes
import QueryBatching.Token.Lexeme

namespace QueryBatching.Lexeme

open QueryBatching.Token (Kind)

/-- Whether a character cannot become part of a lexeme right before it, nor spoil it. -/
def isBreak (c : Char) : Bool := !(isNamePart c || c = '.' || c = '"')

/-- A text with nothing at its front that a lexeme before it could take along. -/
def Breaks (cs : List Char) : Prop := ∀ c ∈ cs.head?, isBreak c = true

theorem Breaks.nil : Breaks [] := by
  intro c hc
  simp at hc

theorem Breaks.cons {c : Char} {cs : List Char} (h : isBreak c = true) : Breaks (c :: cs) := by
  intro d hd
  simp only [List.head?_cons, Option.mem_def, Option.some.injEq] at hd
  exact hd ▸ h

instance : ∀ cs : List Char, Decidable (Breaks cs)
  | [] => isTrue Breaks.nil
  | c :: _ => decidable_of_iff (isBreak c = true) ⟨Breaks.cons, fun h => h c rfl⟩

theorem not_namePart_of_break {c : Char} (h : isBreak c = true) : isNamePart c = false := by
  simp only [isBreak, Bool.not_eq_true', Bool.or_eq_false_iff] at h
  exact h.1.1

theorem not_nameStart_of_break {c : Char} (h : isBreak c = true) : isNameStart c = false := by
  have hpart := not_namePart_of_break h
  simp only [isNamePart, Bool.or_eq_false_iff] at hpart
  exact hpart.1

theorem not_digit_of_break {c : Char} (h : isBreak c = true) : isDigit c = false := by
  have hpart := not_namePart_of_break h
  simp only [isNamePart, Bool.or_eq_false_iff] at hpart
  exact hpart.2

theorem ne_dot_of_break {c : Char} (h : isBreak c = true) : c ≠ '.' := by
  rintro rfl
  exact absurd h (by decide)

theorem ne_quote_of_break {c : Char} (h : isBreak c = true) : c ≠ '"' := by
  rintro rfl
  exact absurd h (by decide)

theorem ne_exponent_of_break {c : Char} (h : isBreak c = true) : c ≠ 'e' ∧ c ≠ 'E' := by
  constructor
  · rintro rfl
    exact absurd h (by decide)
  · rintro rfl
    exact absurd h (by decide)

/-- A stretch of characters ends at the same place whatever comes after its end. -/
theorem takeWhile_append_stop {p : Char → Bool} {xs more : List Char}
    (h : ∀ c ∈ more.head?, p c = false) : (xs ++ more).takeWhile p = xs.takeWhile p := by
  induction xs with
  | nil =>
      cases more with
      | nil => rfl
      | cons c cs => simp [h c (by simp)]
  | cons x xs ih =>
      by_cases hx : p x = true
      · simp [hx, ih]
      · simp [hx]

theorem takeWhile_eq_self {p : Char → Bool} {xs : List Char} (h : ∀ c ∈ xs, p c = true) :
    xs.takeWhile p = xs := by
  have hall : (xs ++ []).takeWhile p = xs ++ [].takeWhile p := List.takeWhile_append_of_pos h
  simpa using hall

theorem of_mem_takeWhile {p : Char → Bool} {xs : List Char} {c : Char}
    (h : c ∈ xs.takeWhile p) : p c = true := by
  have hall := List.all_takeWhile (p := p) (l := xs)
  rw [List.all_eq_true] at hall
  exact hall c h

/-- A stretch that was taken once is taken again, in front of anything that ends it. -/
theorem takeWhile_stable {p : Char → Bool} (cs : List Char) {more : List Char}
    (h : ∀ c ∈ more.head?, p c = false) :
    (cs.takeWhile p ++ more).takeWhile p = cs.takeWhile p := by
  rw [takeWhile_append_stop h]
  exact takeWhile_eq_self fun c hc => of_mem_takeWhile hc

theorem digits_append {xs more : List Char} (h : ∀ c ∈ more.head?, isDigit c = false) :
    digits (xs ++ more) = digits xs := takeWhile_append_stop h

theorem digits_eq_self {xs : List Char} (h : ∀ c ∈ xs, isDigit c = true) : digits xs = xs :=
  takeWhile_eq_self h

theorem isDigit_of_mem_digits {xs : List Char} {c : Char} (h : c ∈ digits xs) :
    isDigit c = true := of_mem_takeWhile h

/-! ### Numbers -/

/-- A fraction is missing, or a dot and digits. -/
def IsFraction (part : List Char) : Prop :=
  part = [] ∨ ∃ ds, part = '.' :: ds ∧ ds ≠ [] ∧ ∀ c ∈ ds, isDigit c = true

/-- An exponent is missing, or its mark, a sign that may be missing, and digits. -/
def IsExponent (power : List Char) : Prop :=
  power = [] ∨ ∃ mark plus ds, power = mark :: (plus ++ ds) ∧
    (mark = 'e' ∨ mark = 'E') ∧ (plus = [] ∨ plus = ['+'] ∨ plus = ['-']) ∧
    ds ≠ [] ∧ ∀ c ∈ ds, isDigit c = true

/-- The parts of a number: a sign, a whole number, a fraction and an exponent. -/
structure Numeral (sign whole part power : List Char) : Prop where
  /-- The sign is a minus or missing. -/
  sign : sign = [] ∨ sign = ['-']
  /-- The whole number has a digit. -/
  nonempty : whole ≠ []
  /-- The whole number has nothing but digits. -/
  digits : ∀ c ∈ whole, isDigit c = true
  /-- The whole number starts with zero only if it is zero. -/
  zero : whole.head? = some '0' → whole = ['0']
  part : IsFraction part
  power : IsExponent power

/-- The kind of a number: an integer if it has neither fraction nor exponent. -/
def numeralKind (part power : List Char) : Kind :=
  if part.isEmpty && power.isEmpty then .intLiteral else .floatLiteral

theorem ne_minus_of_digit {c : Char} (h : isDigit c = true) : c ≠ '-' := by
  rintro rfl
  exact absurd h (by decide)

theorem ne_plus_of_digit {c : Char} (h : isDigit c = true) : c ≠ '+' := by
  rintro rfl
  exact absurd h (by decide)

theorem minus_append {sign rest : List Char} (hs : sign = [] ∨ sign = ['-'])
    (hr : ∀ c ∈ rest.head?, c ≠ '-') : minus (sign ++ rest) = sign := by
  rcases hs with rfl | rfl
  · cases rest with
    | nil => rfl
    | cons c cs =>
        have hc : c ≠ '-' := hr c (by simp)
        simp only [List.nil_append]
        unfold minus
        split
        · rename_i heq
          simp only [List.cons.injEq] at heq
          exact absurd heq.1 hc
        · rfl
  · rfl

theorem exponentSign_append {plus rest : List Char}
    (hs : plus = [] ∨ plus = ['+'] ∨ plus = ['-'])
    (hr : ∀ c ∈ rest.head?, isDigit c = true) : exponentSign (plus ++ rest) = plus := by
  rcases hs with rfl | rfl | rfl
  · cases rest with
    | nil => rfl
    | cons c cs =>
        have hc := hr c (by simp)
        simp only [List.nil_append]
        unfold exponentSign
        split
        · rename_i heq
          simp only [List.cons.injEq] at heq
          exact absurd heq.1 (ne_plus_of_digit hc)
        · rename_i heq
          simp only [List.cons.injEq] at heq
          exact absurd heq.1 (ne_minus_of_digit hc)
        · rfl
  · rfl
  · rfl

theorem fraction_append {part rest : List Char}
    (hp : IsFraction part)
    (hdigit : ∀ c ∈ rest.head?, isDigit c = false) (hdot : ∀ c ∈ rest.head?, c ≠ '.') :
    fraction (part ++ rest) = part := by
  rcases hp with rfl | ⟨ds, rfl, hne, hds⟩
  · cases rest with
    | nil => rfl
    | cons c cs =>
        have hc : c ≠ '.' := hdot c (by simp)
        simp only [List.nil_append]
        unfold fraction
        split
        · rename_i heq
          simp only [List.cons.injEq] at heq
          exact absurd heq.1 hc
        · rfl
  · have hrun : digits (ds ++ rest) = ds := by rw [digits_append hdigit, digits_eq_self hds]
    show (if digits (ds ++ rest) = [] then [] else '.' :: digits (ds ++ rest)) = '.' :: ds
    rw [hrun, if_neg hne]

theorem exponent_append {power rest : List Char}
    (hp : IsExponent power) (hdigit : ∀ c ∈ rest.head?, isDigit c = false)
    (hmark : ∀ c ∈ rest.head?, c ≠ 'e' ∧ c ≠ 'E') :
    exponent (power ++ rest) = (power, true) := by
  rcases hp with rfl | ⟨mark, plus, ds, rfl, hm, hs, hne, hds⟩
  · cases rest with
    | nil => rfl
    | cons c cs =>
        have hc := hmark c (by simp)
        simp [exponent, hc.1, hc.2]
  · have hfirst : ∀ c ∈ (ds ++ rest).head?, isDigit c = true := by
      intro c hc
      cases ds with
      | nil => exact absurd rfl hne
      | cons d ds =>
          simp only [List.cons_append, List.head?_cons, Option.mem_def, Option.some.injEq] at hc
          exact hds c (by simp [hc])
    have hsign : exponentSign (plus ++ ds ++ rest) = plus := by
      rw [List.append_assoc]
      exact exponentSign_append hs hfirst
    have hrun : digits (ds ++ rest) = ds := by rw [digits_append hdigit, digits_eq_self hds]
    have hdrop : (plus ++ ds ++ rest).drop plus.length = ds ++ rest := by simp
    have hnonempty : ds.isEmpty = false := by
      cases ds with
      | nil => exact absurd rfl hne
      | cons d ds => rfl
    simp only [List.cons_append, exponent, if_pos hm, hsign, hdrop, hrun, hnonempty,
      Bool.not_false]

/-- Of the parts of a number, each starts with a character that ends the one before it. -/
private theorem Numeral.part_head {sign whole part power more : List Char}
    (h : Numeral sign whole part power) (hb : Breaks more) :
    ∀ c ∈ (part ++ power ++ more).head?, isDigit c = false ∧ (part = [] → c ≠ '.') := by
  intro c hc
  rcases h.part with rfl | ⟨ds, rfl, -, -⟩
  · rcases h.power with rfl | ⟨mark, plus, ds, rfl, hm, -, -, -⟩
    · have hbreak := hb c (by simpa using hc)
      exact ⟨not_digit_of_break hbreak, fun _ => ne_dot_of_break hbreak⟩
    · simp only [List.nil_append, List.cons_append, List.head?_cons, Option.mem_def,
        Option.some.injEq] at hc
      subst hc
      rcases hm with rfl | rfl <;> exact ⟨by decide, fun _ => by decide⟩
  · simp only [List.cons_append, List.head?_cons, Option.mem_def, Option.some.injEq] at hc
    subst hc
    exact ⟨by decide, fun hnil => absurd hnil (by simp)⟩

private theorem Numeral.power_head {sign whole part power more : List Char}
    (h : Numeral sign whole part power) (hb : Breaks more) :
    ∀ c ∈ (power ++ more).head?, isDigit c = false ∧ c ≠ '.' := by
  intro c hc
  rcases h.power with rfl | ⟨mark, plus, ds, rfl, hm, -, -, -⟩
  · have hbreak := hb c (by simpa using hc)
    exact ⟨not_digit_of_break hbreak, ne_dot_of_break hbreak⟩
  · simp only [List.cons_append, List.head?_cons, Option.mem_def, Option.some.injEq] at hc
    subst hc
    rcases hm with rfl | rfl <;> exact ⟨by decide, by decide⟩

/-- A number is read off its parts, in front of any break. -/
theorem number_of_numeral {sign whole part power more : List Char}
    (h : Numeral sign whole part power) (hb : Breaks more) :
    number (sign ++ whole ++ part ++ power ++ more) =
      .ok (numeralKind part power, sign ++ whole ++ part ++ power) := by
  obtain ⟨d, ds, hwhole⟩ := List.exists_cons_of_ne_nil h.nonempty
  have hd : isDigit d = true := h.digits d (by simp [hwhole])
  have hsign : minus (sign ++ whole ++ part ++ power ++ more) = sign := by
    rw [show sign ++ whole ++ part ++ power ++ more
      = sign ++ (whole ++ part ++ power ++ more) by simp]
    refine minus_append h.sign ?_
    intro c hc
    rw [hwhole] at hc
    simp only [List.cons_append, List.head?_cons, Option.mem_def, Option.some.injEq] at hc
    exact hc ▸ ne_minus_of_digit hd
  have hrun : digits ((sign ++ whole ++ part ++ power ++ more).drop sign.length) = whole := by
    rw [show (sign ++ whole ++ part ++ power ++ more).drop sign.length
      = whole ++ (part ++ power ++ more) by simp]
    rw [digits_append fun c hc => (h.part_head hb c hc).1, digits_eq_self h.digits]
  have hpart : fraction ((sign ++ whole ++ part ++ power ++ more).drop (sign ++ whole).length)
      = part := by
    rw [show (sign ++ whole ++ part ++ power ++ more).drop (sign ++ whole).length
      = part ++ (power ++ more) by
        rw [List.append_assoc, List.append_assoc, List.drop_left]]
    exact fraction_append h.part (fun c hc => (h.power_head hb c hc).1)
      fun c hc => (h.power_head hb c hc).2
  have hpower : exponent ((sign ++ whole ++ part ++ power ++ more).drop
      (sign ++ whole ++ part).length) = (power, true) := by
    rw [show (sign ++ whole ++ part ++ power ++ more).drop (sign ++ whole ++ part).length
      = power ++ more by rw [List.append_assoc (sign ++ whole ++ part), List.drop_left]]
    exact exponent_append h.power (fun c hc => not_digit_of_break (hb c hc))
      fun c hc => ne_exponent_of_break (hb c hc)
  have hnext : ((sign ++ whole ++ part ++ power ++ more).drop
      (sign ++ whole ++ part ++ power).length).head?.any spoilsNumber = false := by
    rw [List.drop_left]
    cases more with
    | nil => rfl
    | cons c cs =>
        have hbreak := hb c (by simp)
        have hdot := ne_dot_of_break hbreak
        simp [spoilsNumber, not_nameStart_of_break hbreak, hdot]
  unfold number
  simp only [hsign, hrun]
  split
  · exact absurd hwhole (by simp)
  · rename_i next rest _
    have hzero := h.zero rfl
    simp at hzero
  · simp only [hpart, hpower, hnext]
    simp [numeralKind]

/-- Two stretches taken one after the other are one stretch. -/
private theorem append_prefix_of_drop {a b cs : List Char} (ha : a <+: cs)
    (hb : b <+: cs.drop a.length) : a ++ b <+: cs := by
  obtain ⟨rest, rfl⟩ := ha
  rw [List.drop_left] at hb
  exact List.prefix_append_right_inj a |>.mpr hb

private theorem minus_spec (cs : List Char) :
    minus cs <+: cs ∧ (minus cs = [] ∨ minus cs = ['-']) := by
  unfold minus
  split
  · exact ⟨⟨_, rfl⟩, .inr rfl⟩
  · exact ⟨List.nil_prefix, .inl rfl⟩

private theorem exponentSign_spec (cs : List Char) :
    exponentSign cs <+: cs ∧
      (exponentSign cs = [] ∨ exponentSign cs = ['+'] ∨ exponentSign cs = ['-']) := by
  unfold exponentSign
  split
  · exact ⟨⟨_, rfl⟩, .inr (.inl rfl)⟩
  · exact ⟨⟨_, rfl⟩, .inr (.inr rfl)⟩
  · exact ⟨List.nil_prefix, .inl rfl⟩

private theorem fraction_spec (cs : List Char) :
    fraction cs <+: cs ∧ IsFraction (fraction cs) := by
  unfold fraction
  split
  · rename_i rest
    split
    · exact ⟨List.nil_prefix, .inl rfl⟩
    · rename_i hne
      refine ⟨?_, .inr ⟨digits rest, rfl, hne, fun c hc => isDigit_of_mem_digits hc⟩⟩
      exact List.cons_prefix_cons.mpr ⟨rfl, List.takeWhile_prefix _⟩
  · exact ⟨List.nil_prefix, .inl rfl⟩

private theorem exponent_spec {cs power : List Char} (h : exponent cs = (power, true)) :
    power <+: cs ∧ IsExponent power := by
  unfold exponent at h
  split at h
  · rename_i c rest
    split at h
    · rename_i hmark
      simp only [Prod.mk.injEq, Bool.not_eq_true', List.isEmpty_eq_false_iff] at h
      obtain ⟨rfl, hne⟩ := h
      obtain ⟨hsign, hform⟩ := exponentSign_spec rest
      refine ⟨List.cons_prefix_cons.mpr ⟨rfl, ?_⟩, .inr ⟨c, exponentSign rest, _, rfl, hmark,
        hform, hne, fun d hd => isDigit_of_mem_digits hd⟩⟩
      exact append_prefix_of_drop hsign (List.takeWhile_prefix _)
    · simp only [Prod.mk.injEq, and_true] at h
      exact ⟨h ▸ List.nil_prefix, .inl h.symm⟩
  · simp only [Prod.mk.injEq, and_true] at h
    exact ⟨h ▸ List.nil_prefix, .inl h.symm⟩

/-- The parts of a number that is read, which stands at the front of the text. -/
theorem numeral_of_number {cs text : List Char} {kind : Kind} (h : number cs = .ok (kind, text)) :
    ∃ sign whole part power, Numeral sign whole part power ∧
      text = sign ++ whole ++ part ++ power ∧ text <+: cs ∧ kind = numeralKind part power := by
  obtain ⟨hsign, hminus⟩ := minus_spec cs
  have hdigits : digits (cs.drop (minus cs).length) <+: cs.drop (minus cs).length :=
    List.takeWhile_prefix _
  unfold number at h
  dsimp only at h
  split at h
  · simp at h
  · simp at h
  · rename_i hnil hzero
    -- The whole number is what is left: it has a digit, and no zero before another digit.
    generalize hwhole : digits (cs.drop (minus cs).length) = whole at hnil hzero hdigits h
    have hbase := append_prefix_of_drop hsign hdigits
    obtain ⟨hfraction, hpart⟩ := fraction_spec (cs.drop (minus cs ++ whole).length)
    have hmantissa := append_prefix_of_drop hbase hfraction
    cases hexp : exponent (cs.drop (minus cs ++ whole ++
        fraction (cs.drop (minus cs ++ whole).length)).length) with
    | mk power isWhole =>
      simp only [hexp] at h
      cases isWhole with
      | false => simp at h
      | true =>
        obtain ⟨hfront, hpower⟩ := exponent_spec hexp
        simp only [Bool.not_true, Bool.false_eq_true, if_false] at h
        split at h
        · simp at h
        · simp only [Except.ok.injEq, Prod.mk.injEq] at h
          obtain ⟨rfl, rfl⟩ := h
          refine ⟨minus cs, whole, _, power, ⟨hminus, ?_, ?_, ?_, hpart, hpower⟩, rfl,
            append_prefix_of_drop hmantissa hfront, rfl⟩
          · rintro rfl
            exact hnil rfl
          · intro c hc
            exact isDigit_of_mem_digits (hwhole ▸ hc)
          · intro hhead
            cases whole with
            | nil => simp at hhead
            | cons d ds =>
              simp only [List.head?_cons, Option.some.injEq] at hhead
              subst hhead
              cases ds with
              | nil => rfl
              | cons e es => exact absurd rfl (hzero e es)

/-- A number stands at the front of the text, and is the same number in front of any break. -/
theorem number_stable {cs text : List Char} {kind : Kind} (h : number cs = .ok (kind, text)) :
    text ≠ [] ∧ text <+: cs ∧
      ∀ more, Breaks more → number (text ++ more) = .ok (kind, text) := by
  obtain ⟨sign, whole, part, power, hn, rfl, hfront, rfl⟩ := numeral_of_number h
  exact ⟨by simp [hn.nonempty], hfront, fun more hb => number_of_numeral hn hb⟩

/-! ### Strings

A string ends where it says it ends, so what follows its last quote does not matter: the
two readers below are stable in front of anything.  Only the choice between them looks
past an empty string.
-/

theorem quoted_plain {c : Char} {cs : List Char} (hquote : c ≠ '"') (hback : c ≠ '\\') :
    quoted (c :: cs) = if isTerminator c then none else (quoted cs).map (c :: ·) := by
  conv => lhs; unfold quoted
  split
  · rename_i heq
    simp at heq
  · rename_i heq
    simp only [List.cons.injEq] at heq
    exact absurd heq.1 hquote
  · rename_i heq
    simp only [List.cons.injEq] at heq
    exact absurd heq.1 hback
  · rename_i heq
    simp only [List.cons.injEq] at heq
    obtain ⟨rfl, rfl⟩ := heq
    rfl

theorem quoted_stable {cs text : List Char} (h : quoted cs = some text) :
    text <+: cs ∧ ∀ more, quoted (text ++ more) = some text := by
  fun_induction quoted cs generalizing text with
  | case1 => simp at h
  | case2 rest =>
      simp only [Option.some.injEq] at h
      subst h
      exact ⟨⟨rest, rfl⟩, fun more => by simp [quoted]⟩
  | case3 c rest ih =>
      obtain ⟨inner, hinner, rfl⟩ := Option.map_eq_some_iff.mp h
      obtain ⟨hfront, hmore⟩ := ih hinner
      refine ⟨?_, fun more => ?_⟩
      · exact List.cons_prefix_cons.mpr ⟨rfl, List.cons_prefix_cons.mpr ⟨rfl, hfront⟩⟩
      · simp [quoted, hmore more]
  | case4 c rest hquote hescape hend => simp at h
  | case5 c rest hquote hescape hend ih =>
      obtain ⟨inner, hinner, rfl⟩ := Option.map_eq_some_iff.mp h
      obtain ⟨hfront, hmore⟩ := ih hinner
      refine ⟨List.cons_prefix_cons.mpr ⟨rfl, hfront⟩, fun more => ?_⟩
      -- A backslash comes here only as the last character, and then nothing closes the string.
      have hback : c ≠ '\\' := by
        rintro rfl
        cases rest with
        | nil => simp [quoted] at hinner
        | cons e es => exact hescape e es rfl rfl
      rw [List.cons_append, quoted_plain (fun hc => hquote hc) hback, if_neg hend, hmore more]
      rfl

theorem block_plain {c : Char} {cs : List Char}
    (hescape : ∀ rest, c = '\\' → cs ≠ '"' :: '"' :: '"' :: rest)
    (hclose : ∀ rest, c = '"' → cs ≠ '"' :: '"' :: rest) :
    block (c :: cs) = (block cs).map (c :: ·) := by
  conv => lhs; unfold block
  split
  · rename_i heq
    simp at heq
  · rename_i heq
    simp only [List.cons.injEq] at heq
    exact absurd heq.2 (hescape _ heq.1)
  · rename_i heq
    simp only [List.cons.injEq] at heq
    exact absurd heq.2 (hclose _ heq.1)
  · rename_i heq
    simp only [List.cons.injEq] at heq
    obtain ⟨rfl, rfl⟩ := heq
    rfl

/-- A block string ends in three quotes, so at least three characters are left to read. -/
private theorem block_three {cs text : List Char} (h : block cs = some text) :
    ∃ a b c tail, text = a :: b :: c :: tail := by
  fun_induction block cs generalizing text with
  | case1 => simp at h
  | case2 rest ih =>
      obtain ⟨inner, -, rfl⟩ := Option.map_eq_some_iff.mp h
      exact ⟨_, _, _, _, rfl⟩
  | case3 rest =>
      simp only [Option.some.injEq] at h
      exact ⟨_, _, _, [], h.symm⟩
  | case4 c rest hescape hclose ih =>
      obtain ⟨inner, hinner, rfl⟩ := Option.map_eq_some_iff.mp h
      obtain ⟨a, b, d, tail, rfl⟩ := ih hinner
      exact ⟨c, a, b, d :: tail, rfl⟩

theorem block_stable {cs text : List Char} (h : block cs = some text) :
    text <+: cs ∧ ∀ more, block (text ++ more) = some text := by
  fun_induction block cs generalizing text with
  | case1 => simp at h
  | case2 rest ih =>
      obtain ⟨inner, hinner, rfl⟩ := Option.map_eq_some_iff.mp h
      obtain ⟨hfront, hmore⟩ := ih hinner
      refine ⟨?_, fun more => by simp [block, hmore more]⟩
      simpa [List.cons_prefix_cons] using hfront
  | case3 rest =>
      simp only [Option.some.injEq] at h
      subst h
      exact ⟨⟨rest, rfl⟩, fun more => by simp [block]⟩
  | case4 c rest hescape hclose ih =>
      obtain ⟨inner, hinner, rfl⟩ := Option.map_eq_some_iff.mp h
      obtain ⟨hfront, hmore⟩ := ih hinner
      refine ⟨List.cons_prefix_cons.mpr ⟨rfl, hfront⟩, fun more => ?_⟩
      -- Both tests look at no more than three characters ahead, and the string has that many.
      obtain ⟨x, y, z, tail, rfl⟩ := block_three hinner
      obtain ⟨behind, rfl⟩ := hfront
      have hescape' : ∀ r, c = '\\' → (x :: y :: z :: tail) ++ more ≠ '"' :: '"' :: '"' :: r := by
        intro r hc heq
        simp only [List.cons_append, List.cons.injEq] at heq
        obtain ⟨rfl, rfl, rfl, -⟩ := heq
        exact hescape _ hc rfl
      have hclose' : ∀ r, c = '"' → (x :: y :: z :: tail) ++ more ≠ '"' :: '"' :: r := by
        intro r hc heq
        simp only [List.cons_append, List.cons.injEq] at heq
        obtain ⟨rfl, rfl, -⟩ := heq
        exact hclose _ hc rfl
      rw [List.cons_append, block_plain hescape' hclose', hmore more]
      rfl

theorem string_plain {cs : List Char} (h : ∀ rest, cs ≠ '"' :: '"' :: rest) :
    string cs = match quoted cs with
      | some text => .ok text
      | none => .error .unterminatedString := by
  unfold string
  split
  · exact absurd rfl (h _)
  · rfl

theorem string_stable {cs text : List Char} (h : string cs = .ok text) :
    text <+: cs ∧ ∀ more, Breaks more → string (text ++ more) = .ok text := by
  by_cases hblock : ∃ rest, cs = '"' :: '"' :: rest
  · obtain ⟨rest, rfl⟩ := hblock
    simp only [string] at h
    split at h
    · rename_i inner hinner
      simp only [Except.ok.injEq] at h
      subst h
      obtain ⟨hfront, hmore⟩ := block_stable hinner
      refine ⟨by simpa [List.cons_prefix_cons] using hfront, fun more _ => ?_⟩
      simp [string, hmore more]
    · simp at h
  · have hplain : ∀ rest, cs ≠ '"' :: '"' :: rest := fun rest hc => hblock ⟨rest, hc⟩
    rw [string_plain hplain] at h
    split at h
    · rename_i inner hinner
      simp only [Except.ok.injEq] at h
      subst h
      obtain ⟨hfront, hmore⟩ := quoted_stable hinner
      refine ⟨hfront, fun more hb => ?_⟩
      have hplain' : ∀ rest, inner ++ more ≠ '"' :: '"' :: rest := by
        intro rest heq
        -- Either the second quote is the string's own, or it is the first character after it.
        cases inner with
        | nil =>
            have hempty := hmore []
            simp [quoted] at hempty
        | cons a tail =>
            cases tail with
            | nil =>
                simp only [List.cons_append, List.nil_append, List.cons.injEq] at heq
                exact ne_quote_of_break (hb '"' (by simp [heq.2])) rfl
            | cons b tail =>
                obtain ⟨behind, rfl⟩ := hfront
                simp only [List.cons_append, List.cons.injEq] at heq
                obtain ⟨rfl, rfl, -⟩ := heq
                exact hplain _ rfl
      rw [string_plain hplain', hmore more]
    · simp at h

/-! ### Any lexeme -/

theorem ofSign?_of_nameStart {c : Char} (h : isNameStart c = true) : Kind.ofSign? c = none := by
  unfold Kind.ofSign?
  split
  all_goals first | rfl | exact absurd h (by decide)

/-- A word is read up to its end. -/
theorem read_word {c : Char} {tail : List Char} (hc : isNameStart c = true)
    (htail : ∀ d ∈ tail, isNamePart d = true) :
    read c tail = .ok (Kind.ofWord (String.ofList (c :: tail)), tail) := by
  have hdot : c ≠ '.' := by
    rintro rfl
    exact absurd hc (by decide)
  have hquote : c ≠ '"' := by
    rintro rfl
    exact absurd hc (by decide)
  simp only [read, ofSign?_of_nameStart hc, if_neg hdot, if_neg hquote, if_pos hc,
    takeWhile_eq_self htail]

theorem dots_stable {cs text : List Char} (h : dots cs = .ok text) :
    text <+: cs ∧ ∀ more, dots (text ++ more) = .ok text := by
  unfold dots at h
  split at h
  · simp only [Except.ok.injEq] at h
    subst h
    exact ⟨⟨_, rfl⟩, fun more => rfl⟩
  · simp at h
  · simp at h

/--
**A lexeme is read the same in front of any break.**  What `read` takes stands at the front
of the text, and it takes the same, as the same kind, whatever break follows.
-/
theorem read_stable {c : Char} {cs tail : List Char} {kind : Kind}
    (h : read c cs = .ok (kind, tail)) :
    tail <+: cs ∧ ∀ more, Breaks more → read c (tail ++ more) = .ok (kind, tail) := by
  unfold read at h ⊢
  cases hsign : Kind.ofSign? c with
  | some sign =>
      simp only [hsign, Except.ok.injEq, Prod.mk.injEq] at h
      obtain ⟨rfl, rfl⟩ := h
      exact ⟨List.nil_prefix, fun more _ => rfl⟩
  | none =>
      simp only [hsign] at h
      dsimp only
      split at h
      · rename_i hdot
        obtain ⟨text, htext, hpair⟩ := Outcomes.map_eq_ok.mp h
        obtain ⟨rfl, rfl⟩ := Prod.mk.inj hpair
        obtain ⟨hfront, hmore⟩ := dots_stable htext
        refine ⟨hfront, fun more _ => ?_⟩
        rw [if_pos hdot, hmore more]
        rfl
      · rename_i hdot
        split at h
        · rename_i hquote
          obtain ⟨text, htext, hpair⟩ := Outcomes.map_eq_ok.mp h
          obtain ⟨rfl, rfl⟩ := Prod.mk.inj hpair
          obtain ⟨hfront, hmore⟩ := string_stable htext
          refine ⟨hfront, fun more hb => ?_⟩
          rw [if_neg hdot, if_pos hquote, hmore more hb]
          rfl
        · rename_i hquote
          split at h
          · rename_i hname
            simp only [Except.ok.injEq, Prod.mk.injEq] at h
            obtain ⟨rfl, rfl⟩ := h
            refine ⟨List.takeWhile_prefix _, fun more hb => ?_⟩
            rw [if_neg hdot, if_neg hquote, if_pos hname,
              takeWhile_stable cs fun d hd => not_namePart_of_break (hb d hd)]
          · rename_i hname
            split at h
            · rename_i hnumber
              obtain ⟨⟨found, text⟩, htext, hpair⟩ := Outcomes.map_eq_ok.mp h
              obtain ⟨rfl, rfl⟩ := Prod.mk.inj hpair
              obtain ⟨hne, ⟨behind, hcs⟩, hmore⟩ := number_stable htext
              -- The number starts with `c`, so what it takes after `c` is its tail.
              obtain ⟨d, rest, rfl⟩ := List.exists_cons_of_ne_nil hne
              simp only [List.cons_append, List.cons.injEq] at hcs
              obtain ⟨rfl, rfl⟩ := hcs
              refine ⟨List.prefix_append _ _, fun more hb => ?_⟩
              rw [if_neg hdot, if_neg hquote, if_neg hname, if_pos hnumber]
              have hagain := hmore more hb
              rw [List.cons_append] at hagain
              rw [List.tail_cons, hagain]
              rfl
            · simp at h

end QueryBatching.Lexeme
