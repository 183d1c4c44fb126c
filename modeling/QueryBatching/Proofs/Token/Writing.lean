/-
Texts that are read as the tokens they were put together from.

Canonical text is put together from lexemes, signs and blanks, and most of it from pieces
that are put together in their turn.  So reading it back goes piece by piece: `Writes text L`
says that the tokens of the text, in front of anything that scans, are among the spellings
`L`.  A lexeme only keeps its end if a break follows, so `Writes` asks for one.  `Seals` is
for texts that end with a sign or a blank, behind which anything may follow.

Where the pieces stand in the source makes no difference to any of this: a scan reads the
same tokens from any location on, except for their positions.
-/
import QueryBatching.Proofs.Grammar.Spelling
import QueryBatching.Proofs.Token.Lexeme
import QueryBatching.Token.Scan

namespace QueryBatching.Token

open Lexeme Spelling

/-! ### Lexemes -/

/-- The text is one lexeme of the kind, from its first character to its last. -/
def IsLexeme (kind : Kind) (text : String) : Prop :=
  ∃ c tail, text.toList = c :: tail ∧ Lexeme.read c tail = .ok (kind, tail)

/-- A lexeme does not begin with anything that a scan passes over. -/
theorem not_ignored_of_read {c : Char} {cs tail : List Char} {kind : Kind}
    (h : Lexeme.read c cs = .ok (kind, tail)) : isIgnored c = false ∧ c ≠ '#' := by
  have hno : ∀ d : Char, (isIgnored d = true ∨ d = '#') →
      Lexeme.read d cs = .error (.unexpectedCharacter d) := by
    intro d hd
    simp only [isIgnored, Bool.or_eq_true, decide_eq_true_eq] at hd
    rcases hd with ((((rfl | rfl) | rfl) | rfl) | rfl) | rfl <;> rfl
  constructor
  · by_contra hc
    rw [hno c (.inl (by simpa using hc))] at h
    simp at h
  · intro hc
    rw [hno c (.inr hc)] at h
    simp at h

/-! ### What a scan gives -/

/-- What is already spoken for is counted off. -/
theorem scanFrom_append (here : Location) (cs more : List Char) :
    scanFrom cs.length here (cs ++ more) = scanFrom 0 (here.advanceAll cs) more := by
  induction cs generalizing here with
  | nil => rfl
  | cons c cs ih =>
      rw [List.length_cons, List.cons_append, scanFrom, ih, Location.advanceAll_cons]

theorem scanFrom_ignored {c : Char} (h : isIgnored c = true) (here : Location) (cs : List Char) :
    scanFrom 0 here (c :: cs) = scanFrom 0 (here.advance c) cs := by
  rw [scanFrom, if_pos h]

/-- A lexeme is emitted, and the scan goes on behind it. -/
theorem scanFrom_lexeme {c : Char} {tail more : List Char} {kind : Kind}
    (h : Lexeme.read c (tail ++ more) = .ok (kind, tail)) (here : Location) :
    scanFrom 0 here (c :: (tail ++ more)) =
      .ok ⟨kind, String.ofList (c :: tail), here.position⟩ ::
        scanFrom 0 (here.advanceAll (c :: tail)) more := by
  obtain ⟨hignored, hcomment⟩ := not_ignored_of_read h
  rw [scanFrom, hignored, if_neg Bool.false_ne_true, if_neg hcomment, h]
  dsimp only
  rw [scanFrom_append, Location.advanceAll_cons]

/-- From any location on, the characters scan as tokens of the language. -/
def Scans (cs : List Char) (L : Language Token) : Prop :=
  ∀ here, ∃ tokens ∈ L, collect (scanFrom 0 here cs) = .ok tokens

theorem scans_nil : Scans [] (sign .endOfInput) :=
  fun here => ⟨[⟨.endOfInput, "", here.position⟩], ⟨_, rfl, rfl⟩, rfl⟩

theorem Scans.mono {cs : List Char} {L M : Language Token} (h : Scans cs L) (hle : L ≤ M) :
    Scans cs M := by
  intro here
  obtain ⟨tokens, hmem, hscan⟩ := h here
  exact ⟨tokens, hle hmem, hscan⟩

theorem Scans.behind_ignored {c : Char} {cs : List Char} {L : Language Token}
    (hc : isIgnored c = true) (h : Scans cs L) : Scans (c :: cs) L := by
  intro here
  rw [scanFrom_ignored hc]
  exact h _

theorem Scans.behind_lexeme {c : Char} {tail more : List Char} {kind : Kind} {L : Language Token}
    (hread : Lexeme.read c (tail ++ more) = .ok (kind, tail)) (h : Scans more L) :
    Scans (c :: (tail ++ more)) (word kind (String.ofList (c :: tail)) * L) := by
  intro here
  obtain ⟨tokens, hmem, hscan⟩ := h (here.advanceAll (c :: tail))
  refine ⟨⟨kind, String.ofList (c :: tail), here.position⟩ :: tokens, ?_, ?_⟩
  · exact Language.append_mem_mul (a := [_]) ⟨_, rfl, rfl, rfl⟩ hmem
  · rw [scanFrom_lexeme hread, collect, hscan]
    rfl

/-! ### Texts and their tokens -/

/-- In front of any break the text scans as tokens of the language. -/
def Writes (text : String) (L : Language Token) : Prop :=
  ∀ ⦃more : List Char⦄ ⦃M : Language Token⦄, Breaks more → Scans more M →
    Scans (text.toList ++ more) (L * M)

/-- In front of anything the text scans as tokens of the language. -/
def Seals (text : String) (L : Language Token) : Prop :=
  ∀ ⦃more : List Char⦄ ⦃M : Language Token⦄, Scans more M → Scans (text.toList ++ more) (L * M)

theorem Seals.writes {text : String} {L : Language Token} (h : Seals text L) : Writes text L :=
  fun _ _ _ hmore => h hmore

theorem Writes.mono {text : String} {L M : Language Token} (h : Writes text L) (hle : L ≤ M) :
    Writes text M :=
  fun _ _ hb hmore => (h hb hmore).mono (mul_le_mul' hle le_rfl)

theorem Seals.mono {text : String} {L M : Language Token} (h : Seals text L) (hle : L ≤ M) :
    Seals text M :=
  fun _ _ hmore => (h hmore).mono (mul_le_mul' hle le_rfl)

theorem seals_empty : Seals "" 1 := by
  intro more M hmore
  rw [one_mul]
  exact hmore

theorem seals_blank : Seals " " 1 := by
  intro more M hmore
  rw [one_mul]
  exact hmore.behind_ignored (by decide)

/-- A sign of one character. -/
theorem seals_sign {c : Char} {kind : Kind} (h : Kind.ofSign? c = some kind) :
    Seals (String.singleton c) (sign kind) := by
  intro more M hmore
  have hread : Lexeme.read c ([] ++ more) = .ok (kind, []) := by simp only [Lexeme.read, h]
  rw [String.toList_singleton]
  refine (Scans.behind_lexeme hread hmore).mono (mul_le_mul' (fun written hword => ?_) le_rfl)
  obtain ⟨t, ht, hkind, -⟩ := hword
  exact ⟨t, ht, hkind⟩

theorem seals_dots : Seals "..." (sign .ellipsis) := by
  intro more M hmore
  have hread : Lexeme.read '.' (['.', '.'] ++ more) = .ok (.ellipsis, ['.', '.']) := rfl
  refine (Scans.behind_lexeme hread hmore).mono (mul_le_mul' (fun written hword => ?_) le_rfl)
  obtain ⟨t, ht, hkind, -⟩ := hword
  exact ⟨t, ht, hkind⟩

/-- A lexeme. -/
theorem writes_lexeme {kind : Kind} {text : String} (h : IsLexeme kind text) :
    Writes text (word kind text) := by
  intro more M hb hmore
  obtain ⟨c, tail, htext, hread⟩ := h
  rw [htext, List.cons_append]
  have hscan := Scans.behind_lexeme ((read_stable hread).2 more hb) hmore
  rwa [← htext, String.ofList_toList] at hscan

/-! ### One text behind another -/

theorem breaks_append {cs more : List Char} (h : Breaks cs) (h' : Breaks more) :
    Breaks (cs ++ more) := by
  cases cs with
  | nil => exact h'
  | cons c cs => exact h

theorem Writes.append {a b : String} {L M : Language Token} (h : Writes a L) (h' : Writes b M)
    (hb : Breaks b.toList) : Writes (a ++ b) (L * M) := by
  intro more N hmore hscan
  rw [String.toList_append, List.append_assoc, mul_assoc]
  exact h (breaks_append hb hmore) (h' hmore hscan)

theorem Writes.seal {a b : String} {L M : Language Token} (h : Writes a L) (h' : Seals b M)
    (hb : Breaks b.toList) (hne : b ≠ "") : Seals (a ++ b) (L * M) := by
  intro more N hscan
  rw [String.toList_append, List.append_assoc, mul_assoc]
  refine h ?_ (h' hscan)
  obtain ⟨c, rest, hc⟩ := List.exists_cons_of_ne_nil fun hnil =>
    hne (String.toList_eq_nil_iff.mp hnil)
  rw [hc] at hb ⊢
  exact hb

theorem Seals.append {a b : String} {L M : Language Token} (h : Seals a L) (h' : Writes b M) :
    Writes (a ++ b) (L * M) := by
  intro more N hmore hscan
  rw [String.toList_append, List.append_assoc, mul_assoc]
  exact h (h' hmore hscan)

theorem Seals.seal {a b : String} {L M : Language Token} (h : Seals a L) (h' : Seals b M) :
    Seals (a ++ b) (L * M) := by
  intro more N hscan
  rw [String.toList_append, List.append_assoc, mul_assoc]
  exact h (h' hscan)

/-- A text is a break in front of another if it begins with one. -/
theorem breaks_of_front {a : String} (b : String) (hb : Breaks a.toList) (hne : a ≠ "") :
    Breaks (a ++ b).toList := by
  obtain ⟨c, rest, hc⟩ :=
    List.exists_cons_of_ne_nil fun hnil => hne (String.toList_eq_nil_iff.mp hnil)
  rw [String.toList_append, hc, List.cons_append]
  rw [hc] at hb
  exact hb

section Lists

variable {α : Type} {text : α → String} {spell : α → Language Token}

/-- Texts with a separator between them. -/
theorem writes_intercalate {separator : String} {S : Language Token} (hsep : Seals separator S)
    (hb : Breaks separator.toList) (hne : separator ≠ "") (first : α) {rest : List α}
    (h : ∀ item ∈ first :: rest, Writes (text item) (spell item)) :
    Writes (separator.intercalate ((first :: rest).map text))
      (spell first * inOrder (fun item => S * spell item) rest) := by
  induction rest generalizing first with
  | nil =>
      rw [List.map_singleton, String.intercalate_singleton]
      exact (h first (by simp)).mono (mul_one (spell first)).ge
  | cons next rest ih =>
      rw [List.map_cons, List.map_cons, String.intercalate_cons_cons, ← List.map_cons,
        String.append_assoc]
      have hrest := ih next fun item hitem => h item (List.mem_cons_of_mem first hitem)
      refine ((h first (by simp)).append (hsep.append hrest) (breaks_of_front _ hb hne)).mono ?_
      simp only [inOrder, mul_assoc]
      exact le_rfl

theorem one_le_commas : (1 : Language Token) ≤ commas := by
  rintro _ rfl t ht
  simp at ht

theorem sign_le_commas : sign .comma ≤ commas := by
  rintro _ ⟨t, rfl, ht⟩ u hu
  exact List.mem_singleton.mp hu ▸ ht

/-- Any separator will do between the items of a list with commas anywhere. -/
theorem writes_commaList {separator : String} {S : Language Token} (hsep : Seals separator S)
    (hb : Breaks separator.toList) (hne : separator ≠ "") (hS : S ≤ commas) {items : List α}
    (h : ∀ item ∈ items, Writes (text item) (spell item)) :
    Writes (separator.intercalate (items.map text)) (commaList spell items) := by
  have hmono : ∀ rest : List α,
      inOrder (fun item => S * spell item) rest ≤
        inOrder (fun item => commas * spell item) rest := by
    intro rest
    induction rest with
    | nil => exact le_rfl
    | cons item rest ih => exact mul_le_mul' (mul_le_mul' hS le_rfl) ih
  cases items with
  | nil => exact seals_empty.writes.mono one_le_commas
  | cons first rest =>
      refine (writes_intercalate hsep hb hne first h).mono ?_
      rw [commaList_cons_eq, ← one_mul (spell first * _), ← mul_one (1 * (spell first * _))]
      exact mul_le_mul' (mul_le_mul' one_le_commas (mul_le_mul' le_rfl (hmono rest))) one_le_commas

/-- Texts that begin with a break, one behind another. -/
theorem writes_join {items : List α} (h : ∀ item ∈ items, Writes (text item) (spell item))
    (hb : ∀ item, Breaks (text item).toList) :
    Writes (String.join (items.map text)) (inOrder spell items) ∧
      Breaks (String.join (items.map text)).toList := by
  induction items with
  | nil => exact ⟨seals_empty.writes, Breaks.nil⟩
  | cons item rest ih =>
      obtain ⟨hrest, hbrest⟩ := ih fun other hother => h other (List.mem_cons_of_mem item hother)
      rw [List.map_cons, String.join_cons]
      refine ⟨(h item (by simp)).append hrest hbrest, ?_⟩
      rw [String.toList_append]
      exact breaks_append (hb item) hbrest

end Lists

end QueryBatching.Token
