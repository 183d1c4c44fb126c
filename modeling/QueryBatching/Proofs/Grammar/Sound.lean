/-
When what a parser reads is spelled by what it took.

`Sound p spell` says that wherever `p` accepts with a value, the tokens between the two cursors
are among the spellings of that value.  Each combinator is treated once.
-/
import QueryBatching.Parse.Grammar
import QueryBatching.Proofs.Grammar.Spelling
import QueryBatching.Proofs.Parse.Acceptance

namespace QueryBatching

open Token (Kind)

/-! ### Between two cursors -/

namespace Parse.Cursor

/-- The second cursor is behind the tokens taken from the first one on. -/
structure Advances (here : Cursor) (taken : List Token) (next : Cursor) : Prop where
  ahead : here.ahead = taken ++ next.ahead
  index : next.index = here.index + taken.length

theorem Advances.refl (here : Cursor) : here.Advances [] here := ⟨rfl, rfl⟩

theorem Advances.trans {here middle next : Cursor} {first second : List Token}
    (h : here.Advances first middle) (h' : middle.Advances second next) :
    here.Advances (first ++ second) next := by
  refine ⟨?_, ?_⟩
  · rw [h.ahead, h'.ahead, List.append_assoc]
  · rw [h'.index, h.index, List.length_append, Nat.add_assoc]

/-- What was taken in two stretches was taken one after the other. -/
theorem Advances.split {here next : Cursor} {first second : List Token}
    (h : here.Advances (first ++ second) next) :
    ∃ middle, here.Advances first middle ∧ middle.Advances second next := by
  refine ⟨⟨here.index + first.length, second ++ next.ahead⟩, ⟨?_, rfl⟩, ⟨rfl, ?_⟩⟩
  · rw [h.ahead, List.append_assoc]
  · rw [h.index, List.length_append, Nat.add_assoc]

/-- From the start of some tokens to behind the first of them. -/
theorem advances_ofTokens (taken rest : List Token) :
    (Cursor.ofTokens (taken ++ rest) 0).Advances taken ⟨taken.length, rest⟩ :=
  ⟨by simp [Cursor.ofTokens], by simp [Cursor.ofTokens]⟩

theorem Advances.position {here next : Cursor} {taken : List Token}
    (h : here.Advances taken next) (hne : taken ≠ []) : here.position = Spelling.start taken := by
  obtain ⟨t, rest, rfl⟩ := List.exists_cons_of_ne_nil hne
  simp [Cursor.position, h.ahead, Spelling.start]

end Parse.Cursor

open Parse (Cursor)

namespace Parser

open Spelling

variable {α β γ : Type}

/-- What the parser accepts is spelled by the tokens it takes. -/
def Sound (p : Parser α) (spell : α → Language Token) : Prop :=
  ∀ ⦃here : Cursor⦄ ⦃value : α⦄ ⦃next : Cursor⦄, Accepts p here value next →
    ∃ taken ∈ spell value, here.Advances taken next

/-! ### Combinators -/

theorem Sound.mono {p : Parser α} {L M : α → Language Token} (h : Sound p L)
    (hle : ∀ a, L a ≤ M a) : Sound p M := by
  intro here value next hacc
  obtain ⟨taken, hmem, hadv⟩ := h hacc
  exact ⟨taken, hle value hmem, hadv⟩

theorem sound_stop (L : α → Language Token) : Sound stop L :=
  fun _ _ _ hacc => absurd hacc not_accepts_stop

theorem sound_token (accepts : Token → Bool) (kind : Kind) :
    Sound (token accepts kind) fun t => {tokens | tokens = [t] ∧ accepts t = true} := by
  intro here value next hacc
  obtain ⟨hyes, hahead, hindex⟩ := accepts_token.mp hacc
  exact ⟨[value], ⟨rfl, hyes⟩, ⟨hahead, hindex⟩⟩

theorem sound_expect (kind : Kind) : Sound (expect kind) fun _ => sign kind := by
  refine (sound_token _ kind).mono fun t tokens ht => ?_
  obtain ⟨rfl, hkind⟩ := ht
  exact mem_sign (by simpa using hkind)

theorem Sound.map {p : Parser α} {L : α → Language Token} {f : α → β} {M : β → Language Token}
    (h : Sound p L) (hle : ∀ a, L a ≤ M (f a)) : Sound (map f p) M := by
  intro here value next hacc
  obtain ⟨a, rfl, ha⟩ := accepts_map.mp hacc
  obtain ⟨taken, hmem, hadv⟩ := h ha
  exact ⟨taken, hle a hmem, hadv⟩

/-- A value that knows where it starts, read by a parser that takes a token. -/
theorem Sound.placed {p : Parser α} {L : α → Language Token} {f : Position → α → β}
    {M : β → Language Token} (h : Sound p L)
    (hle : ∀ a, ∀ tokens ∈ L a, tokens ≠ [] ∧ tokens ∈ M (f (start tokens) a)) :
    Sound (placed f p) M := by
  intro here value next hacc
  obtain ⟨a, rfl, ha⟩ := accepts_placed.mp hacc
  obtain ⟨taken, hmem, hadv⟩ := h ha
  obtain ⟨hne, hspell⟩ := hle a taken hmem
  exact ⟨taken, hadv.position hne ▸ hspell, hadv⟩

theorem Sound.optional {p : Parser α} {L : α → Language Token} (h : Sound p L) :
    Sound (optional p) (orNothing L) := by
  intro here value next hacc
  rcases accepts_optional.mp hacc with ⟨a, rfl, ha⟩ | ⟨rfl, rfl, -⟩
  · exact h ha
  · exact ⟨[], rfl, .refl _⟩

theorem Sound.both {p : Parser α} {q : Parser β} {L : α → Language Token}
    {M : β → Language Token} (h : Sound p L) (h' : Sound q M) :
    Sound (both p q) fun x => L x.1 * M x.2 := by
  intro here value next hacc
  obtain ⟨middle, ha, hb⟩ := accepts_both.mp hacc
  obtain ⟨first, hfirst, hadv⟩ := h ha
  obtain ⟨second, hsecond, hadv'⟩ := h' hb
  exact ⟨first ++ second, mem_mul hfirst hsecond, hadv.trans hadv'⟩

theorem Sound.left {p : Parser α} {q : Parser β} {L : α → Language Token} {M : Language Token}
    (h : Sound p L) (h' : Sound q fun _ => M) : Sound (left p q) fun a => L a * M :=
  (h.both h').map fun _ => le_rfl

theorem Sound.right {p : Parser α} {q : Parser β} {L : Language Token} {M : β → Language Token}
    (h : Sound p fun _ => L) (h' : Sound q M) : Sound (right p q) fun b => L * M b := by
  intro here value next hacc
  obtain ⟨a, middle, ha, hb⟩ := accepts_right.mp hacc
  obtain ⟨first, hfirst, hadv⟩ := h ha
  obtain ⟨second, hsecond, hadv'⟩ := h' hb
  exact ⟨first ++ second, mem_mul hfirst hsecond, hadv.trans hadv'⟩

theorem Sound.choice {ps : List (Parser α)} {L : α → Language Token} (h : ∀ p ∈ ps, Sound p L) :
    Sound (choice ps) L := by
  intro here value next hacc
  induction ps with
  | nil => exact absurd hacc not_accepts_choice_nil
  | cons p ps ih =>
      rcases accepts_choice_cons.mp hacc with hp | ⟨-, hps⟩
      · exact h p (by simp) hp
      · exact ih (fun q hq => h q (by simp [hq])) hps

theorem Sound.repeats {p : Parser α} {L : α → Language Token} (h : Sound p L) {here next : Cursor}
    {values : List α} (hrun : Repeats p here values next) :
    ∃ taken ∈ inOrder L values, here.Advances taken next := by
  induction hrun with
  | stop => exact ⟨[], rfl, .refl _⟩
  | more hacc _ _ ih =>
      obtain ⟨first, hfirst, hadv⟩ := h hacc
      obtain ⟨rest, hrest, hadv'⟩ := ih
      exact ⟨first ++ rest, mem_mul hfirst hrest, hadv.trans hadv'⟩

theorem Sound.many {p : Parser α} {L : α → Language Token} (h : Sound p L) :
    Sound (many p) (inOrder L) :=
  fun _ _ _ hacc => h.repeats (accepts_many.mp hacc)

theorem Sound.many1 {p : Parser α} {L : α → Language Token} (h : Sound p L) :
    Sound (many1 p) fun values => {tokens | values ≠ [] ∧ tokens ∈ inOrder L values} := by
  intro here values next hacc
  obtain ⟨hne, hrun⟩ := accepts_many1.mp hacc
  obtain ⟨taken, hmem, hadv⟩ := h.repeats hrun
  exact ⟨taken, ⟨hne, hmem⟩, hadv⟩

theorem Sound.separates {item : Parser α} {separator : Parser β} {L : α → Language Token}
    {S : Language Token} (h : Sound item L) (h' : Sound separator fun _ => S) {here next : Cursor}
    {values : List α} (hrun : Separates item separator here values next) :
    ∃ taken ∈ inOrder (fun a => S * L a) values, here.Advances taken next := by
  induction hrun with
  | stop => exact ⟨[], rfl, .refl _⟩
  | more hgap hitem _ _ ih =>
      obtain ⟨gap, hgapmem, hadv⟩ := h' hgap
      obtain ⟨first, hfirst, hadv'⟩ := h hitem
      obtain ⟨rest, hrest, hadv''⟩ := ih
      exact ⟨gap ++ first ++ rest, mem_mul (mem_mul hgapmem hfirst) hrest,
        (hadv.trans hadv').trans hadv''⟩

/-- Items with a separator between two of them. -/
def separatedSpellings (gap : Language Token) (spell : α → Language Token) :
    List α → Language Token
  | [] => 1
  | first :: rest => spell first * inOrder (fun a => gap * spell a) rest

theorem separatedSpellings_singleton (gap : Language Token) (spell : α → Language Token) (a : α) :
    separatedSpellings gap spell [a] = spell a :=
  mul_one (spell a)

theorem Sound.separatedBy {item : Parser α} {separator : Parser β} {L : α → Language Token}
    {S : Language Token} (h : Sound item L) (h' : Sound separator fun _ => S) :
    Sound (separatedBy item separator) (separatedSpellings S L) := by
  intro here values next hacc
  rcases accepts_separatedBy.mp hacc with ⟨rfl, rfl, -⟩ | ⟨first, rest, middle, rfl, hfirst, hrun⟩
  · exact ⟨[], rfl, .refl _⟩
  · obtain ⟨a, ha, hadv⟩ := h hfirst
    obtain ⟨b, hb, hadv'⟩ := h.separates h' hrun
    exact ⟨a ++ b, mem_mul ha hb, hadv.trans hadv'⟩

end Parser

end QueryBatching
