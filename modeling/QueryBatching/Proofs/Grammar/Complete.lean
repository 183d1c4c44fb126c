/-
When a parser reads what is spelled.

`Complete p bound spell blocked` is the converse of soundness: where the tokens ahead spell a
value, `p` accepts with that value and takes exactly these tokens.  A parser looks one token
past its end, so this needs the next token to be of none of the `blocked` kinds: a field
could go on with a colon, an argument list, a directive or a selection set, and a list of
items with another item.  And the rules that contain themselves may open only so many
brackets, so the spelling has to be at most `bound` tokens long.

As in the other direction, each combinator is treated once.
-/
import QueryBatching.Proofs.Grammar.FirstTokens
import QueryBatching.Proofs.Grammar.Soundness

namespace QueryBatching

open Token (Kind)
open Parse (Cursor)

namespace Parser

open Spelling

variable {α β γ : Type}

/--
Where the tokens ahead spell a value and the one behind them is clear, the parser accepts
with that value and takes exactly these tokens.
-/
def Complete (p : Parser α) (bound : Nat) (spell : α → Language Token) (blocked : List Kind) :
    Prop :=
  ∀ ⦃here next : Cursor⦄ ⦃value : α⦄ ⦃taken : List Token⦄, taken ∈ spell value →
    taken.length ≤ bound → here.Advances taken next → Clear blocked next.ahead →
      Accepts p here value next

/-- The parser takes no first token but those of the kinds. -/
def Refuses (p : Parser α) (kinds : List Kind) : Prop :=
  ∀ ⦃here : Cursor⦄, Clear kinds here.ahead → Rejects p here

/--
The next token alone decides whether the parser goes ahead: it takes no other first token,
and all that it is to read begins with such a token.
-/
structure Decides (p : Parser α) (bound : Nat) (spell : α → Language Token)
    (blocked kinds : List Kind) : Prop where
  complete : Complete p bound spell blocked
  refuses : Refuses p kinds
  begins : ∀ a, Begins kinds (spell a)

/-! ### What a parser refuses -/

theorem refuses_expect (kind : Kind) : Refuses (expect kind) [kind] := by
  intro here hclear
  refine rejects_expect.mpr fun next hnext => ?_
  simpa using hclear next hnext

theorem refuses_keyword (text : String) : Refuses (keyword text) [.name] := by
  intro here hclear
  refine rejects_keyword.mpr fun next hnext hword => ?_
  exact hclear next hnext (by simp [hword.1])

theorem Refuses.map {p : Parser α} {kinds : List Kind} {f : α → β} (h : Refuses p kinds) :
    Refuses (map f p) kinds :=
  fun _ hclear => rejects_map.mpr (h hclear)

theorem Refuses.placed {p : Parser α} {kinds : List Kind} {f : Position → α → β}
    (h : Refuses p kinds) : Refuses (placed f p) kinds :=
  fun _ hclear => rejects_placed.mpr (h hclear)

theorem Refuses.both {p : Parser α} {q : Parser β} {kinds : List Kind} (h : Refuses p kinds) :
    Refuses (both p q) kinds :=
  fun _ hclear => rejects_both.mpr (.inl (h hclear))

theorem Refuses.left {p : Parser α} {q : Parser β} {kinds : List Kind} (h : Refuses p kinds) :
    Refuses (left p q) kinds :=
  fun _ hclear => rejects_left.mpr (.inl (h hclear))

theorem Refuses.right {p : Parser α} {q : Parser β} {kinds : List Kind} (h : Refuses p kinds) :
    Refuses (right p q) kinds :=
  fun _ hclear => rejects_right.mpr (.inl (h hclear))

theorem Refuses.choice {ps : List (Parser α)} {kinds : List Kind}
    (h : ∀ p ∈ ps, Refuses p kinds) : Refuses (choice ps) kinds := by
  intro here hclear
  induction ps with
  | nil => exact rejects_choice_nil
  | cons p ps ih =>
      exact rejects_choice_cons.mpr ⟨h p (by simp) hclear, ih fun q hq => h q (by simp [hq])⟩

theorem Refuses.mono {p : Parser α} {kinds more : List Kind} (h : Refuses p kinds)
    (hle : kinds ⊆ more) : Refuses p more :=
  fun _ hclear => h (hclear.mono hle)

/-! ### Combinators -/

theorem Complete.mono {p : Parser α} {bound smaller : Nat} {L M : α → Language Token}
    {blocked more : List Kind} (h : Complete p bound L blocked) (hbound : smaller ≤ bound)
    (hspell : ∀ a, M a ≤ L a) (hblocked : blocked ⊆ more) : Complete p smaller M more :=
  fun _ _ value _ hmem hlen hadv hclear =>
    h (hspell value hmem) (hlen.trans hbound) hadv (hclear.mono hblocked)

theorem complete_stop (bound : Nat) : Complete (stop : Parser α) bound (fun _ => 0) [] :=
  fun _ _ _ _ hmem => absurd hmem (Language.notMem_zero _)

theorem complete_token (accepts : Token → Bool) (kind : Kind) (bound : Nat) :
    Complete (token accepts kind) bound
      (fun t => {tokens | tokens = [t] ∧ accepts t = true}) [] := by
  rintro here next value _ ⟨rfl, hyes⟩ - hadv -
  exact accepts_token.mpr ⟨hyes, hadv.ahead, hadv.index⟩

theorem complete_expect (kind : Kind) (bound : Nat) :
    Complete (expect kind) bound (fun t => {tokens | tokens = [t] ∧ t.kind = kind}) [] := by
  refine (complete_token _ kind bound).mono le_rfl (fun t tokens ht => ?_) (List.Subset.refl _)
  exact ⟨ht.1, decide_eq_true ht.2⟩

theorem complete_keyword (text : String) (bound : Nat) :
    Complete (keyword text) bound
      (fun t => {tokens | tokens = [t] ∧ t.kind = .name ∧ t.text = text}) [] := by
  refine (complete_token _ _ bound).mono le_rfl (fun t tokens ht => ?_) (List.Subset.refl _)
  exact ⟨ht.1, by simp [Token.isWord, ht.2.1, ht.2.2]⟩

/-- The spellings of a result: those of all that it is the result of. -/
def image (f : α → β) (spell : α → Language Token) (b : β) : Language Token :=
  {tokens | ∃ a, f a = b ∧ tokens ∈ spell a}

theorem Complete.map {p : Parser α} {bound : Nat} {L : α → Language Token} {blocked : List Kind}
    {f : α → β} {M : β → Language Token} (h : Complete p bound L blocked)
    (hspell : ∀ b, M b ≤ image f L b) : Complete (map f p) bound M blocked := by
  intro here next value taken hmem hlen hadv hclear
  obtain ⟨a, rfl, ha⟩ := hspell value hmem
  exact accepts_map.mpr ⟨a, rfl, h ha hlen hadv hclear⟩

theorem Complete.placed {p : Parser α} {bound : Nat} {L : α → Language Token}
    {blocked : List Kind} {f : Position → α → β} {M : β → Language Token}
    (h : Complete p bound L blocked)
    (hspell : ∀ b, ∀ tokens ∈ M b, tokens ≠ [] ∧ ∃ a, f (start tokens) a = b ∧ tokens ∈ L a) :
    Complete (placed f p) bound M blocked := by
  intro here next value taken hmem hlen hadv hclear
  obtain ⟨hne, a, rfl, ha⟩ := hspell value taken hmem
  exact accepts_placed.mpr ⟨a, by rw [hadv.position hne], h ha hlen hadv hclear⟩

theorem eq_of_advances_nil {here next : Cursor} (h : here.Advances [] next) : next = here := by
  obtain ⟨hahead, hindex⟩ := h
  cases here
  cases next
  simp_all

/-- What may be left out must not look like what comes next. -/
theorem Decides.optional {p : Parser α} {bound : Nat} {L : α → Language Token}
    {blocked kinds : List Kind} (h : Decides p bound L blocked kinds) :
    Complete (optional p) bound (orNothing L) (blocked ++ kinds) := by
  intro here next value taken hmem hlen hadv hclear
  cases value with
  | none =>
      obtain rfl : taken = [] := hmem
      obtain rfl := eq_of_advances_nil hadv
      exact accepts_optional.mpr (.inr ⟨rfl, rfl,
        h.refuses (hclear.mono (List.subset_append_right _ _))⟩)
  | some a =>
      exact accepts_optional.mpr (.inl ⟨a, rfl,
        h.complete hmem hlen hadv (hclear.mono (List.subset_append_left _ _))⟩)

theorem Complete.both {p : Parser α} {q : Parser β} {bound : Nat} {L : α → Language Token}
    {M : β → Language Token} {before after : List Kind} (h : Complete p bound L before)
    (h' : Complete q bound M after) (hshield : ∀ b, Shields (M b) after before) :
    Complete (both p q) bound (fun x => L x.1 * M x.2) after := by
  rintro here next ⟨a, b⟩ _ ⟨first, hfirst, second, hsecond, rfl⟩ hlen hadv hclear
  obtain ⟨middle, hadva, hadvb⟩ := hadv.split
  simp only [List.length_append] at hlen
  refine accepts_both.mpr ⟨middle, h hfirst (by omega) hadva ?_,
    h' hsecond (by omega) hadvb hclear⟩
  rw [hadvb.ahead]
  exact hshield b second hsecond _ hclear

/-- Something that may be empty behind, which must not look like the first going on. -/
theorem Complete.andMaybe {p : Parser α} {q : Parser β} {bound : Nat} {L : α → Language Token}
    {M : β → Language Token} {before after kinds : List Kind} (h : Complete p bound L before)
    (h' : Complete q bound M after) (hbegin : ∀ b, MayBegin kinds (M b))
    (hd : ∀ kind ∈ kinds, kind ∉ before) :
    Complete (Parser.both p q) bound (fun x => L x.1 * M x.2) (before ++ after) :=
  h.both (h'.mono le_rfl (fun _ => le_rfl) (List.subset_append_right _ _)) fun b =>
    (hbegin b).shields hd (List.subset_append_left _ _)

theorem Complete.left {p : Parser α} {q : Parser β} {bound : Nat} {L : α → Language Token}
    {M : β → Language Token} {N : Language Token} {before after : List Kind}
    (h : Complete p bound L before) (h' : Complete q bound M after)
    (hshield : ∀ b, Shields (M b) after before) (hspell : ∀ tokens ∈ N, ∃ b, tokens ∈ M b) :
    Complete (left p q) bound (fun a => L a * N) after := by
  refine (h.both h' hshield).map ?_
  rintro a _ ⟨first, hfirst, second, hsecond, rfl⟩
  obtain ⟨b, hb⟩ := hspell second hsecond
  exact ⟨(a, b), rfl, mem_mul hfirst hb⟩

theorem Complete.right {p : Parser α} {q : Parser β} {bound : Nat} {L : α → Language Token}
    {M : β → Language Token} {N : Language Token} {before after : List Kind}
    (h : Complete p bound L before) (h' : Complete q bound M after)
    (hshield : ∀ b, Shields (M b) after before) (hspell : ∀ tokens ∈ N, ∃ a, tokens ∈ L a) :
    Complete (right p q) bound (fun b => N * M b) after := by
  rintro here next b _ ⟨first, hfirst, second, hsecond, rfl⟩ hlen hadv hclear
  obtain ⟨a, ha⟩ := hspell first hfirst
  have hboth : Accepts (Parser.both p q) here (a, b) next :=
    h.both h' hshield (mem_mul ha hsecond) hlen hadv hclear
  obtain ⟨middle, hmiddle, hb⟩ := accepts_both.mp hboth
  exact accepts_right.mpr ⟨a, middle, hmiddle, hb⟩

theorem shields_of_nil (L : Language Token) (after : List Kind) : Shields L after [] :=
  fun _ _ _ _ _ _ => List.not_mem_nil

theorem exists_token_of_mem_sign {kind : Kind} :
    ∀ tokens ∈ sign kind, ∃ t : Token, tokens ∈ ({u | u = [t] ∧ t.kind = kind} : Language Token) :=
  fun _ ⟨t, ht, hkind⟩ => ⟨t, ht, hkind⟩

/-- A sign in front. -/
theorem Complete.after_sign {p : Parser α} {bound : Nat} {L : α → Language Token}
    {blocked : List Kind} (h : Complete p bound L blocked) (kind : Kind) :
    Complete (Parser.right (expect kind) p) bound (fun a => sign kind * L a) blocked :=
  (complete_expect kind bound).right h (fun _ => shields_of_nil _ _) exists_token_of_mem_sign

/-- A sign behind, which must not be one that the parser would take. -/
theorem Complete.before_sign {p : Parser α} {bound : Nat} {L : α → Language Token}
    {blocked : List Kind} (h : Complete p bound L blocked) {kind : Kind} (hkind : kind ∉ blocked) :
    Complete (Parser.left p (expect kind)) bound (fun a => L a * sign kind) [] := by
  refine h.left (complete_expect kind bound) (fun t => ?_) exists_token_of_mem_sign
  rintro _ ⟨rfl, ht⟩ rest -
  exact clear_cons (ht ▸ hkind)

/-- Two brackets take two tokens, so there may be one more token than without them. -/
theorem Complete.enclosed {p : Parser α} {bound : Nat} {L : α → Language Token}
    {blocked : List Kind} (h : Complete p bound L blocked) (opening : Kind) {closing : Kind}
    (hclosing : closing ∉ blocked) :
    Complete (delimited (expect opening) p (expect closing)) (bound + 1)
      (fun a => Spelling.enclosed opening closing (L a)) [] := by
  rintro here next a _ ⟨_, ⟨_, ⟨o, rfl, ho⟩, inner, hinner, rfl⟩, _, ⟨c, rfl, hc⟩, rfl⟩ hlen hadv -
  obtain ⟨stop, hadv, hadvc⟩ := hadv.split
  obtain ⟨start, hadvo, hadvi⟩ := hadv.split
  simp only [List.length_append, List.length_singleton] at hlen
  refine accepts_delimited.mpr ⟨o, c, start, stop, ?_, h hinner (by omega) hadvi ?_, ?_⟩
  · exact complete_expect opening 1 ⟨rfl, ho⟩ le_rfl hadvo fun _ _ => List.not_mem_nil
  · rw [hadvc.ahead]
    exact clear_cons (hc ▸ hclosing)
  · exact complete_expect closing 1 ⟨rfl, hc⟩ le_rfl hadvc fun _ _ => List.not_mem_nil

/-- The first alternative, where it goes through. -/
theorem Accepts.choice_here {p : Parser α} {ps : List (Parser α)} {here next : Cursor} {value : α}
    (h : Accepts p here value next) : Accepts (choice (p :: ps)) here value next :=
  accepts_choice_cons.mpr (.inl h)

/-- A later alternative, where the first one fails. -/
theorem Accepts.choice_later {p : Parser α} {ps : List (Parser α)} {here next : Cursor} {value : α}
    (h : Accepts (choice ps) here value next) (hrej : Rejects p here) :
    Accepts (choice (p :: ps)) here value next :=
  accepts_choice_cons.mpr (.inr ⟨hrej, h⟩)

/-! ### Parsers that one token decides -/

section Decisions

variable {p : Parser α} {bound : Nat} {L : α → Language Token} {blocked kinds : List Kind}

theorem Decides.mono {smaller : Nat} {M : α → Language Token} {more : List Kind}
    (h : Decides p bound L blocked kinds) (hbound : smaller ≤ bound) (hspell : ∀ a, M a ≤ L a)
    (hblocked : blocked ⊆ more) : Decides p smaller M more kinds :=
  ⟨h.complete.mono hbound hspell hblocked, h.refuses, fun a _ hmem => h.begins a _ (hspell a hmem)⟩

theorem decides_expect (kind : Kind) (bound : Nat) :
    Decides (expect kind) bound (fun t => {tokens | tokens = [t] ∧ t.kind = kind}) [] [kind] := by
  refine ⟨complete_expect kind bound, refuses_expect kind, ?_⟩
  rintro t _ ⟨rfl, ht⟩
  exact ⟨t, [], rfl, by simp [ht]⟩

theorem decides_keyword (text : String) (bound : Nat) :
    Decides (keyword text) bound
      (fun t => {tokens | tokens = [t] ∧ t.kind = .name ∧ t.text = text}) [] [.name] := by
  refine ⟨complete_keyword text bound, refuses_keyword text, ?_⟩
  rintro t _ ⟨rfl, ht, -⟩
  exact ⟨t, [], rfl, by simp [ht]⟩

theorem Decides.map {f : α → β} {M : β → Language Token} (h : Decides p bound L blocked kinds)
    (hspell : ∀ b, M b ≤ image f L b) : Decides (map f p) bound M blocked kinds := by
  refine ⟨h.complete.map hspell, h.refuses.map, fun b tokens hmem => ?_⟩
  obtain ⟨a, -, ha⟩ := hspell b hmem
  exact h.begins a tokens ha

theorem Decides.placed {f : Position → α → β} {M : β → Language Token}
    (h : Decides p bound L blocked kinds)
    (hspell : ∀ b, ∀ tokens ∈ M b, ∃ a, f (start tokens) a = b ∧ tokens ∈ L a) :
    Decides (placed f p) bound M blocked kinds := by
  refine ⟨h.complete.placed fun b tokens hmem => ?_, h.refuses.placed, fun b tokens hmem => ?_⟩
  · obtain ⟨a, hfa, ha⟩ := hspell b tokens hmem
    exact ⟨(h.begins a).ne_nil ha, a, hfa, ha⟩
  · obtain ⟨a, -, ha⟩ := hspell b tokens hmem
    exact h.begins a tokens ha

theorem Decides.both {q : Parser β} {M : β → Language Token} {after : List Kind}
    (h : Decides p bound L blocked kinds) (h' : Complete q bound M after)
    (hshield : ∀ b, Shields (M b) after blocked) :
    Decides (both p q) bound (fun x => L x.1 * M x.2) after kinds :=
  ⟨h.complete.both h' hshield, h.refuses.both, fun x => (h.begins x.1).mul⟩

theorem Decides.enclosed (h : Complete p bound L blocked) (opening : Kind) {closing : Kind}
    (hclosing : closing ∉ blocked) :
    Decides (delimited (expect opening) p (expect closing)) (bound + 1)
      (fun a => Spelling.enclosed opening closing (L a)) [] [opening] :=
  ⟨h.enclosed opening hclosing, (refuses_expect opening).right.left,
    fun _ => begins_enclosed _ _ _⟩

/-- A sign in front decides. -/
theorem Complete.behind (h : Complete p bound L blocked) (kind : Kind) :
    Decides (Parser.right (expect kind) p) bound (fun a => sign kind * L a) blocked [kind] :=
  ⟨h.after_sign kind, (refuses_expect kind).right, fun _ => (begins_sign kind).mul⟩

theorem Decides.choice_one (h : Decides p bound L blocked kinds) :
    Decides (choice [p]) bound L blocked kinds := by
  refine ⟨fun _ _ _ _ hmem hlen hadv hclear => ?_, Refuses.choice ?_, h.begins⟩
  · exact (h.complete hmem hlen hadv hclear).choice_here
  · simpa using h.refuses

/-- Alternatives that begin differently do not get into each other's way. -/
theorem Decides.choice_cons {ps : List (Parser α)} {M : α → Language Token} {others : List Kind}
    (h : Decides p bound L blocked kinds) (h' : Decides (choice ps) bound M blocked others)
    (hd : ∀ kind ∈ others, kind ∉ kinds) :
    Decides (choice (p :: ps)) bound (fun a => L a + M a) blocked (kinds ++ others) := by
  refine ⟨?_, ?_, ?_⟩
  · intro here next value taken hmem hlen hadv hclear
    rcases (Language.mem_add _ _ _).mp hmem with hmem | hmem
    · exact (h.complete hmem hlen hadv hclear).choice_here
    · refine (h'.complete hmem hlen hadv hclear).choice_later (h.refuses ?_)
      rw [hadv.ahead]
      exact (h'.begins value).clear hd hmem _
  · intro here hclear
    exact rejects_choice_cons.mpr ⟨h.refuses (hclear.mono (List.subset_append_left _ _)),
      h'.refuses (hclear.mono (List.subset_append_right _ _))⟩
  · intro a tokens hmem
    rcases (Language.mem_add _ _ _).mp hmem with hmem | hmem
    · exact (h.begins a).mono (List.subset_append_left _ _) tokens hmem
    · exact (h'.begins a).mono (List.subset_append_right _ _) tokens hmem

end Decisions

/-! ### Repetitions -/

theorem Decides.repeats {p : Parser α} {bound : Nat} {L : α → Language Token}
    {blocked kinds : List Kind} (h : Decides p bound L blocked kinds)
    (hd : ∀ kind ∈ kinds, kind ∉ blocked)
    {here next : Cursor} {values : List α} {taken : List Token} (hmem : taken ∈ inOrder L values)
    (hlen : taken.length ≤ bound) (hadv : here.Advances taken next)
    (hclear : Clear (blocked ++ kinds) next.ahead) : Repeats p here values next := by
  induction values generalizing here taken with
  | nil =>
      obtain rfl : taken = [] := hmem
      obtain rfl := eq_of_advances_nil hadv
      exact .stop (h.refuses (hclear.mono (List.subset_append_right _ _))).stops
  | cons value values ih =>
      obtain ⟨first, hfirst, rest, hrest, rfl⟩ := hmem
      obtain ⟨middle, hadva, hadvb⟩ := hadv.split
      simp only [List.length_append] at hlen
      have hmiddle : Clear blocked middle.ahead := by
        rw [hadvb.ahead]
        exact (mayBegin_inOrder h.begins values).shields hd (List.Subset.refl _) rest hrest _
          (hclear.mono (List.subset_append_left _ _))
      refine .more (h.complete hfirst (by omega) hadva hmiddle) ?_ (ih hrest (by omega) hadvb)
      rw [hadva.ahead, List.length_append]
      have := List.length_pos_of_ne_nil ((h.begins value).ne_nil hfirst)
      omega

theorem Decides.many {p : Parser α} {bound : Nat} {L : α → Language Token}
    {blocked kinds : List Kind} (h : Decides p bound L blocked kinds)
    (hd : ∀ kind ∈ kinds, kind ∉ blocked) :
    Complete (many p) bound (inOrder L) (blocked ++ kinds) :=
  fun _ _ _ _ hmem hlen hadv hclear =>
    accepts_many.mpr (h.repeats hd hmem hlen hadv hclear)

theorem Decides.many1 {p : Parser α} {bound : Nat} {L : α → Language Token}
    {blocked kinds : List Kind} (h : Decides p bound L blocked kinds)
    (hd : ∀ kind ∈ kinds, kind ∉ blocked) :
    Complete (many1 p) bound (fun values => {tokens | values ≠ [] ∧ tokens ∈ inOrder L values})
      (blocked ++ kinds) :=
  fun _ _ _ _ hmem hlen hadv hclear =>
    accepts_many1.mpr ⟨hmem.1, h.repeats hd hmem.2 hlen hadv hclear⟩

end Parser

end QueryBatching
