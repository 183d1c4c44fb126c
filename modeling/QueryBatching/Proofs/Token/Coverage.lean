/-
A scan loses nothing.

The tokens of a source text stand in it one behind the other, each at its offset and with the
characters that are its text, and the end of the input stands behind all of them.  What is left
between them means nothing: blanks, line terminators, byte order marks, and comments that go on
to the end of their lines.

`Covers` says so from some offset on, with the stretch in front of each token and the rest
behind it, so it goes along with the scan: what the scan passes over goes in front of the first
stretch, and a lexeme is a token with the rest behind it.  Slices, spans and gaps of the whole
text are then read off it by taking along what stands before the offset.
-/
import QueryBatching.Proofs.Token.Reading

namespace QueryBatching

open Lexeme (isIgnored isTerminator)
open Token (Kind)

/-! ### Bytes -/

namespace Text

/-- How many bytes the characters take. -/
def bytes (cs : List Char) : Nat := (String.ofList cs).utf8ByteSize

@[simp] theorem bytes_nil : bytes [] = 0 := rfl

@[simp] theorem bytes_toList (text : String) : bytes text.toList = text.utf8ByteSize := by
  rw [bytes, String.ofList_toList]

@[simp] theorem bytes_append (cs ds : List Char) : bytes (cs ++ ds) = bytes cs + bytes ds := by
  rw [bytes, String.ofList_append, String.utf8ByteSize_append]
  rfl

@[simp] theorem bytes_cons (c : Char) (cs : List Char) :
    bytes (c :: cs) = c.utf8Size + bytes cs := by
  rw [← List.singleton_append, bytes_append]
  congr 1
  rw [bytes, ← String.singleton_eq_ofList, String.utf8ByteSize_singleton]

end Text

open Text (bytes)

namespace Location

theorem offset_advance (here : Location) (c : Char) :
    (here.advance c).position.offset = here.position.offset + c.utf8Size := by
  unfold advance
  split
  · split <;> rfl
  · split <;> rfl

/-- Every character moves the location on by its own bytes. -/
theorem offset_advanceAll (here : Location) (cs : List Char) :
    (here.advanceAll cs).position.offset = here.position.offset + bytes cs := by
  induction cs generalizing here with
  | nil => rfl
  | cons c cs ih =>
      rw [advanceAll_cons, ih, offset_advance, Text.bytes_cons, Nat.add_assoc]

end Location

namespace Token

/-- The offset at which a token ends. -/
def stop (token : Token) : Nat := token.position.offset + token.text.utf8ByteSize

/-! ### What may stand between tokens -/

/--
Characters that mean nothing in front of `rest`: blanks, line terminators and byte order marks,
and comments, of which each goes on to the end of its line or of the text.
-/
inductive Ignorable (rest : List Char) : List Char → Prop
  | nil : Ignorable rest []
  | ignored {c : Char} {cs : List Char} (hc : isIgnored c = true) (h : Ignorable rest cs) :
    Ignorable rest (c :: cs)
  | comment {text cs : List Char} (htext : ∀ c ∈ text, isTerminator c = false)
      (hend : ∀ c ∈ (cs ++ rest).head?, isTerminator c = true) (h : Ignorable rest cs) :
    Ignorable rest ('#' :: (text ++ cs))

/-- From the offset on, the characters are the texts of the tokens, in their order and at their
offsets, with nothing that means anything between them. -/
inductive Covers : (offset : Nat) → List Char → List Token → Prop
  | ended {offset : Nat} {gap : List Char} {token : Token} (hgap : Ignorable [] gap)
      (hkind : token.kind = .endOfInput) (htext : token.text = "")
      (hoffset : token.position.offset = offset + bytes gap) :
    Covers offset gap [token]
  | token {offset : Nat} {gap rest : List Char} {token : Token} {tokens : List Token}
      (hgap : Ignorable (token.text.toList ++ rest) gap) (hkind : token.kind ≠ .endOfInput)
      (htext : token.text ≠ "") (hoffset : token.position.offset = offset + bytes gap)
      (hrest : Covers token.stop rest tokens) :
    Covers offset (gap ++ (token.text.toList ++ rest)) (token :: tokens)

/-- What means nothing wherever something meaningless follows goes in front of the first token. -/
theorem Covers.behind {offset : Nat} {front cs : List Char} {tokens : List Token}
    (h : Covers (offset + bytes front) cs tokens)
    (hfront : ∀ gap rest, cs = gap ++ rest → Ignorable rest gap → Ignorable rest (front ++ gap)) :
    Covers offset (front ++ cs) tokens := by
  cases h with
  | ended hgap hkind htext hoffset =>
      refine .ended (hfront cs [] (List.append_nil cs).symm hgap) hkind htext ?_
      rw [hoffset, Text.bytes_append, Nat.add_assoc]
  | token hgap hkind htext hoffset hrest =>
      rw [← List.append_assoc]
      refine .token (hfront _ _ rfl hgap) hkind htext ?_ hrest
      rw [hoffset, Text.bytes_append, Nat.add_assoc]

/-! ### The scan -/

theorem ofWord_ne_endOfInput (word : String) : Kind.ofWord word ≠ .endOfInput := by
  unfold Kind.ofWord
  repeat' split
  all_goals simp

theorem ofSign?_ne_endOfInput (c : Char) : Kind.ofSign? c ≠ some .endOfInput := by
  unfold Kind.ofSign?
  split <;> simp

/-- No lexeme is the end of the input. -/
theorem kind_ne_of_read {c : Char} {cs tail : List Char} {kind : Kind}
    (h : Lexeme.read c cs = .ok (kind, tail)) : kind ≠ .endOfInput := by
  rintro rfl
  unfold Lexeme.read at h
  split at h
  · rename_i kind hsign
    obtain ⟨rfl, -⟩ := Prod.mk.inj (Except.ok.inj h)
    exact ofSign?_ne_endOfInput c hsign
  · split at h
    · obtain ⟨_, -, hpair⟩ := Outcomes.map_eq_ok.mp h
      simp at hpair
    · split at h
      · obtain ⟨_, -, hpair⟩ := Outcomes.map_eq_ok.mp h
        simp at hpair
      · split at h
        · exact ofWord_ne_endOfInput _ (Prod.mk.inj (Except.ok.inj h)).1
        · split at h
          · obtain ⟨⟨_, _⟩, hnumber, hpair⟩ := Outcomes.map_eq_ok.mp h
            obtain ⟨_, _, part, power, -, -, -, rfl⟩ := Lexeme.numeral_of_number hnumber
            have hkind := (Prod.mk.inj hpair).1
            unfold Lexeme.numeralKind at hkind
            split at hkind <;> simp at hkind
          · simp at h

section Steps

variable {here : Location} {rest : List Char} {tokens : List Token}

/-- A character that means nothing is passed over. -/
theorem Covers.ignored {c : Char} (hc : isIgnored c = true)
    (h : Covers (here.advance c).position.offset rest tokens) :
    Covers here.position.offset (c :: rest) tokens := by
  rw [Location.offset_advance] at h
  rw [← List.singleton_append]
  refine Covers.behind (by simpa using h) fun gap rest _ hgap => ?_
  exact .ignored hc hgap

/-- A comment is passed over. -/
theorem Covers.comment {text : List Char} (htext : ∀ c ∈ text, isTerminator c = false)
    (hend : ∀ c ∈ rest.head?, isTerminator c = true)
    (h : Covers ((here.advance '#').advanceAll text).position.offset rest tokens) :
    Covers here.position.offset ('#' :: (text ++ rest)) tokens := by
  rw [Location.offset_advanceAll, Location.offset_advance, Nat.add_assoc,
    ← Text.bytes_cons] at h
  refine h.behind fun gap behind heq hgap => ?_
  exact .comment htext (heq ▸ hend) hgap

/-- A lexeme is a token. -/
theorem Covers.lexeme {c : Char} {tail : List Char} {kind : Kind} (hkind : kind ≠ .endOfInput)
    (h : Covers ((here.advance c).advanceAll tail).position.offset rest tokens) :
    Covers here.position.offset (c :: (tail ++ rest))
      (⟨kind, String.ofList (c :: tail), here.position⟩ :: tokens) := by
  rw [Location.offset_advanceAll, Location.offset_advance, Nat.add_assoc,
    ← Text.bytes_cons] at h
  have hsome : String.ofList (c :: tail) ≠ "" := by
    intro hnone
    have hchars := congrArg String.toList hnone
    simp at hchars
  have hcovers := @Covers.token here.position.offset [] rest
    ⟨kind, String.ofList (c :: tail), here.position⟩ tokens .nil hkind hsome rfl h
  rwa [List.nil_append, String.toList_ofList] at hcovers

end Steps

/-- **The tokens that are read cover the characters.** -/
theorem Reads.covers {here : Location} {cs : List Char} {tokens : List Token}
    (h : Reads here cs tokens) : Covers here.position.offset cs tokens := by
  induction h with
  | ended here => exact .ended .nil rfl rfl rfl
  | ignored hc _ ih => exact .ignored hc ih
  | comment htext hend _ ih => exact .comment htext hend ih
  | lexeme hread _ ih => exact .lexeme (kind_ne_of_read hread) ih

theorem covers_of_scanFrom {here : Location} {cs : List Char} {tokens : List Token}
    (h : collect (scanFrom 0 here cs) = .ok tokens) : Covers here.position.offset cs tokens :=
  (reads_of_collect h).covers

/-! ### Slices, spans and gaps -/

/-- The text stands in the source, and begins at the offset. -/
def StandsAt (source text : String) (offset : Nat) : Prop :=
  ∃ before after, source = before ++ text ++ after ∧ before.utf8ByteSize = offset

/-- What stands in the source from one offset to another means nothing. -/
def IsGap (source : String) (start stop : Nat) : Prop :=
  ∃ before gap after, source = before ++ gap ++ after ∧ before.utf8ByteSize = start ∧
    start + gap.utf8ByteSize = stop ∧ Ignorable after.toList gap.toList

/-- The tokens are all that the source says. -/
structure Lossless (source : String) (tokens : List Token) : Prop where
  /-- Each token has as its text what stands at its offset. -/
  slices : ∀ token ∈ tokens, StandsAt source token.text token.position.offset
  /-- No token begins before those in front of it end. -/
  spans : tokens.Pairwise fun a b => a.stop ≤ b.position.offset
  /-- The last is the empty end of the input behind the whole source, and no other is empty or the
  end of the input. -/
  ended : ∃ front last, tokens = front ++ [last] ∧ last.kind = .endOfInput ∧ last.text = "" ∧
    last.position.offset = source.utf8ByteSize ∧
    ∀ token ∈ front, token.kind ≠ .endOfInput ∧ token.text ≠ ""
  /-- What stands in front of the first token, and between each and the next, means nothing. -/
  gaps : ∀ gap ∈ (0 :: tokens.map stop).zip (tokens.map fun token => token.position.offset),
    IsGap source gap.1 gap.2

section Covers

variable {offset : Nat} {cs : List Char} {tokens : List Token} (h : Covers offset cs tokens)

include h

theorem Covers.offset_le : ∀ token ∈ tokens, offset ≤ token.position.offset := by
  induction h with
  | ended hgap hkind htext hoffset =>
      rw [List.forall_mem_singleton, hoffset]
      exact Nat.le_add_right _ _
  | token hgap hkind htext hoffset hrest ih =>
      refine List.forall_mem_cons.mpr ⟨hoffset ▸ Nat.le_add_right _ _, fun other hother => ?_⟩
      have hle := ih other hother
      rw [stop, hoffset] at hle
      omega

/-- A token begins where those in front of it have ended. -/
theorem Covers.spans : tokens.Pairwise fun a b => a.stop ≤ b.position.offset := by
  induction h with
  | ended hgap hkind htext hoffset => exact List.pairwise_singleton _ _
  | token hgap hkind htext hoffset hrest ih => exact .cons hrest.offset_le ih

theorem Covers.ended_eq : ∃ front last, tokens = front ++ [last] ∧ last.kind = .endOfInput ∧
    last.text = "" ∧ last.position.offset = offset + bytes cs ∧
    ∀ token ∈ front, token.kind ≠ .endOfInput ∧ token.text ≠ "" := by
  induction h with
  | ended hgap hkind htext hoffset =>
      exact ⟨[], _, rfl, hkind, htext, hoffset, fun _ hmem => absurd hmem List.not_mem_nil⟩
  | @token offset gap rest token tokens hgap hkind htext hoffset hrest ih =>
      obtain ⟨front, last, rfl, hlast, hempty, hend, hfront⟩ := ih
      refine ⟨token :: front, last, rfl, hlast, hempty, ?_,
        List.forall_mem_cons.mpr ⟨⟨hkind, htext⟩, hfront⟩⟩
      simp only [hend, stop, hoffset, Text.bytes_append, Text.bytes_toList]
      omega

/-- What stands in front of the characters does not change what they are. -/
theorem Covers.slices {before : String} (hbefore : before.utf8ByteSize = offset) :
    ∀ token ∈ tokens,
      StandsAt (before ++ String.ofList cs) token.text token.position.offset := by
  induction h generalizing before with
  | @ended offset gap token hgap hkind htext hoffset =>
      rw [List.forall_mem_singleton]
      refine ⟨before ++ String.ofList gap, "", by simp [htext], ?_⟩
      rw [String.utf8ByteSize_append, hbefore, hoffset, bytes]
  | @token offset gap rest token tokens hgap hkind htext hoffset hrest ih =>
      have hfront : (before ++ String.ofList gap).utf8ByteSize = token.position.offset := by
        rw [String.utf8ByteSize_append, hbefore, hoffset, bytes]
      have hsource : before ++ String.ofList (gap ++ (token.text.toList ++ rest)) =
          before ++ String.ofList gap ++ token.text ++ String.ofList rest := by
        simp [String.ofList_append, String.append_assoc]
      rw [hsource]
      refine List.forall_mem_cons.mpr ⟨⟨_, _, rfl, hfront⟩, ih ?_⟩
      rw [String.utf8ByteSize_append, hfront, stop]

theorem Covers.gaps {before : String} (hbefore : before.utf8ByteSize = offset) :
    ∀ gap ∈ (offset :: tokens.map stop).zip (tokens.map fun token => token.position.offset),
      IsGap (before ++ String.ofList cs) gap.1 gap.2 := by
  induction h generalizing before with
  | @ended offset gap token hgap hkind htext hoffset =>
      rw [List.map_singleton, List.map_singleton, List.zip_cons_cons, List.zip_nil_right,
        List.forall_mem_singleton]
      refine ⟨before, String.ofList gap, "", by simp, hbefore, hoffset.symm, ?_⟩
      simpa using hgap
  | @token offset gap rest token tokens hgap hkind htext hoffset hrest ih =>
      have hsource : before ++ String.ofList (gap ++ (token.text.toList ++ rest)) =
          before ++ String.ofList gap ++ token.text ++ String.ofList rest := by
        simp [String.ofList_append, String.append_assoc]
      rw [List.map_cons, List.map_cons, List.zip_cons_cons, List.forall_mem_cons]
      constructor
      · refine ⟨before, String.ofList gap, String.ofList (token.text.toList ++ rest),
          by simp [String.ofList_append, String.append_assoc], hbefore, hoffset.symm, ?_⟩
        simpa using hgap
      · rw [hsource]
        refine ih ?_
        rw [String.utf8ByteSize_append, String.utf8ByteSize_append, hbefore, stop, hoffset, bytes]

end Covers

/--
**Reading a text as tokens loses nothing.**  Each token is what stands at its offset, the tokens
stand one behind the other, the end of the input is the last of them and no other is empty, and
between them there is nothing but blanks, line terminators, byte order marks and comments.
-/
theorem lossless_of_tokenize {source : String} {tokens : List Token}
    (h : tokenize source = .ok tokens) : Lossless source tokens := by
  have hcovers : Covers 0 source.toList tokens := @covers_of_scanFrom {} _ _ h
  have hsource : "" ++ String.ofList source.toList = source := by simp
  obtain ⟨front, last, htokens, hkind, hempty, hend, hfront⟩ := hcovers.ended_eq
  rw [Text.bytes_toList, Nat.zero_add] at hend
  exact {
    slices := hsource ▸ hcovers.slices rfl
    spans := hcovers.spans
    ended := ⟨front, last, htokens, hkind, hempty, hend, hfront⟩
    gaps := hsource ▸ hcovers.gaps rfl }

/-- A byte order mark, a comment at the end of a line and one at the end of the text, and strings
with a comment sign, a quote and characters of several bytes in them. -/
theorem lossless_of_tokenize_comments :
    ∃ tokens, tokenize "\uFEFF\x7b a(s: \"# é\\\" 😀\",-1.5) # b\r\n...F\t\x7d #ü" = .ok tokens ∧
      Lossless "\uFEFF\x7b a(s: \"# é\\\" 😀\",-1.5) # b\r\n...F\t\x7d #ü" tokens := by
  have hread : (tokenize
      "\uFEFF\x7b a(s: \"# é\\\" 😀\",-1.5) # b\r\n...F\t\x7d #ü").isOk = true := by
    decide +kernel
  obtain ⟨tokens, htokens⟩ := Outcomes.exists_of_isOk hread
  exact ⟨tokens, htokens, lossless_of_tokenize htokens⟩

end Token

end QueryBatching
