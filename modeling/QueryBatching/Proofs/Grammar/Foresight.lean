/-
Failures that a parser foresees.

`Foresees p spell` says three things.  What `p` accepts is spelled by what it took.  It takes no
end of the input.  And each failure it meets is foreseen: the tokens up to where the failure
stands can be gone on with to a spelling, and so they can with some token of each kind that is
expected behind them.  So no kind is reported as expected that would only lead to another
failure.

A parser in front of others may fail where these would have gone on, and a parser behind
others is reached with what they took, so both need that everything else can be spelled at
all; this is part of the property.
-/
import QueryBatching.Proofs.Grammar.Sound
import QueryBatching.Proofs.Parse.Failures

namespace QueryBatching

open Token (Kind)
open Parse (Cursor Failure)

theorem Parse.Cursor.Advances.unique {here stop stop' : Cursor} {seen seen' : List Token}
    (h : here.Advances seen stop) (h' : here.Advances seen' stop')
    (hindex : stop.index = stop'.index) : seen = seen' ∧ stop = stop' := by
  have hlength : seen.length = seen'.length := by
    have := h.index
    have := h'.index
    omega
  obtain ⟨hseen, hahead⟩ := List.append_inj (h.ahead.symm.trans h'.ahead) hlength
  obtain ⟨index, ahead⟩ := stop
  obtain ⟨index', ahead'⟩ := stop'
  exact ⟨hseen, by rw [Cursor.mk.injEq]; exact ⟨hindex, hahead⟩⟩

/-! ### Beginnings of spellings -/

namespace Spelling

variable {α β : Type}

/-- What can be gone on with to the spelling of something. -/
def fronts (spell : α → Language Token) : Language Token :=
  {tokens | ∃ a rest, tokens ++ rest ∈ spell a}

/-- Tokens none of which is the end of the input. -/
def inside : Language Token := {tokens | ∀ t ∈ tokens, t.kind ≠ .endOfInput}

/-- The kinds of tokens that a document has before its end, without commas. -/
def isInner : Kind → Bool
  | .comma | .endOfInput => false
  | _ => true

theorem ne_of_isInner {kind : Kind} (h : isInner kind = true) :
    kind ≠ .comma ∧ kind ≠ .endOfInput := by
  constructor
  · rintro rfl
    exact absurd h Bool.false_ne_true
  · rintro rfl
    exact absurd h Bool.false_ne_true

/-- There is something that can be spelled. -/
def Inhabits (spell : α → Language Token) : Prop := ∃ a tokens, tokens ∈ spell a

theorem fronts_le {L : α → Language Token} {M : β → Language Token}
    (h : ∀ a, ∀ tokens ∈ L a, ∃ b, tokens ∈ M b) : fronts L ≤ fronts M := by
  rintro tokens ⟨a, rest, hmem⟩
  obtain ⟨b, hb⟩ := h a _ hmem
  exact ⟨b, rest, hb⟩

theorem Inhabits.imp {L : α → Language Token} {M : β → Language Token} (hL : Inhabits L)
    (h : ∀ a, ∀ tokens ∈ L a, ∃ b, tokens ∈ M b) : Inhabits M := by
  obtain ⟨a, tokens, hmem⟩ := hL
  obtain ⟨b, hb⟩ := h a tokens hmem
  exact ⟨b, tokens, hb⟩

theorem Inhabits.nil_mem_fronts {L : α → Language Token} (h : Inhabits L) : [] ∈ fronts L :=
  let ⟨a, tokens, hmem⟩ := h
  ⟨a, tokens, hmem⟩

theorem mem_fronts {L : α → Language Token} {a : α} {tokens : List Token} (h : tokens ∈ L a) :
    tokens ∈ fronts L :=
  ⟨a, [], by rwa [List.append_nil]⟩

/-- The beginnings of a first part are beginnings of the whole, if there is a second part. -/
theorem fronts_le_mul {L : α → Language Token} {M : β → Language Token} (h : Inhabits M) :
    fronts L ≤ fronts fun x : α × β => L x.1 * M x.2 := by
  rintro tokens ⟨a, rest, hmem⟩
  obtain ⟨b, others, hb⟩ := h
  exact ⟨(a, b), rest ++ others, List.append_assoc tokens rest others ▸ mem_mul hmem hb⟩

/-- The beginnings of a second part are beginnings of the whole behind a first part. -/
theorem append_mem_fronts_mul {L : α → Language Token} {M : β → Language Token} {a : α}
    {first seen : List Token} (h : first ∈ L a) (h' : seen ∈ fronts M) :
    first ++ seen ∈ fronts fun x : α × β => L x.1 * M x.2 := by
  obtain ⟨b, rest, hb⟩ := h'
  exact ⟨(a, b), rest, (List.append_assoc first seen rest).symm ▸ mem_mul h hb⟩

theorem nil_mem_inside : [] ∈ inside := fun _ ht => absurd ht List.not_mem_nil

theorem append_mem_inside {first second : List Token} (h : first ∈ inside)
    (h' : second ∈ inside) : first ++ second ∈ inside := by
  intro t ht
  rcases List.mem_append.mp ht with ht | ht
  · exact h t ht
  · exact h' t ht

theorem inside_mul_le : inside * inside ≤ inside := by
  rintro _ ⟨first, hfirst, second, hsecond, rfl⟩
  exact append_mem_inside hfirst hsecond

theorem inOrder_inside_le {spell : α → Language Token} (h : ∀ a, spell a ≤ inside)
    (values : List α) : inOrder spell values ≤ inside := by
  induction values with
  | nil =>
      rintro _ rfl
      exact nil_mem_inside
  | cons value values ih =>
      rintro _ ⟨first, hfirst, second, hsecond, rfl⟩
      exact append_mem_inside (h value hfirst) (ih hsecond)

theorem inOrder_concat (spell : α → Language Token) (values : List α) (value : α) :
    inOrder spell (values ++ [value]) = inOrder spell values * spell value := by
  induction values with
  | nil => simp only [List.nil_append, inOrder, mul_one, one_mul]
  | cons first values ih => simp only [List.cons_append, inOrder, ih, mul_assoc]

end Spelling

open Spelling

/-! ### Foreseen failures -/

namespace Parser

variable {α β γ : Type}

/-- What is reported of a failure can be gone on with: what has been taken up to it, and some token
of each expected kind behind that. -/
structure Foreseen (viable : Language Token) (here : Cursor) (failure : Failure) : Prop where
  nodup : failure.expected.Nodup
  reaches : ∃ seen stop, here.Advances seen stop ∧ failure.index = stop.index ∧
    seen ∈ inside ∧ seen ∈ viable ∧
      ∀ kind ∈ failure.expected, kind ≠ .comma ∧ ∃ t : Token, t.kind = kind ∧ seen ++ [t] ∈ viable

namespace Foreseen

variable {V W : Language Token} {here : Cursor} {failure : Failure}

theorem mono (h : Foreseen V here failure) (hle : V ≤ W) : Foreseen W here failure := by
  obtain ⟨hnodup, seen, stop, hadv, hindex, hinside, hseen, hkinds⟩ := h
  refine ⟨hnodup, seen, stop, hadv, hindex, hinside, hle hseen, fun kind hkind => ?_⟩
  obtain ⟨hcomma, t, ht, hmem⟩ := hkinds kind hkind
  exact ⟨hcomma, t, ht, hle hmem⟩

/-- What is foreseen behind some tokens is foreseen before them. -/
theorem behind {middle : Cursor} {taken : List Token} (h : Foreseen V middle failure)
    (hadv : here.Advances taken middle) (hinside : taken ∈ inside)
    (hle : ∀ seen ∈ V, taken ++ seen ∈ W) : Foreseen W here failure := by
  obtain ⟨hnodup, seen, stop, hadv', hindex, hinside', hseen, hkinds⟩ := h
  refine ⟨hnodup, taken ++ seen, stop, hadv.trans hadv', hindex,
    append_mem_inside hinside hinside', hle seen hseen, fun kind hkind => ?_⟩
  obtain ⟨hcomma, t, ht, hmem⟩ := hkinds kind hkind
  exact ⟨hcomma, t, ht, by rw [List.append_assoc]; exact hle _ hmem⟩

/-- Nothing is expected. -/
theorem nothing (h : [] ∈ V) : Foreseen V here ⟨here.index, []⟩ :=
  ⟨List.nodup_nil, [], here, .refl here, rfl, nil_mem_inside, h, nofun⟩

/-- One token is expected. -/
theorem single {t : Token} (h : [] ∈ V) (ht : [t] ∈ V) (hcomma : t.kind ≠ .comma) :
    Foreseen V here ⟨here.index, [t.kind]⟩ := by
  refine ⟨List.nodup_singleton _, [], here, .refl here, rfl, nil_mem_inside, h, ?_⟩
  intro kind hkind
  obtain rfl := List.mem_singleton.mp hkind
  exact ⟨hcomma, t, rfl, ht⟩

/-- Two failures that are foreseen are foreseen together. -/
theorem mergeClosed (V : Language Token) (here : Cursor) :
    Failure.MergeClosed (Foreseen V here) := by
  refine Failure.MergeClosed.of_isMerge fun a b c hmerge ha hb => ?_
  cases hmerge with
  | second => exact hb
  | first => exact ha
  | union heq expected hmem hnodup =>
      obtain ⟨hnodupa, seen, stop, hadv, hindex, hinside, hseen, hkinds⟩ := ha
      obtain ⟨-, seen', stop', hadv', hindex', -, -, hkinds'⟩ := hb
      obtain ⟨rfl, rfl⟩ := hadv.unique hadv' (by rw [← hindex, ← hindex', heq])
      refine ⟨hnodup hnodupa, seen, stop, hadv, hindex, hinside, hseen, fun kind hkind => ?_⟩
      rcases (hmem kind).mp hkind with hkind | hkind
      · exact hkinds kind hkind
      · exact hkinds' kind hkind

end Foreseen

/-- The parser reads what is spelled, takes no end of the input, and foresees its failures. -/
structure Foresees (p : Parser α) (spell : α → Language Token) : Prop where
  sound : Sound p spell
  inside : Sound p fun _ => Spelling.inside
  foreseen : ∀ here, MeetsOnly p here (Foreseen (fronts spell) here)
  inhabits : Inhabits spell

namespace Foresees

theorem takes {p : Parser α} {L : α → Language Token} (h : Foresees p L) {here next : Cursor}
    {value : α} (hacc : Accepts p here value next) :
    ∃ taken ∈ L value, taken ∈ Spelling.inside ∧ here.Advances taken next := by
  obtain ⟨taken, hmem, hadv⟩ := h.sound hacc
  obtain ⟨taken', hinside, hadv'⟩ := h.inside hacc
  obtain ⟨rfl, -⟩ := hadv.unique hadv' rfl
  exact ⟨taken, hmem, hinside, hadv⟩

theorem mono {p : Parser α} {L M : α → Language Token} (h : Foresees p L)
    (hle : ∀ a, L a ≤ M a) : Foresees p M where
  sound := h.sound.mono hle
  inside := h.inside
  foreseen here := (h.foreseen here).mono fun _ hf =>
    hf.mono (fronts_le fun a _ hmem => ⟨a, hle a hmem⟩)
  inhabits := h.inhabits.imp fun a _ hmem => ⟨a, hle a hmem⟩

/-! ### Combinators -/

theorem stop {L : α → Language Token} (h : Inhabits L) : Foresees Parser.stop L where
  sound := sound_stop L
  inside := sound_stop _
  foreseen _ := meetsOnly_stop (.nothing h.nil_mem_fronts)
  inhabits := h

theorem token {accepts : Token → Bool} {kind : Kind} (hcomma : kind ≠ .comma)
    (hinside : ∀ t, accepts t = true → t.kind ≠ .endOfInput) {t : Token} (hkind : t.kind = kind)
    (ht : accepts t = true) :
    Foresees (Parser.token accepts kind) fun t => {tokens | tokens = [t] ∧ accepts t = true} where
  sound := sound_token accepts kind
  inside := (sound_token accepts kind).mono fun u tokens hu v hv => by
    obtain ⟨rfl, hyes⟩ := hu
    exact List.mem_singleton.mp hv ▸ hinside u hyes
  foreseen here := meetsOnly_token <| by
    have hone : [t] ∈ fronts fun t => {tokens : List Token | tokens = [t] ∧ accepts t = true} :=
      mem_fronts ⟨rfl, ht⟩
    exact hkind ▸ .single ⟨t, [t], rfl, ht⟩ hone (hkind ▸ hcomma)
  inhabits := ⟨t, [t], rfl, ht⟩

theorem word (kind : Kind) (h : isInner kind = true) :
    Foresees (Parser.expect kind) fun t => Spelling.word kind t.text := by
  obtain ⟨hcomma, hend⟩ := ne_of_isInner h
  have hinside : ∀ t : Token, decide (t.kind = kind) = true → t.kind ≠ .endOfInput :=
    fun t ht => of_decide_eq_true ht ▸ hend
  refine (token hcomma hinside (t := ⟨kind, "", {}⟩) rfl (decide_eq_true rfl)).mono ?_
  rintro t _ ⟨rfl, hkind⟩
  exact mem_word (of_decide_eq_true hkind) rfl

theorem expect (kind : Kind) (h : isInner kind = true) :
    Foresees (Parser.expect kind) fun _ => sign kind := by
  refine (word kind h).mono ?_
  rintro t _ ⟨u, rfl, hkind, -⟩
  exact mem_sign hkind

theorem keyword (text : String) : Foresees (Parser.keyword text) fun _ => ident text := by
  have hword : ∀ t : Token, t.isWord text = true ↔ t.kind = .name ∧ t.text = text := by
    intro t
    rw [Token.isWord, Bool.and_eq_true, decide_eq_true_iff, decide_eq_true_iff]
  have hcomma : Kind.name ≠ .comma := by decide
  refine (token hcomma (fun t ht => ?_) (t := ⟨.name, text, {}⟩) rfl
    ((hword _).mpr ⟨rfl, rfl⟩)).mono ?_
  · rw [((hword t).mp ht).1]
    decide
  · rintro t _ ⟨rfl, ht⟩
    exact mem_word ((hword t).mp ht).1 ((hword t).mp ht).2

theorem map {p : Parser α} {L : α → Language Token} {f : α → β} {M : β → Language Token}
    (h : Foresees p L) (hle : ∀ a, L a ≤ M (f a)) : Foresees (Parser.map f p) M where
  sound := h.sound.map hle
  inside := h.inside.map fun _ => le_rfl
  foreseen here := ((h.foreseen here).mono fun _ hf =>
    hf.mono (fronts_le fun a _ hmem => ⟨f a, hle a hmem⟩)).map
  inhabits := h.inhabits.imp fun a _ hmem => ⟨f a, hle a hmem⟩

theorem placed {p : Parser α} {L : α → Language Token} {f : Position → α → β}
    {M : β → Language Token} (h : Foresees p L)
    (hle : ∀ a, ∀ tokens ∈ L a, tokens ≠ [] ∧ tokens ∈ M (f (start tokens) a)) :
    Foresees (Parser.placed f p) M where
  sound := h.sound.placed hle
  inside := by
    intro here value next hacc
    obtain ⟨a, -, ha⟩ := accepts_placed.mp hacc
    exact h.inside ha
  foreseen here := ((h.foreseen here).mono fun _ hf =>
    hf.mono (fronts_le fun a tokens hmem => ⟨_, (hle a tokens hmem).2⟩)).placed
  inhabits := h.inhabits.imp fun a tokens hmem => ⟨_, (hle a tokens hmem).2⟩

theorem optional {p : Parser α} {L : α → Language Token} (h : Foresees p L) :
    Foresees (Parser.optional p) (orNothing L) where
  sound := h.sound.optional
  inside := h.inside.optional.mono fun value? => by
    cases value? with
    | none =>
        rintro _ rfl
        exact nil_mem_inside
    | some value => exact le_rfl
  foreseen here := ((h.foreseen here).mono fun _ hf =>
    hf.mono (fronts_le fun a _ hmem => ⟨some a, hmem⟩)).optional
  inhabits := ⟨none, [], rfl⟩

section Sequences

variable {p : Parser α} {q : Parser β} {L : α → Language Token} {M : β → Language Token}

/-- The failures of the first part are foreseen for the whole. -/
theorem foreseen_first (h : Foresees p L) (hM : Inhabits M) (here : Cursor) :
    MeetsOnly p here (Foreseen (fronts fun x : α × β => L x.1 * M x.2) here) :=
  (h.foreseen here).mono fun _ hf => hf.mono (fronts_le_mul hM)

/-- The failures of the second part, behind what the first one took, are foreseen for the whole. -/
theorem foreseen_second (h : Foresees p L)
    (h' : ∀ middle, MeetsOnly q middle (Foreseen (fronts M) middle)) {here middle : Cursor} {a : α}
    (hacc : Accepts p here a middle) :
    MeetsOnly q middle (Foreseen (fronts fun x : α × β => L x.1 * M x.2) here) := by
  obtain ⟨taken, hmem, hinside, hadv⟩ := h.takes hacc
  exact (h' middle).mono fun _ hf =>
    hf.behind hadv hinside fun _ hseen => append_mem_fronts_mul hmem hseen

theorem both (h : Foresees p L) (h' : Foresees q M) :
    Foresees (Parser.both p q) fun x => L x.1 * M x.2 where
  sound := h.sound.both h'.sound
  inside := (h.inside.both h'.inside).mono fun _ => inside_mul_le
  foreseen here := (h.foreseen_first h'.inhabits here).both (Foreseen.mergeClosed _ _)
    fun _ _ hacc => h.foreseen_second h'.foreseen hacc
  inhabits := by
    obtain ⟨a, first, hfirst⟩ := h.inhabits
    obtain ⟨b, second, hsecond⟩ := h'.inhabits
    exact ⟨(a, b), first ++ second, mem_mul hfirst hsecond⟩

theorem left {N : Language Token} (h : Foresees p L) (h' : Foresees q fun _ => N) :
    Foresees (Parser.left p q) fun a => L a * N :=
  (h.both h').map fun _ => le_rfl

theorem right {N : Language Token} (h : Foresees p fun _ => N) (h' : Foresees q M) :
    Foresees (Parser.right p q) fun b => N * M b where
  sound := h.sound.right h'.sound
  inside := (h.inside.right h'.inside).mono fun _ => inside_mul_le
  foreseen here := ((h.foreseen_first h'.inhabits here).right (Foreseen.mergeClosed _ _)
    fun _ _ hacc => h.foreseen_second h'.foreseen hacc).mono fun _ hf =>
      hf.mono (fronts_le fun x _ hmem => ⟨x.2, hmem⟩)
  inhabits := (h.both h').inhabits.imp fun x _ hmem => ⟨x.2, hmem⟩

end Sequences

theorem enclosed {p : Parser α} {L : α → Language Token} (h : Foresees p L) (opening closing : Kind)
    (hopening : isInner opening = true) (hclosing : isInner closing = true) :
    Foresees (delimited (Parser.expect opening) p (Parser.expect closing)) fun a =>
      Spelling.enclosed opening closing (L a) :=
  ((expect opening hopening).right h).left (expect closing hclosing)

theorem choice {p : Parser α} {ps : List (Parser α)} {L : α → Language Token}
    (h : ∀ q ∈ p :: ps, Foresees q L) : Foresees (Parser.choice (p :: ps)) L where
  sound := Sound.choice fun q hq => (h q hq).sound
  inside := Sound.choice fun q hq => (h q hq).inside
  foreseen here := MeetsOnly.choice (Foreseen.mergeClosed _ _)
    (fun q hq => (h q hq).foreseen here)
    (.nothing (h p List.mem_cons_self).inhabits.nil_mem_fronts)
  inhabits := (h p List.mem_cons_self).inhabits

/-! ### Repetitions -/

section Repetitions

variable {p : Parser α} {L : α → Language Token} (h : Foresees p L)

include h

/-- The spellings of a list that is not empty. -/
private theorem inhabits_many1 :
    Inhabits fun values => {tokens : List Token | values ≠ [] ∧ tokens ∈ inOrder L values} := by
  obtain ⟨a, tokens, hmem⟩ := h.inhabits
  exact ⟨[a], tokens ++ [], List.cons_ne_nil _ _, mem_mul hmem rfl⟩

/-- At every cursor that a repetition comes to, the failures are foreseen from where it began. -/
private theorem foreseen_repeated {here middle : Cursor} {values : List α} {taken : List Token}
    (hmem : taken ∈ inOrder L values) (hinside : taken ∈ Spelling.inside)
    (hadv : here.Advances taken middle) :
    MeetsOnly p middle (Foreseen (fronts fun values =>
      {tokens : List Token | values ≠ [] ∧ tokens ∈ inOrder L values}) here) := by
  refine (h.foreseen middle).mono fun _ hf => hf.behind hadv hinside fun seen hseen => ?_
  obtain ⟨a, rest, ha⟩ := hseen
  refine ⟨values ++ [a], rest, List.append_ne_nil_of_right_ne_nil _ (List.cons_ne_nil _ _), ?_⟩
  rw [inOrder_concat, List.append_assoc]
  exact mem_mul hmem ha

/-- What a repetition has taken when it comes to a cursor. -/
private def Repeated (L : α → Language Token) (here middle : Cursor) : Prop :=
  ∃ values taken, taken ∈ inOrder L values ∧ taken ∈ Spelling.inside ∧ here.Advances taken middle

private theorem repeated_step {here middle next : Cursor} {a : α} (hmiddle : Repeated L here middle)
    (hacc : Accepts p middle a next) : Repeated L here next := by
  obtain ⟨values, taken, hmem, hinside, hadv⟩ := hmiddle
  obtain ⟨more, hmore, hinside', hadv'⟩ := h.takes hacc
  refine ⟨values ++ [a], taken ++ more, ?_, append_mem_inside hinside hinside', hadv.trans hadv'⟩
  rw [inOrder_concat]
  exact mem_mul hmem hmore

theorem many1 : Foresees (Parser.many1 p) fun values =>
    {tokens | values ≠ [] ∧ tokens ∈ inOrder L values} where
  sound := h.sound.many1
  inside := h.inside.many1.mono fun values _ hmem =>
    inOrder_inside_le (fun _ => le_rfl) values hmem.2
  foreseen here := meetsOnly_many1 (Foreseen.mergeClosed _ _)
    (fun _ ⟨_, _, hmem, hinside, hadv⟩ => foreseen_repeated h hmem hinside hadv)
    (fun _ _ _ hmiddle hacc => repeated_step h hmiddle hacc)
    ⟨[], [], rfl, nil_mem_inside, .refl here⟩ (.nothing (inhabits_many1 h).nil_mem_fronts)
  inhabits := inhabits_many1 h

theorem many : Foresees (Parser.many p) (inOrder L) where
  sound := h.sound.many
  inside := h.inside.many.mono fun values => inOrder_inside_le (fun _ => le_rfl) values
  foreseen here := (meetsOnly_many (Foreseen.mergeClosed _ _)
    (fun _ ⟨_, _, hmem, hinside, hadv⟩ => foreseen_repeated h hmem hinside hadv)
    (fun _ _ _ hmiddle hacc => repeated_step h hmiddle hacc)
    ⟨[], [], rfl, nil_mem_inside, .refl here⟩).mono fun _ hf =>
      hf.mono (fronts_le fun values _ hmem => ⟨values, hmem.2⟩)
  inhabits := ⟨[], [], rfl⟩

end Repetitions

section Separated

variable {item : Parser α} {separator : Parser β} {L : α → Language Token} {S : Language Token}

/-- What a repetition with separators has taken when it comes to a cursor. -/
private def Separated (S : Language Token) (L : α → Language Token) (here middle : Cursor) : Prop :=
  ∃ first rest taken, taken ∈ separatedSpellings S L (first :: rest) ∧ taken ∈ Spelling.inside ∧
    here.Advances taken middle

/-- One more item behind those that a repetition has taken. -/
private theorem append_mem_separated {first : α} {rest : List α} {taken more : List Token} {a : α}
    (h : taken ∈ separatedSpellings S L (first :: rest)) (hmore : more ∈ S * L a) :
    taken ++ more ∈ separatedSpellings S L (first :: (rest ++ [a])) := by
  obtain ⟨front, hfront, back, hback, rfl⟩ := h
  rw [separatedSpellings, inOrder_concat, List.append_assoc]
  exact mem_mul hfront (mem_mul hback hmore)

theorem separatedBy (h : Foresees item L) (h' : Foresees separator fun _ => S) :
    Foresees (Parser.separatedBy item separator) (separatedSpellings S L) where
  sound := h.sound.separatedBy h'.sound
  inside := (h.inside.separatedBy h'.inside).mono fun values => by
    cases values with
    | nil =>
        rintro _ rfl
        exact nil_mem_inside
    | cons first rest =>
        rintro _ ⟨front, hfront, back, hback, rfl⟩
        exact append_mem_inside hfront (inOrder_inside_le (fun _ => inside_mul_le) rest hback)
  foreseen here := by
    have hgap : ∀ middle, Separated S L here middle →
        MeetsOnly separator middle (Foreseen (fronts (separatedSpellings S L)) here) := by
      rintro middle ⟨first, rest, taken, hmem, hinside, hadv⟩
      refine (h'.foreseen middle).mono fun _ hf => hf.behind hadv hinside fun seen hseen => ?_
      obtain ⟨_, others, hgap⟩ := hseen
      obtain ⟨a, tokens, ha⟩ := h.inhabits
      refine ⟨first :: (rest ++ [a]), others ++ tokens, ?_⟩
      rw [List.append_assoc, ← List.append_assoc seen]
      exact append_mem_separated hmem (mem_mul hgap ha)
    have hitem : ∀ middle gap next, Separated S L here middle → Accepts separator middle gap next →
        MeetsOnly item next (Foreseen (fronts (separatedSpellings S L)) here) := by
      rintro middle gap next ⟨first, rest, taken, hmem, hinside, hadv⟩ hacc
      obtain ⟨between, hbetween, hinside', hadv'⟩ := h'.takes hacc
      refine (h.foreseen next).mono fun _ hf => hf.behind (hadv.trans hadv')
        (append_mem_inside hinside hinside') fun seen hseen => ?_
      obtain ⟨a, others, ha⟩ := hseen
      refine ⟨first :: (rest ++ [a]), others, ?_⟩
      rw [List.append_assoc, List.append_assoc]
      exact append_mem_separated hmem (mem_mul hbetween ha)
    have hstep : ∀ middle gap start a next, Separated S L here middle →
        Accepts separator middle gap start → Accepts item start a next →
          Separated S L here next := by
      rintro middle gap start a next ⟨first, rest, taken, hmem, hinside, hadv⟩ hacc hacc'
      obtain ⟨between, hbetween, hinside', hadv'⟩ := h'.takes hacc
      obtain ⟨more, hmore, hinside'', hadv''⟩ := h.takes hacc'
      exact ⟨first, rest ++ [a], taken ++ (between ++ more),
        append_mem_separated hmem (mem_mul hbetween hmore),
        append_mem_inside hinside (append_mem_inside hinside' hinside''),
        hadv.trans (hadv'.trans hadv'')⟩
    refine meetsOnly_separatedBy (Foreseen.mergeClosed _ _) hgap hitem hstep ?_ ?_
    · exact (h.foreseen here).mono fun _ hf => hf.mono (fronts_le fun a _ hmem =>
        ⟨[a], separatedSpellings_singleton S L a ▸ hmem⟩)
    · intro a next hacc
      obtain ⟨taken, hmem, hinside, hadv⟩ := h.takes hacc
      exact ⟨a, [], taken, separatedSpellings_singleton S L a ▸ hmem, hinside, hadv⟩
  inhabits := ⟨[], [], rfl⟩

end Separated

end Foresees

end Parser

end QueryBatching
