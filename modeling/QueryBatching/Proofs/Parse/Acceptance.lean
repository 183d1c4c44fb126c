/-
What a parser accepts, without the failures it met.

A parser answers with a value, the cursor after it and the furthest failure met on the
way.  The failure changes nothing about the success, so all that can be said about which
tokens a parser takes, and for which value, is said about two relations that forget it:
`Accepts p here value next` and `Rejects p here`.  Exactly one of them holds at a cursor,
and the value and the next cursor are unique.

Below, each combinator gets its two equivalences: what it accepts and what it rejects, in
terms of its parts.  They read as the rules of ordered choice and greedy repetition.
Nothing else in the library unfolds a combinator.
-/
import QueryBatching.Parse.Parser
import QueryBatching.Proofs.Outcomes

namespace QueryBatching.Parser

open Parse

variable {α β γ : Type}

/-- The parser succeeds here with the value, and goes on at the next cursor. -/
def Accepts (p : Parser α) (here : Cursor) (value : α) (next : Cursor) : Prop :=
  ∃ furthest?, p here = .ok ⟨value, next, furthest?⟩

/-- The parser fails here. -/
def Rejects (p : Parser α) (here : Cursor) : Prop := ∃ failure, p here = .error failure

theorem accepts_of_eq_ok {p : Parser α} {here : Cursor} {parsed : Parsed α}
    (h : p here = .ok parsed) : Accepts p here parsed.value parsed.next :=
  ⟨parsed.furthest?, h⟩

/-- A parser has one answer. -/
theorem Accepts.unique {p : Parser α} {here next next' : Cursor} {value value' : α}
    (h : Accepts p here value next) (h' : Accepts p here value' next') :
    value = value' ∧ next = next' := by
  obtain ⟨f, hf⟩ := h
  obtain ⟨f', hf'⟩ := h'
  rw [hf] at hf'
  simp only [Except.ok.injEq, Parsed.mk.injEq] at hf'
  exact ⟨hf'.1, hf'.2.1⟩

theorem Accepts.not_rejects {p : Parser α} {here next : Cursor} {value : α}
    (h : Accepts p here value next) : ¬ Rejects p here := by
  rintro ⟨failure, hfailure⟩
  obtain ⟨f, hf⟩ := h
  rw [hf] at hfailure
  simp at hfailure

/-- A parser accepts or rejects. -/
theorem accepts_or_rejects (p : Parser α) (here : Cursor) :
    (∃ value next, Accepts p here value next) ∨ Rejects p here := by
  cases h : p here with
  | ok parsed => exact .inl ⟨_, _, accepts_of_eq_ok h⟩
  | error failure => exact .inr ⟨failure, h⟩

theorem rejects_iff_not_accepts {p : Parser α} {here : Cursor} :
    Rejects p here ↔ ∀ value next, ¬ Accepts p here value next := by
  constructor
  · intro h value next hacc
    exact hacc.not_rejects h
  · intro h
    rcases accepts_or_rejects p here with ⟨value, next, hacc⟩ | hrej
    · exact absurd hacc (h value next)
    · exact hrej

/-! ### Single tokens -/

theorem rejects_stop (here : Cursor) : Rejects (stop : Parser α) here := ⟨_, rfl⟩

theorem not_accepts_stop {here next : Cursor} {value : α} : ¬ Accepts stop here value next :=
  fun h => h.not_rejects (rejects_stop here)

theorem accepts_token {accepts : Token → Bool} {kind : Token.Kind} {here next : Cursor}
    {value : Token} :
    Accepts (token accepts kind) here value next ↔
      accepts value = true ∧ here.ahead = value :: next.ahead ∧ next.index = here.index + 1 := by
  obtain ⟨index, ahead⟩ := next
  unfold Accepts token
  constructor
  · rintro ⟨f, hf⟩
    split at hf
    · rename_i found rest hahead
      split at hf
      · rename_i hyes
        simp only [Except.ok.injEq, Parsed.mk.injEq, Cursor.mk.injEq] at hf
        obtain ⟨rfl, ⟨rfl, rfl⟩, -⟩ := hf
        exact ⟨hyes, hahead, rfl⟩
      · simp at hf
    · simp at hf
  · rintro ⟨hyes, hahead, hindex⟩
    dsimp only at hahead hindex
    subst hindex
    exact ⟨none, by simp [hahead, hyes]⟩

theorem rejects_token {accepts : Token → Bool} {kind : Token.Kind} {here : Cursor} :
    Rejects (token accepts kind) here ↔ ∀ next ∈ here.ahead.head?, accepts next = false := by
  rw [rejects_iff_not_accepts]
  constructor
  · intro h next hnext
    cases hahead : here.ahead with
    | nil => simp [hahead] at hnext
    | cons found rest =>
      simp only [hahead, List.head?_cons, Option.mem_def, Option.some.injEq] at hnext
      subst hnext
      by_contra hyes
      exact h found ⟨here.index + 1, rest⟩ (accepts_token.mpr ⟨by simpa using hyes, hahead, rfl⟩)
  · intro h value next hacc
    obtain ⟨hyes, hahead, -⟩ := accepts_token.mp hacc
    have hno := h value (by simp [hahead])
    rw [hyes] at hno
    exact absurd hno (by decide)

theorem accepts_expect {kind : Token.Kind} {here next : Cursor} {value : Token} :
    Accepts (expect kind) here value next ↔
      value.kind = kind ∧ here.ahead = value :: next.ahead ∧ next.index = here.index + 1 := by
  rw [expect, accepts_token, decide_eq_true_iff]

theorem rejects_expect {kind : Token.Kind} {here : Cursor} :
    Rejects (expect kind) here ↔ ∀ next ∈ here.ahead.head?, next.kind ≠ kind := by
  rw [expect, rejects_token]
  simp only [decide_eq_false_iff_not, ne_eq]

theorem accepts_keyword {word : String} {here next : Cursor} {value : Token} :
    Accepts (keyword word) here value next ↔
      (value.kind = .name ∧ value.text = word) ∧
        here.ahead = value :: next.ahead ∧ next.index = here.index + 1 := by
  rw [keyword, accepts_token]
  simp only [Token.isWord, Bool.and_eq_true, decide_eq_true_eq]

theorem rejects_keyword {word : String} {here : Cursor} :
    Rejects (keyword word) here ↔
      ∀ next ∈ here.ahead.head?, ¬(next.kind = .name ∧ next.text = word) := by
  rw [keyword, rejects_token]
  refine forall₂_congr fun next _ => ?_
  rw [← Bool.not_eq_true, Token.isWord, Bool.and_eq_true, decide_eq_true_iff, decide_eq_true_iff]

/-! ### One parser and its value -/

theorem accepts_map {f : α → β} {p : Parser α} {here next : Cursor} {value : β} :
    Accepts (map f p) here value next ↔ ∃ a, f a = value ∧ Accepts p here a next := by
  unfold Accepts map
  constructor
  · rintro ⟨furthest?, h⟩
    obtain ⟨parsed, hp, hmap⟩ := Outcomes.map_eq_ok.mp h
    simp only [Parsed.map, Parsed.mk.injEq] at hmap
    obtain ⟨hvalue, rfl, rfl⟩ := hmap
    exact ⟨parsed.value, hvalue, parsed.furthest?, hp⟩
  · rintro ⟨a, rfl, furthest?, hp⟩
    exact ⟨furthest?, by rw [hp]; rfl⟩

theorem rejects_map {f : α → β} {p : Parser α} {here : Cursor} :
    Rejects (map f p) here ↔ Rejects p here := by
  simp only [rejects_iff_not_accepts, accepts_map]
  constructor
  · intro h a next hacc
    exact h (f a) next ⟨a, rfl, hacc⟩
  · rintro h value next ⟨a, -, hacc⟩
    exact h a next hacc

theorem accepts_placed {f : Position → α → β} {p : Parser α} {here next : Cursor} {value : β} :
    Accepts (placed f p) here value next ↔
      ∃ a, f here.position a = value ∧ Accepts p here a next :=
  accepts_map

theorem rejects_placed {f : Position → α → β} {p : Parser α} {here : Cursor} :
    Rejects (placed f p) here ↔ Rejects p here :=
  rejects_map

theorem accepts_optional {p : Parser α} {here next : Cursor} {value : Option α} :
    Accepts (optional p) here value next ↔
      (∃ a, value = some a ∧ Accepts p here a next) ∨
        value = none ∧ next = here ∧ Rejects p here := by
  unfold Accepts optional
  cases h : p here with
  | ok parsed =>
      have hnot : ¬ Rejects p here := (accepts_of_eq_ok h).not_rejects
      constructor
      · rintro ⟨furthest?, hf⟩
        simp only [Parsed.map, Except.ok.injEq, Parsed.mk.injEq] at hf
        obtain ⟨rfl, rfl, -⟩ := hf
        exact .inl ⟨parsed.value, rfl, parsed.furthest?, rfl⟩
      · rintro (⟨a, rfl, furthest?, hf⟩ | ⟨-, -, hrej⟩)
        · simp only [Except.ok.injEq] at hf
          subst hf
          exact ⟨furthest?, rfl⟩
        · exact absurd hrej hnot
  | error failure =>
      constructor
      · rintro ⟨furthest?, hf⟩
        simp only [Except.ok.injEq, Parsed.mk.injEq] at hf
        obtain ⟨rfl, rfl, -⟩ := hf
        exact .inr ⟨rfl, rfl, failure, h⟩
      · rintro (⟨a, -, furthest?, hf⟩ | ⟨rfl, rfl, -⟩)
        · simp at hf
        · exact ⟨some failure, rfl⟩

/-! ### One parser after another -/

theorem accepts_both {p : Parser α} {q : Parser β} {here next : Cursor} {value : α × β} :
    Accepts (both p q) here value next ↔
      ∃ middle, Accepts p here value.1 middle ∧ Accepts q middle value.2 next := by
  unfold Accepts both
  constructor
  · rintro ⟨furthest?, h⟩
    split at h
    · simp at h
    · rename_i a ha
      split at h
      · rename_i b hb
        simp only [Except.ok.injEq, Parsed.mk.injEq] at h
        obtain ⟨rfl, rfl, -⟩ := h
        exact ⟨a.next, accepts_of_eq_ok ha, accepts_of_eq_ok hb⟩
      · simp at h
  · rintro ⟨middle, ⟨f, hf⟩, ⟨g, hg⟩⟩
    simp only [hf, hg]
    exact ⟨_, rfl⟩

theorem rejects_both {p : Parser α} {q : Parser β} {here : Cursor} :
    Rejects (both p q) here ↔
      Rejects p here ∨ ∃ a middle, Accepts p here a middle ∧ Rejects q middle := by
  constructor
  · intro h
    rcases accepts_or_rejects p here with ⟨a, middle, ha⟩ | hrej
    · rcases accepts_or_rejects q middle with ⟨b, next, hb⟩ | hrej
      · exact absurd h (accepts_both.mpr ⟨middle, ha, hb⟩ : Accepts _ _ (a, b) _).not_rejects
      · exact .inr ⟨a, middle, ha, hrej⟩
    · exact .inl hrej
  · rw [rejects_iff_not_accepts (p := both p q)]
    rintro (hrej | ⟨a, middle, ha, hrej⟩) ⟨a', b⟩ next hacc
    · obtain ⟨middle', ha', -⟩ := accepts_both.mp hacc
      exact ha'.not_rejects hrej
    · obtain ⟨middle', ha', hb⟩ := accepts_both.mp hacc
      obtain ⟨-, rfl⟩ := ha.unique ha'
      exact hb.not_rejects hrej

theorem accepts_left {p : Parser α} {q : Parser β} {here next : Cursor} {value : α} :
    Accepts (left p q) here value next ↔
      ∃ b middle, Accepts p here value middle ∧ Accepts q middle b next := by
  rw [left, accepts_map]
  constructor
  · rintro ⟨⟨a, b⟩, rfl, h⟩
    obtain ⟨middle, ha, hb⟩ := accepts_both.mp h
    exact ⟨b, middle, ha, hb⟩
  · rintro ⟨b, middle, ha, hb⟩
    exact ⟨(value, b), rfl, accepts_both.mpr ⟨middle, ha, hb⟩⟩

theorem rejects_left {p : Parser α} {q : Parser β} {here : Cursor} :
    Rejects (left p q) here ↔
      Rejects p here ∨ ∃ a middle, Accepts p here a middle ∧ Rejects q middle := by
  rw [left, rejects_map, rejects_both]

theorem accepts_right {p : Parser α} {q : Parser β} {here next : Cursor} {value : β} :
    Accepts (right p q) here value next ↔
      ∃ a middle, Accepts p here a middle ∧ Accepts q middle value next := by
  unfold Accepts right
  constructor
  · rintro ⟨furthest?, h⟩
    split at h
    · simp at h
    · rename_i a ha
      split at h
      · rename_i b hb
        simp only [Parsed.meeting, Except.ok.injEq, Parsed.mk.injEq] at h
        obtain ⟨rfl, rfl, -⟩ := h
        exact ⟨a.value, a.next, accepts_of_eq_ok ha, accepts_of_eq_ok hb⟩
      · simp at h
  · rintro ⟨a, middle, ⟨f, hf⟩, ⟨g, hg⟩⟩
    simp only [hf, hg, Parsed.meeting]
    exact ⟨_, rfl⟩

theorem rejects_right {p : Parser α} {q : Parser β} {here : Cursor} :
    Rejects (right p q) here ↔
      Rejects p here ∨ ∃ a middle, Accepts p here a middle ∧ Rejects q middle := by
  rw [← rejects_both]
  simp only [rejects_iff_not_accepts, accepts_right, accepts_both]
  constructor
  · rintro h ⟨a, b⟩ next ⟨middle, ha, hb⟩
    exact h b next ⟨a, middle, ha, hb⟩
  · rintro h b next ⟨a, middle, ha, hb⟩
    exact h (a, b) next ⟨middle, ha, hb⟩

theorem accepts_delimited {opening : Parser α} {inner : Parser β} {closing : Parser γ}
    {here next : Cursor} {value : β} :
    Accepts (delimited opening inner closing) here value next ↔
      ∃ a c start stop, Accepts opening here a start ∧ Accepts inner start value stop ∧
        Accepts closing stop c next := by
  rw [delimited, accepts_left]
  constructor
  · rintro ⟨c, stop, hfront, hc⟩
    obtain ⟨a, start, ha, hb⟩ := accepts_right.mp hfront
    exact ⟨a, c, start, stop, ha, hb, hc⟩
  · rintro ⟨a, c, start, stop, ha, hb, hc⟩
    exact ⟨c, stop, accepts_right.mpr ⟨a, start, ha, hb⟩, hc⟩

/-! ### One parser or another -/

/-- What failed before makes no difference to what is accepted. -/
private theorem accepts_choiceAfter {failure? : Option Failure} {ps : List (Parser α)}
    {here next : Cursor} {value : α} :
    Accepts (choiceAfter failure? ps) here value next ↔ Accepts (choice ps) here value next := by
  unfold choice
  suffices h : ∀ before after, Accepts (choiceAfter before ps) here value next →
      Accepts (choiceAfter after ps) here value next from ⟨h _ _, h _ _⟩
  induction ps with
  | nil =>
      rintro before after ⟨f, hf⟩
      simp [choiceAfter] at hf
  | cons p ps ih =>
      rintro before after ⟨f, hf⟩
      unfold choiceAfter at hf
      cases h : p here with
      | ok parsed =>
          simp only [h, Parsed.meeting, Except.ok.injEq, Parsed.mk.injEq] at hf
          obtain ⟨rfl, rfl, -⟩ := hf
          exact ⟨_, by simp only [choiceAfter, h, Parsed.meeting]; rfl⟩
      | error failure =>
          simp only [h] at hf
          obtain ⟨g, hg⟩ := ih _ (Failure.furthest after (some failure)) ⟨f, hf⟩
          exact ⟨g, by simp only [choiceAfter, h]; exact hg⟩

theorem not_accepts_choice_nil {here next : Cursor} {value : α} :
    ¬ Accepts (choice []) here value next := by
  rintro ⟨f, hf⟩
  simp [choice, choiceAfter] at hf

theorem accepts_choice_cons {p : Parser α} {ps : List (Parser α)} {here next : Cursor}
    {value : α} :
    Accepts (choice (p :: ps)) here value next ↔
      Accepts p here value next ∨ Rejects p here ∧ Accepts (choice ps) here value next := by
  rcases accepts_or_rejects p here with ⟨found, after, f, hf⟩ | ⟨failure, hfailure⟩
  · have hacc : Accepts p here found after := ⟨f, hf⟩
    have hchoice : Accepts (choice (p :: ps)) here found after :=
      ⟨_, by simp only [choice, choiceAfter, hf, Parsed.meeting]; rfl⟩
    constructor
    · intro h
      obtain ⟨rfl, rfl⟩ := h.unique hchoice
      exact .inl hacc
    · rintro (h | ⟨hrej, -⟩)
      · obtain ⟨rfl, rfl⟩ := h.unique hacc
        exact hchoice
      · exact absurd hrej hacc.not_rejects
  · have hrej : Rejects p here := ⟨failure, hfailure⟩
    have hskip : Accepts (choice (p :: ps)) here value next ↔
        Accepts (choiceAfter (Failure.furthest none (some failure)) ps) here value next := by
      unfold Accepts
      simp only [choice, choiceAfter, hfailure]
    rw [hskip, accepts_choiceAfter]
    constructor
    · intro h
      exact .inr ⟨hrej, h⟩
    · rintro (h | ⟨-, h⟩)
      · exact absurd hrej h.not_rejects
      · exact h

theorem rejects_choice_nil {here : Cursor} : Rejects (choice ([] : List (Parser α))) here :=
  rejects_iff_not_accepts.mpr fun _ _ => not_accepts_choice_nil

theorem rejects_choice_cons {p : Parser α} {ps : List (Parser α)} {here : Cursor} :
    Rejects (choice (p :: ps)) here ↔ Rejects p here ∧ Rejects (choice ps) here := by
  constructor
  · intro h
    rw [rejects_iff_not_accepts] at h
    rcases accepts_or_rejects p here with ⟨value, next, hacc⟩ | hrej
    · exact absurd (accepts_choice_cons.mpr (.inl hacc)) (h value next)
    · refine ⟨hrej, rejects_iff_not_accepts.mpr fun value next hacc => ?_⟩
      exact h value next (accepts_choice_cons.mpr (.inr ⟨hrej, hacc⟩))
  · rintro ⟨hrej, hrest⟩
    refine rejects_iff_not_accepts.mpr fun value next hacc => ?_
    rcases accepts_choice_cons.mp hacc with h | ⟨-, h⟩
    · exact h.not_rejects hrej
    · exact h.not_rejects hrest

/-! ### One parser again and again

A repetition goes on as long as its parser accepts and takes a token.  `Repeats` and
`Separates` are the runs of the two loops, one constructor for each way round.
-/

/-- The parser accepts no more that takes a token. -/
def Stops (p : Parser α) (here : Cursor) : Prop :=
  ∀ value next, Accepts p here value next → ¬ next.ahead.length < here.ahead.length

theorem Rejects.stops {p : Parser α} {here : Cursor} (h : Rejects p here) : Stops p here :=
  fun _ _ hacc => absurd h hacc.not_rejects

/-- The runs of a repetition. -/
inductive Repeats (p : Parser α) : Cursor → List α → Cursor → Prop
  | stop {here : Cursor} (h : Stops p here) : Repeats p here [] here
  | more {here middle next : Cursor} {value : α} {values : List α}
      (h : Accepts p here value middle) (hless : middle.ahead.length < here.ahead.length)
      (hrest : Repeats p middle values next) : Repeats p here (value :: values) next

theorem Repeats.unique {p : Parser α} {here next next' : Cursor} {values values' : List α}
    (h : Repeats p here values next) (h' : Repeats p here values' next') :
    values = values' ∧ next = next' := by
  induction h generalizing values' next' with
  | stop hstop =>
      cases h' with
      | stop => exact ⟨rfl, rfl⟩
      | more hacc hless => exact absurd hless (hstop _ _ hacc)
  | more hacc hless hrest ih =>
      cases h' with
      | stop hstop => exact absurd hless (hstop _ _ hacc)
      | more hacc' hless' hrest' =>
          obtain ⟨rfl, rfl⟩ := hacc.unique hacc'
          obtain ⟨rfl, rfl⟩ := ih hrest'
          exact ⟨rfl, rfl⟩

/-- The loop of a repetition is a run. -/
theorem repeats_repeated (p : Parser α) (here : Cursor) :
    Repeats p here (repeated p here).value (repeated p here).next := by
  fun_induction repeated p here with
  | case1 here failure h => exact .stop (Rejects.stops ⟨failure, h⟩)
  | case2 here parsed h hless rest ih => exact .more (accepts_of_eq_ok h) hless ih
  | case3 here parsed h hless =>
      refine .stop fun value next hacc => ?_
      obtain ⟨-, rfl⟩ := hacc.unique (accepts_of_eq_ok h)
      exact hless

theorem accepts_many {p : Parser α} {here next : Cursor} {values : List α} :
    Accepts (many p) here values next ↔ Repeats p here values next := by
  have hrun := repeats_repeated p here
  unfold Accepts many
  constructor
  · rintro ⟨f, hf⟩
    simp only [Except.ok.injEq] at hf
    rw [hf] at hrun
    exact hrun
  · intro h
    obtain ⟨rfl, rfl⟩ := h.unique hrun
    exact ⟨_, rfl⟩

theorem accepts_many1 {p : Parser α} {here next : Cursor} {values : List α} :
    Accepts (many1 p) here values next ↔ values ≠ [] ∧ Repeats p here values next := by
  have hrun := repeats_repeated p here
  unfold Accepts many1
  constructor
  · rintro ⟨f, hf⟩
    dsimp only at hf
    split at hf
    · simp at hf
    · rename_i hne
      simp only [Except.ok.injEq] at hf
      rw [hf] at hrun hne
      exact ⟨by simpa using hne, hrun⟩
  · rintro ⟨hne, h⟩
    obtain ⟨rfl, rfl⟩ := h.unique hrun
    exact ⟨_, by dsimp only; rw [if_neg (by simpa using hne)]⟩

/-- The runs of a repetition with separators, after its first item. -/
inductive Separates (item : Parser α) (separator : Parser β) : Cursor → List α → Cursor → Prop
  | stop {here : Cursor}
      (h : ∀ gap middle value next, Accepts separator here gap middle →
        Accepts item middle value next → ¬ next.ahead.length < here.ahead.length) :
      Separates item separator here [] here
  | more {here middle after next : Cursor} {gap : β} {value : α} {values : List α}
      (hgap : Accepts separator here gap middle) (hitem : Accepts item middle value after)
      (hless : after.ahead.length < here.ahead.length)
      (hrest : Separates item separator after values next) :
      Separates item separator here (value :: values) next

theorem Separates.unique {item : Parser α} {separator : Parser β} {here next next' : Cursor}
    {values values' : List α} (h : Separates item separator here values next)
    (h' : Separates item separator here values' next') : values = values' ∧ next = next' := by
  induction h generalizing values' next' with
  | stop hstop =>
      cases h' with
      | stop => exact ⟨rfl, rfl⟩
      | more hgap hitem hless => exact absurd hless (hstop _ _ _ _ hgap hitem)
  | more hgap hitem hless hrest ih =>
      cases h' with
      | stop hstop => exact absurd hless (hstop _ _ _ _ hgap hitem)
      | more hgap' hitem' hless' hrest' =>
          obtain ⟨-, rfl⟩ := hgap.unique hgap'
          obtain ⟨rfl, rfl⟩ := hitem.unique hitem'
          obtain ⟨rfl, rfl⟩ := ih hrest'
          exact ⟨rfl, rfl⟩

theorem separates_separated (item : Parser α) (separator : Parser β) (here : Cursor) :
    Separates item separator here (separated item separator here).value
      (separated item separator here).next := by
  fun_induction separated item separator here with
  | case1 here failure h =>
      refine .stop fun gap middle value next hgap => ?_
      exact absurd ⟨failure, h⟩ hgap.not_rejects
  | case2 here gap h failure hfail =>
      refine .stop fun gap' middle value next hgap hitem => ?_
      obtain ⟨-, rfl⟩ := hgap.unique (accepts_of_eq_ok h)
      exact absurd ⟨failure, hfail⟩ hitem.not_rejects
  | case3 here gap h parsed hitem hless rest ih =>
      exact .more (accepts_of_eq_ok h) (accepts_of_eq_ok hitem) hless ih
  | case4 here gap h parsed hitem hless =>
      refine .stop fun gap' middle value next hgap hacc => ?_
      obtain ⟨-, rfl⟩ := hgap.unique (accepts_of_eq_ok h)
      obtain ⟨-, rfl⟩ := hacc.unique (accepts_of_eq_ok hitem)
      exact hless

theorem accepts_separatedBy {item : Parser α} {separator : Parser β} {here next : Cursor}
    {values : List α} :
    Accepts (separatedBy item separator) here values next ↔
      (values = [] ∧ next = here ∧ Rejects item here) ∨
        ∃ first rest after, values = first :: rest ∧ Accepts item here first after ∧
          Separates item separator after rest next := by
  unfold Accepts separatedBy
  cases h : item here with
  | error failure =>
      constructor
      · rintro ⟨f, hf⟩
        simp only [Except.ok.injEq, Parsed.mk.injEq] at hf
        obtain ⟨rfl, rfl, -⟩ := hf
        exact .inl ⟨rfl, rfl, failure, h⟩
      · rintro (⟨rfl, rfl, -⟩ | ⟨first, rest, after, -, ⟨f, hf⟩, -⟩)
        · exact ⟨_, rfl⟩
        · simp at hf
  | ok first =>
      have hrun := separates_separated item separator first.next
      constructor
      · rintro ⟨f, hf⟩
        simp only [Except.ok.injEq, Parsed.mk.injEq] at hf
        obtain ⟨rfl, rfl, -⟩ := hf
        exact .inr ⟨_, _, _, rfl, ⟨_, rfl⟩, hrun⟩
      · rintro (⟨-, -, hrej⟩ | ⟨value, rest, after, rfl, ⟨f, hf⟩, hsep⟩)
        · exact absurd hrej (accepts_of_eq_ok h).not_rejects
        · simp only [Except.ok.injEq] at hf
          subst hf
          obtain ⟨rfl, rfl⟩ := hsep.unique hrun
          exact ⟨_, rfl⟩

end QueryBatching.Parser
