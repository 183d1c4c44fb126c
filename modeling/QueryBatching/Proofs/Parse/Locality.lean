/-
A parser looks no further than to the failure it reports.

Take a parse that has gone no further than to some token, and has expected nothing there but
some kinds.  Change the input from that token on, so that the same token stands there or one
of another kind.  Then the parse takes the same way, to the same failure: no combinator looks
at a token but to ask for its kind, and whenever it does so in vain, that is reported.

Commas are the exception.  Attempts to take a comma are forgotten, so the token that is put in
place must be no comma.  And a rule that contains itself stops at some number of brackets, so
two rules are compared, with the number of tokens ahead below the number of brackets that the
first may open: `Mimics bound p q` says that `q` takes the way of `p`.
-/
import QueryBatching.Proofs.Grammar.Sound
import QueryBatching.Proofs.Parse.Failures

namespace QueryBatching

open Token (Kind)

namespace Parse

variable {α β γ δ : Type}

/-! ### Staying within a limit -/

/-- The failure is not past the limit, and at the limit it expects nothing but the kinds. -/
def Failure.Within (limit : Nat) (kinds : List Kind) (failure : Failure) : Prop :=
  failure.index ≤ limit ∧ (failure.index = limit → failure.expected ⊆ kinds)

namespace Failure

variable {limit : Nat} {kinds : List Kind}

theorem within_merge {a b : Failure} :
    (a.merge b).Within limit kinds ↔ a.Within limit kinds ∧ b.Within limit kinds := by
  have hmerge := isMerge a b
  generalize a.merge b = c at hmerge
  cases hmerge with
  | second hless => exact ⟨fun h => ⟨⟨by have := h.1; omega, by have := h.1; omega⟩, h⟩, And.right⟩
  | first hless => exact ⟨fun h => ⟨h, ⟨by have := h.1; omega, by have := h.1; omega⟩⟩, And.left⟩
  | union heq expected hmem hnodup =>
      constructor
      · rintro ⟨hle, hsub⟩
        refine ⟨⟨hle, fun hlimit kind hkind => ?_⟩, ⟨heq ▸ hle, fun hlimit kind hkind => ?_⟩⟩
        · exact hsub hlimit ((hmem kind).mpr (.inl hkind))
        · exact hsub (heq.trans hlimit) ((hmem kind).mpr (.inr hkind))
      · rintro ⟨⟨hle, hsub⟩, -, hsub'⟩
        refine ⟨hle, fun hlimit kind hkind => ?_⟩
        rcases (hmem kind).mp hkind with hkind | hkind
        · exact hsub hlimit hkind
        · exact hsub' (heq.symm.trans hlimit) hkind

theorem within_furthest {a? b? : Option Failure} :
    (∀ f ∈ furthest a? b?, f.Within limit kinds) ↔
      (∀ f ∈ a?, f.Within limit kinds) ∧ ∀ f ∈ b?, f.Within limit kinds := by
  cases a? with
  | none =>
      cases b? with
      | none => exact ⟨fun h => ⟨h, h⟩, And.left⟩
      | some b => exact ⟨fun h => ⟨nofun, h⟩, And.right⟩
  | some a =>
      cases b? with
      | none => exact ⟨fun h => ⟨h, nofun⟩, And.left⟩
      | some b =>
          simp only [furthest, Option.mem_some_iff, forall_eq', within_merge]

theorem within_mergedWith {a : Failure} {b? : Option Failure} :
    (a.mergedWith b?).Within limit kinds ↔
      a.Within limit kinds ∧ ∀ f ∈ b?, f.Within limit kinds := by
  cases b? with
  | none => exact ⟨fun h => ⟨h, nofun⟩, And.left⟩
  | some b => simp only [mergedWith, Option.mem_some_iff, forall_eq', within_merge]

end Failure

/-- How far an outcome is: where the parse goes on, or where it failed. -/
def Outcome.index : Outcome α → Nat
  | .ok parsed => parsed.next.index
  | .error failure => failure.index

/-- The parse has gone no further than to the limit, and expected nothing but the kinds there. -/
structure Outcome.Within (limit : Nat) (kinds : List Kind) (outcome : Outcome α) : Prop where
  index : outcome.index ≤ limit
  met : ∀ f ∈ outcome.met?, f.Within limit kinds

theorem Outcome.within_error {limit : Nat} {kinds : List Kind} {failure : Failure} :
    Outcome.Within limit kinds (.error failure : Outcome α) ↔ failure.Within limit kinds :=
  ⟨fun h => h.met failure rfl, fun h => ⟨h.1, Failure.forall_mem_some h⟩⟩

theorem Outcome.within_ok {limit : Nat} {kinds : List Kind} {parsed : Parsed α} :
    Outcome.Within limit kinds (.ok parsed) ↔
      parsed.next.index ≤ limit ∧ ∀ f ∈ parsed.furthest?, f.Within limit kinds :=
  ⟨fun h => ⟨h.index, h.met⟩, fun h => ⟨h.1, h.2⟩⟩

/-! ### Inputs that agree up to a limit -/

/-- The two inputs begin with the same token, or the second one with a token that is no comma and
of none of the kinds. -/
inductive Swaps (kinds : List Kind) : List Token → List Token → Prop
  | same (t : Token) (rest rest' : List Token) : Swaps kinds (t :: rest) (t :: rest')
  | other (t t' : Token) (rest rest' : List Token) (hcomma : t'.kind ≠ .comma)
      (hkind : t'.kind ∉ kinds) : Swaps kinds (t :: rest) (t' :: rest')

/-- The cursors are at the same place, with the same tokens ahead up to the limit. -/
structure Cursor.Twins (limit : Nat) (tail tail' : List Token) (here here' : Cursor) : Prop where
  index : here'.index = here.index
  ahead : ∃ shared, here.ahead = shared ++ tail ∧ here'.ahead = shared ++ tail' ∧
    here.index + shared.length = limit

theorem Cursor.Twins.length_lt_iff {limit : Nat} {tail tail' : List Token}
    {here here' next next' : Cursor} (h : here.Twins limit tail tail' here')
    (h' : next.Twins limit tail tail' next') :
    next'.ahead.length < here'.ahead.length ↔ next.ahead.length < here.ahead.length := by
  obtain ⟨-, shared, hahead, hahead', -⟩ := h
  obtain ⟨-, others, hnext, hnext', -⟩ := h'
  rw [hahead, hahead', hnext, hnext']
  simp only [List.length_append, Nat.add_lt_add_iff_right]

theorem Cursor.Twins.index_le {limit : Nat} {tail tail' : List Token} {here here' : Cursor}
    (h : here.Twins limit tail tail' here') : here.index ≤ limit :=
  let ⟨_, _, _, _, hlimit⟩ := h
  hlimit ▸ Nat.le_add_right _ _

/-- The outcomes are the same, apart from the value and from what is past the limit. -/
inductive Outcome.Twins (limit : Nat) (tail tail' : List Token) : Outcome α → Outcome β → Prop
  | error (failure : Failure) : Twins limit tail tail' (.error failure) (.error failure)
  | ok {next next' : Cursor} (h : next.Twins limit tail tail' next') (value : α) (value' : β)
      (furthest? : Option Failure) :
      Twins limit tail tail' (.ok ⟨value, next, furthest?⟩) (.ok ⟨value', next', furthest?⟩)

namespace Outcome

variable {limit : Nat} {kinds : List Kind} {tail tail' : List Token} {outcome : Outcome α}

theorem within_map {f : α → β} :
    Outcome.Within limit kinds (outcome.map (Parsed.map f)) ↔ outcome.Within limit kinds := by
  cases outcome with
  | ok parsed => exact ⟨fun h => ⟨h.1, h.2⟩, fun h => ⟨h.1, h.2⟩⟩
  | error failure => exact ⟨fun h => ⟨h.1, h.2⟩, fun h => ⟨h.1, h.2⟩⟩

theorem Twins.map {outcome' : Outcome β} {f : α → γ} {f' : β → δ}
    (h : Outcome.Twins limit tail tail' outcome outcome') :
    Outcome.Twins limit tail tail' (outcome.map (Parsed.map f)) (outcome'.map (Parsed.map f')) := by
  cases h with
  | error failure => exact .error failure
  | ok hnext value value' furthest? => exact .ok hnext _ _ furthest?

end Outcome

end Parse

open Parse

namespace Parser

variable {α β γ δ : Type}

/-! ### Going onward -/

/-- The parser takes the tokens ahead one after another, and fails at none that are behind. -/
structure Onward (p : Parser α) : Prop where
  sound : Sound p fun _ => ⊤
  ahead : ∀ here, MeetsOnly p here fun failure => here.index ≤ failure.index

theorem mergeClosed_index (index : Nat) :
    Failure.MergeClosed fun failure => index ≤ failure.index := by
  refine Failure.MergeClosed.of_isMerge fun a b c hmerge ha hb => ?_
  cases hmerge with
  | second => exact hb
  | first => exact ha
  | union => exact ha

namespace Onward

variable {p : Parser α} {q : Parser β}

theorem index_le (h : Onward p) {here next : Cursor} {value : α}
    (hacc : Accepts p here value next) : here.index ≤ next.index := by
  obtain ⟨taken, -, hadv⟩ := h.sound hacc
  exact hadv.index ▸ Nat.le_add_right _ _

theorem length_le (h : Onward p) {here next : Cursor} {value : α}
    (hacc : Accepts p here value next) : next.ahead.length ≤ here.ahead.length := by
  obtain ⟨taken, -, hadv⟩ := h.sound hacc
  rw [hadv.ahead, List.length_append]
  exact Nat.le_add_left _ _

theorem le_index (h : Onward p) (here : Cursor) : here.index ≤ (p here).index := by
  cases heq : p here with
  | ok parsed => exact h.index_le (accepts_of_eq_ok heq)
  | error failure => exact (h.ahead here).of_error heq

theorem behind (h : Onward q) {index : Nat} {middle : Cursor} (hle : index ≤ middle.index) :
    MeetsOnly q middle fun failure => index ≤ failure.index :=
  (h.ahead middle).mono fun _ hf => hle.trans hf

theorem stop : Onward (Parser.stop : Parser α) :=
  ⟨sound_stop _, fun _ => meetsOnly_stop (Nat.le_refl _)⟩

theorem token (accepts : Token → Bool) (kind : Kind) : Onward (Parser.token accepts kind) :=
  ⟨(sound_token accepts kind).mono fun _ => le_top, fun _ => meetsOnly_token (Nat.le_refl _)⟩

theorem map (h : Onward p) (f : α → β) : Onward (Parser.map f p) :=
  ⟨h.sound.map fun _ => le_top, fun here => (h.ahead here).map⟩

theorem placed (h : Onward p) (f : Position → α → β) : Onward (Parser.placed f p) := by
  refine ⟨fun here value next hacc => ?_, fun here => (h.ahead here).placed⟩
  obtain ⟨a, -, ha⟩ := accepts_placed.mp hacc
  exact h.sound ha

theorem optional (h : Onward p) : Onward (Parser.optional p) :=
  ⟨h.sound.optional.mono fun _ => le_top, fun here => (h.ahead here).optional⟩

theorem both (h : Onward p) (h' : Onward q) : Onward (Parser.both p q) :=
  ⟨(h.sound.both h'.sound).mono fun _ => le_top, fun here =>
    (h.ahead here).both (mergeClosed_index _) fun _ _ hacc => h'.behind (h.index_le hacc)⟩

theorem right (h : Onward p) (h' : Onward q) : Onward (Parser.right p q) :=
  ⟨(h.sound.right h'.sound).mono fun _ => le_top, fun here =>
    (h.ahead here).right (mergeClosed_index _) fun _ _ hacc => h'.behind (h.index_le hacc)⟩

theorem choice {ps : List (Parser α)} (h : ∀ p ∈ ps, Onward p) : Onward (Parser.choice ps) :=
  ⟨Sound.choice fun p hp => (h p hp).sound, fun here =>
    MeetsOnly.choice (mergeClosed_index _) (fun p hp => (h p hp).ahead here) (Nat.le_refl _)⟩

theorem many (h : Onward p) : Onward (Parser.many p) :=
  ⟨h.sound.many.mono fun _ => le_top, fun here =>
    meetsOnly_many (mergeClosed_index _) (fun _ => h.behind)
      (fun _ _ _ hle hacc => hle.trans (h.index_le hacc)) (Nat.le_refl here.index)⟩

theorem many1 (h : Onward p) : Onward (Parser.many1 p) :=
  ⟨h.sound.many1.mono fun _ => le_top, fun here =>
    meetsOnly_many1 (mergeClosed_index _) (fun _ => h.behind)
      (fun _ _ _ hle hacc => hle.trans (h.index_le hacc)) (Nat.le_refl here.index)
      (Nat.le_refl _)⟩

theorem separatedBy (h : Onward p) (h' : Onward q) : Onward (Parser.separatedBy p q) :=
  ⟨(h.sound.separatedBy h'.sound).mono fun _ => le_top, fun here =>
    meetsOnly_separatedBy (mergeClosed_index _) (fun _ => h'.behind)
      (fun _ _ _ hle hgap => h.behind (hle.trans (h'.index_le hgap)))
      (fun _ _ _ _ _ hle hgap hitem => (hle.trans (h'.index_le hgap)).trans (h.index_le hitem))
      (h.ahead here) fun _ _ hitem => h.index_le hitem⟩

theorem repeated_index_le (h : Onward p) (here : Cursor) :
    here.index ≤ (repeated p here).next.index := by
  obtain ⟨taken, -, hadv⟩ := h.sound.repeats (repeats_repeated p here)
  exact hadv.index ▸ Nat.le_add_right _ _

theorem separated_index_le (h : Onward p) (h' : Onward q) (here : Cursor) :
    here.index ≤ (separated p q here).next.index := by
  obtain ⟨taken, -, hadv⟩ := h.sound.separates h'.sound (separates_separated p q here)
  exact hadv.index ▸ Nat.le_add_right _ _

end Onward

/-! ### Going the same way -/

/--
Where at most `bound` tokens are ahead of `p`, and what it meets stays within a limit, `q` takes the
same way on any input that agrees up to that limit.
-/
structure Mimics (bound : Nat) (p : Parser α) (q : Parser β) : Prop where
  onward : Onward p
  twins : ∀ ⦃limit : Nat⦄ ⦃kinds : List Kind⦄ ⦃tail tail' : List Token⦄ ⦃here here' : Cursor⦄,
    Swaps kinds tail tail' → here.Twins limit tail tail' here' → here.ahead.length < bound →
      (p here).Within limit kinds → Outcome.Twins limit tail tail' (p here) (q here')

namespace Mimics

variable {bound : Nat} {p : Parser α} {p' : Parser β}

theorem mono {fewer : Nat} (h : Mimics bound p p') (hle : fewer ≤ bound) : Mimics fewer p p' :=
  ⟨h.onward, fun _ _ _ _ _ _ hswap htwins hless hwithin =>
    h.twins hswap htwins (hless.trans_le hle) hwithin⟩

/-- A rule that may open no bracket is never asked to go on behind one. -/
theorem zero (h : Onward p) : Mimics 0 p p' := ⟨h, fun _ _ _ _ _ _ _ _ hless => nomatch hless⟩

theorem token {accepts : Token → Bool} {kind : Kind}
    (haccepts : ∀ t, accepts t = true → t.kind = kind) :
    Mimics bound (Parser.token accepts kind) (Parser.token accepts kind) := by
  refine ⟨.token accepts kind, fun limit kinds tail tail' here here' hswap htwins _ hwithin => ?_⟩
  obtain ⟨index, ahead⟩ := here
  obtain ⟨index', ahead'⟩ := here'
  obtain ⟨hindex, shared, hahead, hahead', hlimit⟩ := htwins
  dsimp only at hindex hahead hahead' hlimit
  subst hindex hahead hahead'
  cases shared with
  | cons t shared =>
      have hnext : Cursor.Twins limit tail tail' ⟨index' + 1, shared ++ tail⟩
          ⟨index' + 1, shared ++ tail'⟩ :=
        ⟨rfl, shared, rfl, rfl, by rw [List.length_cons] at hlimit; dsimp only; omega⟩
      simp only [Parser.token, List.cons_append]
      split
      · exact .ok hnext _ _ _
      · exact .error _
  | nil =>
      obtain rfl : index' = limit := hlimit
      cases hswap with
      | same t rest rest' =>
          simp only [Parser.token, List.nil_append] at hwithin ⊢
          split at hwithin
          · exact absurd hwithin.index (Nat.not_succ_le_self _)
          · rename_i hno
            simp only [if_neg hno]
            exact .error _
      | other t t' rest rest' hcomma hkind =>
          simp only [Parser.token, List.nil_append] at hwithin ⊢
          split at hwithin
          · exact absurd hwithin.index (Nat.not_succ_le_self _)
          · rename_i hno
            -- What was expected in vain is among the kinds, and the other token is of none of them.
            have hexpected := (Outcome.within_error.mp hwithin).2 rfl
            have hno' : ¬ accepts t' = true := fun hyes =>
              hkind (haccepts t' hyes ▸ hexpected (List.mem_singleton_self kind))
            simp only [if_neg hno, if_neg hno']
            exact .error _

theorem map (h : Mimics bound p p') (f : α → γ) (f' : β → δ) :
    Mimics bound (Parser.map f p) (Parser.map f' p') :=
  ⟨h.onward.map f, fun _ _ _ _ _ _ hswap htwins hless hwithin =>
    (h.twins hswap htwins hless (Outcome.within_map.mp hwithin)).map⟩

theorem placed (h : Mimics bound p p') (f : Position → α → γ) (f' : Position → β → δ) :
    Mimics bound (Parser.placed f p) (Parser.placed f' p') :=
  ⟨h.onward.placed f, fun _ _ _ _ _ _ hswap htwins hless hwithin =>
    (h.twins hswap htwins hless (Outcome.within_map.mp hwithin)).map⟩

theorem optional (h : Mimics bound p p') :
    Mimics bound (Parser.optional p) (Parser.optional p') := by
  refine ⟨h.onward.optional, fun limit kinds tail tail' here here' hswap htwins hless hwithin => ?_⟩
  have hp : (p here).Within limit kinds := by
    unfold Parser.optional at hwithin
    split at hwithin
    · rename_i parsed heq
      rw [heq]
      exact ⟨hwithin.index, hwithin.met⟩
    · rename_i failure heq
      rw [heq]
      exact Outcome.within_error.mpr (hwithin.met failure rfl)
  have hsame := h.twins hswap htwins hless hp
  unfold Parser.optional
  generalize p here = outcome at hsame ⊢
  generalize p' here' = outcome' at hsame ⊢
  cases hsame with
  | error failure => exact .ok htwins none none _
  | ok hnext value value' furthest? => exact .ok hnext _ _ _

/-! One parser after another -/

section Sequences

variable {later : Nat} {q : Parser γ} {q' : Parser δ} {limit : Nat} {kinds : List Kind}
  {tail tail' : List Token} {here here' : Cursor}

/-- How two parsers, one after the other, and two others answer in the same way. -/
inductive InTurn (limit : Nat) (tail tail' : List Token) (p : Parser α) (p' : Parser β)
    (q : Parser γ) (q' : Parser δ) (here here' : Cursor) : Prop
  | fails (failure : Failure) (h : p here = .error failure) (h' : p' here' = .error failure)
  | goesOn (value : α) (value' : β) (next next' : Cursor) (furthest? : Option Failure)
      (h : p here = .ok ⟨value, next, furthest?⟩) (h' : p' here' = .ok ⟨value', next', furthest?⟩)
      (hrest : Outcome.Twins limit tail tail' (q next) (q' next'))

theorem inTurn (h : Mimics bound p p') (h' : Mimics later q q') (hswap : Swaps kinds tail tail')
    (htwins : here.Twins limit tail tail' here') (hless : here.ahead.length < bound)
    (hlater : ∀ value next, Accepts p here value next → next.ahead.length < later)
    (hp : (p here).Within limit kinds)
    (hq : ∀ a, p here = .ok a → (q a.next).Within limit kinds) :
    InTurn limit tail tail' p p' q q' here here' := by
  have hsame := h.twins hswap htwins hless hp
  cases heq : p here with
  | error failure =>
      cases heq' : p' here' with
      | error failure' =>
          rw [heq, heq'] at hsame
          cases hsame
          exact .fails failure heq heq'
      | ok a' =>
          rw [heq, heq'] at hsame
          exact nomatch hsame
  | ok a =>
      cases heq' : p' here' with
      | error failure' =>
          rw [heq, heq'] at hsame
          exact nomatch hsame
      | ok a' =>
          rw [heq, heq'] at hsame
          cases hsame with
          | ok hnext value value' furthest? =>
              exact .goesOn _ _ _ _ _ heq heq' (h'.twins hswap hnext
                (hlater _ _ (accepts_of_eq_ok heq)) (hq _ heq))

/-- What stays within the limit in two parsers, one after the other, does so in both. -/
theorem within_both (h : Onward q) (hwithin : (Parser.both p q here).Within limit kinds) :
    (p here).Within limit kinds ∧ ∀ a, p here = .ok a → (q a.next).Within limit kinds := by
  cases heq : p here with
  | error failure =>
      simp only [Parser.both, heq] at hwithin
      exact ⟨⟨hwithin.1, hwithin.2⟩, nofun⟩
  | ok a =>
      cases heq' : q a.next with
      | error failure =>
          simp only [Parser.both, heq, heq', Outcome.within_error,
            Failure.within_mergedWith] at hwithin
          have hle := ((h.ahead a.next).of_error heq').trans hwithin.1.1
          refine ⟨Outcome.within_ok.mpr ⟨hle, hwithin.2⟩, ?_⟩
          rintro _ ⟨⟩
          rw [heq']
          exact Outcome.within_error.mpr hwithin.1
      | ok b =>
          simp only [Parser.both, heq, heq', Outcome.within_ok, Failure.within_furthest] at hwithin
          have hle := (h.index_le (accepts_of_eq_ok heq')).trans hwithin.1
          refine ⟨Outcome.within_ok.mpr ⟨hle, hwithin.2.1⟩, ?_⟩
          rintro _ ⟨⟩
          rw [heq']
          exact Outcome.within_ok.mpr ⟨hwithin.1, hwithin.2.2⟩

theorem both (h : Mimics bound p p') (h' : Mimics bound q q') :
    Mimics bound (Parser.both p q) (Parser.both p' q') := by
  refine ⟨h.onward.both h'.onward, fun limit kinds tail tail' here here' hswap htwins hless
    hwithin => ?_⟩
  obtain ⟨hp, hq⟩ := within_both h'.onward hwithin
  cases inTurn h h' hswap htwins hless
    (fun _ _ hacc => (h.onward.length_le hacc).trans_lt hless) hp hq with
  | fails failure heq heq' =>
      simp only [Parser.both, heq, heq']
      exact .error failure
  | goesOn value value' next next' furthest? heq heq' hrest =>
      simp only [Parser.both, heq, heq']
      generalize q next = outcome at hrest ⊢
      generalize q' next' = outcome' at hrest ⊢
      cases hrest with
      | error failure => exact .error _
      | ok hnext _ _ _ => exact .ok hnext _ _ _

theorem within_right (hwithin : (Parser.right p q here).Within limit kinds) :
    (Parser.both p q here).Within limit kinds := by
  unfold Parser.right at hwithin
  unfold Parser.both
  split at hwithin
  · exact ⟨hwithin.1, hwithin.2⟩
  · split at hwithin
    · rename_i b hb
      simp only [Parsed.meeting, Outcome.within_ok, Failure.within_furthest] at hwithin
      exact Outcome.within_ok.mpr ⟨hwithin.1, Failure.within_furthest.mpr hwithin.2.symm⟩
    · exact ⟨hwithin.1, hwithin.2⟩

/-- The second parser may have a tighter bound, where the first one always keeps to it. -/
theorem right_of (h : Mimics bound p p') (h' : Mimics later q q')
    (hlater : ∀ here value next, Accepts p here value next → here.ahead.length < bound →
      next.ahead.length < later) :
    Mimics bound (Parser.right p q) (Parser.right p' q') := by
  refine ⟨h.onward.right h'.onward, fun limit kinds tail tail' here here' hswap htwins hless
    hwithin => ?_⟩
  obtain ⟨hp, hq⟩ := within_both h'.onward (within_right hwithin)
  cases inTurn h h' hswap htwins hless (fun _ _ hacc => hlater _ _ _ hacc hless) hp hq with
  | fails failure heq heq' =>
      simp only [Parser.right, heq, heq']
      exact .error failure
  | goesOn value value' next next' furthest? heq heq' hrest =>
      simp only [Parser.right, heq, heq']
      generalize q next = outcome at hrest ⊢
      generalize q' next' = outcome' at hrest ⊢
      cases hrest with
      | error failure => exact .error _
      | ok hnext _ _ _ => exact .ok hnext _ _ _

theorem right (h : Mimics bound p p') (h' : Mimics bound q q') :
    Mimics bound (Parser.right p q) (Parser.right p' q') :=
  h.right_of h' fun _ _ _ hacc hless => (h.onward.length_le hacc).trans_lt hless

/-- Behind a bracket there is a token less ahead. -/
theorem behind (h : Mimics bound q q') (kind : Kind) :
    Mimics (bound + 1) (Parser.right (expect kind) q) (Parser.right (expect kind) q') := by
  refine (token fun t ht => of_decide_eq_true ht).right_of h fun here value next hacc hless => ?_
  obtain ⟨-, hahead, -⟩ := accepts_expect.mp hacc
  rw [hahead, List.length_cons] at hless
  exact Nat.lt_of_succ_lt_succ hless

theorem left (h : Mimics bound p p') (h' : Mimics bound q q') :
    Mimics bound (Parser.left p q) (Parser.left p' q') :=
  (h.both h').map _ _

theorem expect (kind : Kind) : Mimics bound (Parser.expect kind) (Parser.expect kind) :=
  token fun _ ht => of_decide_eq_true ht

/-- Between two brackets there is a token less ahead. -/
theorem enclosed (h : Mimics bound q q') (opening closing : Kind) :
    Mimics (bound + 1) (delimited (Parser.expect opening) q (Parser.expect closing))
      (delimited (Parser.expect opening) q' (Parser.expect closing)) :=
  (h.behind opening).left (expect closing)

end Sequences

/-! One parser or another -/

section Choices

variable {limit : Nat} {kinds : List Kind} {tail tail' : List Token} {here here' : Cursor}

/-- What failed before is still carried along at the end. -/
theorem within_choiceAfter {ps : List (Parser α)} {failure? : Option Failure}
    (hwithin : (choiceAfter failure? ps here).Within limit kinds) :
    ∀ f ∈ failure?, f.Within limit kinds := by
  induction ps generalizing failure? with
  | nil =>
      cases failure? with
      | none => exact nofun
      | some failure => exact Failure.forall_mem_some (Outcome.within_error.mp hwithin)
  | cons p ps ih =>
      unfold choiceAfter at hwithin
      split at hwithin
      · exact (Failure.within_furthest.mp hwithin.met).2
      · exact (Failure.within_furthest.mp (ih hwithin)).1

theorem twins_choiceAfter {ps : List (Parser α)} {ps' : List (Parser β)}
    (h : List.Forall₂ (Mimics bound) ps ps') (hswap : Swaps kinds tail tail')
    (htwins : here.Twins limit tail tail' here') (hless : here.ahead.length < bound)
    {failure? : Option Failure} (hwithin : (choiceAfter failure? ps here).Within limit kinds) :
    Outcome.Twins limit tail tail' (choiceAfter failure? ps here)
      (choiceAfter failure? ps' here') := by
  induction h generalizing failure? with
  | nil =>
      simp only [choiceAfter, htwins.index]
      exact .error _
  | @cons p p' ps ps' hp _ ih =>
      have hfirst : (p here).Within limit kinds := by
        unfold choiceAfter at hwithin
        split at hwithin
        · rename_i parsed heq
          rw [heq]
          exact ⟨hwithin.index, (Failure.within_furthest.mp hwithin.met).1⟩
        · rename_i failure heq
          rw [heq]
          exact Outcome.within_error.mpr
            ((Failure.within_furthest.mp (within_choiceAfter hwithin)).2 failure rfl)
      have hsame := hp.twins hswap htwins hless hfirst
      unfold choiceAfter at hwithin ⊢
      generalize p here = outcome at hsame hwithin ⊢
      generalize p' here' = outcome' at hsame ⊢
      cases hsame with
      | error failure => exact ih hwithin
      | ok hnext value value' furthest? => exact .ok hnext _ _ _

theorem choice {ps : List (Parser α)} {ps' : List (Parser β)}
    (h : List.Forall₂ (Mimics bound) ps ps') :
    Mimics bound (Parser.choice ps) (Parser.choice ps') := by
  refine ⟨.choice ?_, fun _ _ _ _ _ _ hswap htwins hless hwithin =>
    twins_choiceAfter h hswap htwins hless hwithin⟩
  induction h with
  | nil => exact nofun
  | cons hp _ ih => exact List.forall_mem_cons.mpr ⟨hp.onward, ih⟩

end Choices

/-! One parser again and again -/

section Repetitions

variable {limit : Nat} {kinds : List Kind} {tail tail' : List Token} {here here' : Cursor}

/-- A repetition goes round as often, and gives as many values. -/
theorem twins_repeated (h : Mimics bound p p') (hswap : Swaps kinds tail tail')
    (htwins : here.Twins limit tail tail' here') (hless : here.ahead.length < bound)
    (hwithin : Outcome.Within limit kinds (.ok (repeated p here))) :
    Outcome.Twins limit tail tail' (.ok (repeated p here)) (.ok (repeated p' here')) ∧
      (repeated p' here').value.isEmpty = (repeated p here).value.isEmpty := by
  fun_induction repeated p here generalizing here' with
  | case1 here failure heq =>
      have hsame := h.twins hswap htwins hless
        (heq ▸ Outcome.within_error.mpr (hwithin.met failure rfl))
      rw [heq] at hsame
      rw [repeated]
      generalize p' here' = outcome' at hsame ⊢
      cases hsame with
      | error => exact ⟨.ok htwins _ _ _, rfl⟩
  | case2 here parsed heq hshorter rest =>
      rename_i ih
      obtain ⟨hindex, hmet⟩ := Outcome.within_ok.mp hwithin
      obtain ⟨hmet, hmet'⟩ := Failure.within_furthest.mp hmet
      have hnext : parsed.next.index ≤ limit :=
        (h.onward.repeated_index_le parsed.next).trans hindex
      have hsame := h.twins hswap htwins hless (heq ▸ Outcome.within_ok.mpr ⟨hnext, hmet⟩)
      rw [heq] at hsame
      rw [repeated]
      generalize p' here' = outcome' at hsame ⊢
      cases hsame with
      | @ok next next' htwins' value value' furthest? =>
          obtain ⟨hrest, -⟩ := ih htwins' (hshorter.trans hless)
            (Outcome.within_ok.mpr ⟨hindex, hmet'⟩)
          simp only [(htwins.length_lt_iff htwins').mpr hshorter, if_true, rest]
          generalize repeated p next = rest at hrest ⊢
          generalize repeated p' next' = rest' at hrest ⊢
          cases hrest with
          | ok hend => exact ⟨.ok hend _ _ _, rfl⟩
  | case3 here parsed heq hshorter =>
      have hmet := (Outcome.within_ok.mp hwithin).2
      have hnext : parsed.next.index ≤ limit := by
        obtain ⟨taken, -, hadv⟩ := h.onward.sound (accepts_of_eq_ok heq)
        have hhere := htwins.index_le
        rw [hadv.ahead, List.length_append] at hshorter
        rw [hadv.index]
        omega
      have hsame := h.twins hswap htwins hless (heq ▸ Outcome.within_ok.mpr ⟨hnext, hmet⟩)
      rw [heq] at hsame
      rw [repeated]
      generalize p' here' = outcome' at hsame ⊢
      cases hsame with
      | ok htwins' value value' furthest? =>
          simp only [mt (htwins.length_lt_iff htwins').mp hshorter, if_false]
          exact ⟨.ok htwins _ _ _, rfl⟩

theorem many (h : Mimics bound p p') : Mimics bound (Parser.many p) (Parser.many p') :=
  ⟨h.onward.many, fun _ _ _ _ _ _ hswap htwins hless hwithin =>
    (twins_repeated h hswap htwins hless hwithin).1⟩

theorem many1 (h : Mimics bound p p') : Mimics bound (Parser.many1 p) (Parser.many1 p') := by
  refine ⟨h.onward.many1, fun limit kinds tail tail' here here' hswap htwins hless hwithin => ?_⟩
  have hrepeated : Outcome.Within limit kinds (.ok (repeated p here)) := by
    unfold Parser.many1 at hwithin
    dsimp only at hwithin
    split at hwithin
    · rename_i hempty
      have hrun := repeats_repeated p here
      generalize repeated p here = parsed at hempty hrun hwithin ⊢
      rw [List.isEmpty_iff.mp hempty] at hrun
      cases hrun with
      | stop =>
          refine Outcome.within_ok.mpr ⟨htwins.index_le, fun f hf => ?_⟩
          rw [hf] at hwithin
          exact Outcome.within_error.mp hwithin
    · exact hwithin
  obtain ⟨hsame, hempty⟩ := twins_repeated h hswap htwins hless hrepeated
  unfold Parser.many1
  dsimp only
  rw [hempty]
  generalize repeated p here = outcome at hsame ⊢
  generalize repeated p' here' = outcome' at hsame ⊢
  cases hsame with
  | ok hnext value value' furthest? =>
      split
      · rw [htwins.index]
        exact .error _
      · exact .ok hnext _ _ _

/-- Behind a separator that both take, the items answer in the same way. -/
theorem twins_gap {q : Parser γ} {q' : Parser δ} (h : Mimics bound p p') (h' : Mimics bound q q')
    (hswap : Swaps kinds tail tail') (htwins : here.Twins limit tail tail' here')
    (hless : here.ahead.length < bound) {gap : Parsed γ} (hgap : q here = .ok gap)
    (hmet : ∀ f ∈ gap.furthest?, f.Within limit kinds)
    (hitem : (p gap.next).Within limit kinds) :
    ∃ gap', q' here' = .ok gap' ∧ gap'.furthest? = gap.furthest? ∧
      Outcome.Twins limit tail tail' (p gap.next) (p' gap'.next) := by
  have hseparator : (q here).Within limit kinds := by
    rw [hgap]
    exact Outcome.within_ok.mpr ⟨(h.onward.le_index gap.next).trans hitem.index, hmet⟩
  have hitems : ∀ a, q here = .ok a → (p a.next).Within limit kinds := by
    intro a ha
    obtain rfl := Except.ok.inj (hgap.symm.trans ha)
    exact hitem
  cases inTurn h' h hswap htwins hless
    (fun _ _ hacc => (h'.onward.length_le hacc).trans_lt hless) hseparator hitems with
  | fails failure heq => exact nomatch hgap.symm.trans heq
  | goesOn value value' next next' furthest? heq heq' hrest =>
      obtain rfl := Except.ok.inj (hgap.symm.trans heq)
      exact ⟨_, heq', rfl, hrest⟩

/-- A repetition with separators answers in the same way if its parts do, provided every item takes
a token. -/
theorem twins_separated {q : Parser γ} {q' : Parser δ} (h : Mimics bound p p')
    (h' : Mimics bound q q') (htakes : ∀ ⦃here value next⦄, Accepts p here value next →
      next.ahead.length < here.ahead.length) (hswap : Swaps kinds tail tail')
    (htwins : here.Twins limit tail tail' here') (hless : here.ahead.length < bound)
    (hwithin : Outcome.Within limit kinds (.ok (separated p q here))) :
    Outcome.Twins limit tail tail' (.ok (separated p q here)) (.ok (separated p' q' here')) := by
  fun_induction separated p q here generalizing here' with
  | case1 here failure heq =>
      have hsame := h'.twins hswap htwins hless
        (heq ▸ Outcome.within_error.mpr (hwithin.met failure rfl))
      rw [heq] at hsame
      rw [separated]
      generalize q' here' = outcome' at hsame ⊢
      cases hsame with
      | error => exact .ok htwins _ _ _
  | case2 here gap hgap failure hfail =>
      obtain ⟨hmet, hmet'⟩ := Failure.within_furthest.mp hwithin.met
      obtain ⟨gap', hgap', hfurthest, hsame⟩ := twins_gap h h' hswap htwins hless hgap hmet
        (hfail ▸ Outcome.within_error.mpr (hmet' failure rfl))
      rw [hfail] at hsame
      rw [separated]
      simp only [hgap']
      generalize p' gap'.next = outcome' at hsame ⊢
      cases hsame with
      | error =>
          simp only [hfurthest]
          exact .ok htwins _ _ _
  | case3 here gap hgap parsed hitem hshorter rest =>
      rename_i ih
      obtain ⟨hindex, hmet⟩ := Outcome.within_ok.mp hwithin
      obtain ⟨hmet, hmet'⟩ := Failure.within_furthest.mp hmet
      obtain ⟨hmet, hmet''⟩ := Failure.within_furthest.mp hmet
      have hnext : parsed.next.index ≤ limit :=
        (h.onward.separated_index_le h'.onward parsed.next).trans hindex
      obtain ⟨gap', hgap', hfurthest, hsame⟩ := twins_gap h h' hswap htwins hless hgap hmet
        (hitem ▸ Outcome.within_ok.mpr ⟨hnext, hmet''⟩)
      rw [hitem] at hsame
      rw [separated]
      simp only [hgap']
      generalize p' gap'.next = outcome' at hsame ⊢
      cases hsame with
      | @ok next next' htwins' value value' furthest? =>
          have hrest := ih htwins' (hshorter.trans hless) (Outcome.within_ok.mpr ⟨hindex, hmet'⟩)
          simp only [(htwins.length_lt_iff htwins').mpr hshorter, if_true, hfurthest, rest]
          generalize separated p q next = rest at hrest ⊢
          generalize separated p' q' next' = rest' at hrest ⊢
          cases hrest with
          | ok hend => exact .ok hend _ _ _
  | case4 here gap hgap parsed hitem hshorter =>
      have hitems := htakes (accepts_of_eq_ok hitem)
      have hgaps := h'.onward.length_le (accepts_of_eq_ok hgap)
      exact absurd (hitems.trans_le hgaps) hshorter

theorem separatedBy {q : Parser γ} {q' : Parser δ} (h : Mimics bound p p') (h' : Mimics bound q q')
    (htakes : ∀ ⦃here value next⦄, Accepts p here value next →
      next.ahead.length < here.ahead.length) :
    Mimics bound (Parser.separatedBy p q) (Parser.separatedBy p' q') := by
  refine ⟨h.onward.separatedBy h'.onward, fun limit kinds tail tail' here here' hswap htwins hless
    hwithin => ?_⟩
  have hitem : (p here).Within limit kinds := by
    unfold Parser.separatedBy at hwithin
    split at hwithin
    · rename_i failure heq
      rw [heq]
      exact Outcome.within_error.mpr (hwithin.met failure rfl)
    · rename_i first heq
      rw [heq]
      exact Outcome.within_ok.mpr
        ⟨(h.onward.separated_index_le h'.onward first.next).trans hwithin.index,
          (Failure.within_furthest.mp hwithin.met).1⟩
  have hsame := h.twins hswap htwins hless hitem
  have hlater : ∀ first, p here = .ok first → first.next.ahead.length < bound :=
    fun first heq => (h.onward.length_le (accepts_of_eq_ok heq)).trans_lt hless
  unfold Parser.separatedBy at hwithin ⊢
  generalize p here = outcome at hsame hwithin hlater ⊢
  generalize p' here' = outcome' at hsame ⊢
  cases hsame with
  | error failure => exact .ok htwins _ _ _
  | @ok next next' htwins' value value' furthest? =>
      have hrest := twins_separated h h' htakes hswap htwins' (hlater _ rfl)
        (Outcome.within_ok.mpr ⟨hwithin.index, (Failure.within_furthest.mp hwithin.met).2⟩)
      dsimp only
      generalize separated p q next = rest at hrest ⊢
      generalize separated p' q' next' = rest' at hrest ⊢
      cases hrest with
      | ok hend => exact .ok hend _ _ _

end Repetitions

end Mimics

end Parser

end QueryBatching
