/-
Every parser that the combinators build.

A combination is a parser as a tree of combinators, over values of any types.  All of them are
disciplined and all their runs end, by induction over the tree: the cursor moves onward over tokens
that are there, failures stay between its start and the end, and what is behind it makes no
difference.
-/
import QueryBatching.Proofs.Parse.Attempts

namespace QueryBatching

open Parse
open Token (Kind)

/-! ### Combinations -/

/--
A parser as a tree of combinators.  Parts of different types that follow one another are put
together in pairs; `sequence` and `choice` take any number of parts of one type.
-/
inductive Combination : Type → Type 1
  | expect (kind : Kind) : Combination Token
  | keyword (word : String) : Combination Token
  | map {α β : Type} (f : α → β) (item : Combination α) : Combination β
  | optional {α : Type} (item : Combination α) : Combination (Option α)
  | many {α : Type} (item : Combination α) : Combination (List α)
  | many1 {α : Type} (item : Combination α) : Combination (List α)
  | separatedBy {α β : Type} (item : Combination α) (separator : Combination β) :
      Combination (List α)
  | left {α β : Type} (first : Combination α) (second : Combination β) : Combination α
  | right {α β : Type} (first : Combination α) (second : Combination β) : Combination β
  | delimited {α β γ : Type} (opening : Combination α) (inner : Combination β)
      (closing : Combination γ) : Combination β
  | both {α β : Type} (first : Combination α) (second : Combination β) : Combination (α × β)
  | sequence {α : Type} {count : Nat} (parts : Fin count → Combination α) : Combination (List α)
  | choice {α : Type} {count : Nat} (parts : Fin count → Combination α) : Combination α

namespace Combination

/-- The parser that the combinators build. -/
def parser : {α : Type} → Combination α → Parser α
  | _, .expect kind => .expect kind
  | _, .keyword word => .keyword word
  | _, .map f item => .map f item.parser
  | _, .optional item => .optional item.parser
  | _, .many item => .many item.parser
  | _, .many1 item => .many1 item.parser
  | _, .separatedBy item separator => .separatedBy item.parser separator.parser
  | _, .left first second => .left first.parser second.parser
  | _, .right first second => .right first.parser second.parser
  | _, .delimited opening inner closing =>
    .delimited opening.parser inner.parser closing.parser
  | _, .both first second => .both first.parser second.parser
  | _, .sequence parts => .sequence (List.ofFn fun i => (parts i).parser)
  | _, .choice parts => .choice (List.ofFn fun i => (parts i).parser)

/-- The attempt to run it, which gives up where a loop is not over after so many rounds. -/
def attempt (rounds : Nat) : {α : Type} → Combination α → Attempt α
  | _, .expect kind => .whole (.expect kind)
  | _, .keyword word => .whole (.keyword word)
  | _, .map f item => .map f (item.attempt rounds)
  | _, .optional item => .optional (item.attempt rounds)
  | _, .many item => .many rounds (item.attempt rounds)
  | _, .many1 item => .many1 rounds (item.attempt rounds)
  | _, .separatedBy item separator =>
    .separatedBy rounds (item.attempt rounds) (separator.attempt rounds)
  | _, .left first second => .left (first.attempt rounds) (second.attempt rounds)
  | _, .right first second => .right (first.attempt rounds) (second.attempt rounds)
  | _, .delimited opening inner closing =>
    .delimited (opening.attempt rounds) (inner.attempt rounds) (closing.attempt rounds)
  | _, .both first second => .both (first.attempt rounds) (second.attempt rounds)
  | _, .sequence parts => .sequence (List.ofFn fun i => (parts i).attempt rounds)
  | _, .choice parts => .choice (List.ofFn fun i => (parts i).attempt rounds)

/-- Whatever the combinators build is disciplined. -/
theorem disciplined {α : Type} (combination : Combination α) :
    combination.parser.Disciplined := by
  induction combination with
  | expect kind => exact .token _ kind
  | keyword word => exact .token _ .name
  | map f item ih => exact ih.map f
  | optional item ih => exact ih.optional
  | many item ih => exact ih.many
  | many1 item ih => exact ih.many1
  | separatedBy item separator ih ih' => exact ih.separatedBy ih'
  | left first second ih ih' => exact ih.left ih'
  | right first second ih ih' => exact ih.right ih'
  | delimited opening inner closing ih ih' ih'' => exact ih.delimited ih' ih''
  | both first second ih ih' => exact ih.both ih'
  | sequence parts ih => exact .sequence (List.forall_mem_ofFn_iff.mpr ih)
  | choice parts ih => exact .choice (List.forall_mem_ofFn_iff.mpr ih)

theorem forall₂_ofFn {α β : Type} {R : α → β → Prop} {count : Nat} {xs : Fin count → α}
    {ys : Fin count → β} (h : ∀ i, R (xs i) (ys i)) :
    List.Forall₂ R (List.ofFn xs) (List.ofFn ys) := by
  refine List.forall₂_iff_get.mpr ⟨by simp, fun i hi hi' => ?_⟩
  simpa using h ⟨i, by simpa using hi⟩

/-- Every run ends: no loop goes round more often than there are tokens ahead, and once more. -/
theorem completes {α : Type} (combination : Combination α) (rounds : Nat) :
    Attempt.Completes rounds (combination.attempt rounds) combination.parser := by
  induction combination with
  | expect kind => exact .whole _
  | keyword word => exact .whole _
  | map f item ih => exact ih.map f
  | optional item ih => exact ih.optional
  | many item ih => exact ih.many item.disciplined.onward
  | many1 item ih => exact ih.many1 item.disciplined.onward
  | separatedBy item separator ih ih' =>
      exact ih.separatedBy ih' item.disciplined.onward separator.disciplined.onward
  | left first second ih ih' => exact ih.left ih' first.disciplined.onward
  | right first second ih ih' => exact ih.right ih' first.disciplined.onward
  | delimited opening inner closing ih ih' ih'' =>
      exact (ih.right ih' opening.disciplined.onward).left ih''
        (opening.disciplined.right inner.disciplined).onward
  | both first second ih ih' => exact ih.both ih' first.disciplined.onward
  | sequence parts ih =>
      exact .sequence (forall₂_ofFn ih)
        (List.forall_mem_ofFn_iff.mpr fun i => (parts i).disciplined.onward)
  | choice parts ih => exact .choice (forall₂_ofFn ih)

end Combination

/-! ### Among the tokens -/

/-- The outcome of a run over the tokens from `start` on: it goes on among them, and what failed on
the way did so among them too, each kind expected there once. -/
structure Parse.Outcome.Among {α : Type} (tokens : List Token) (start : Nat)
    (outcome : Outcome α) : Prop where
  next : ∀ parsed, outcome = .ok parsed →
    start ≤ parsed.next.index ∧ parsed.next.index ≤ tokens.length ∧
      parsed.next = .ofTokens tokens parsed.next.index
  met : ∀ failure ∈ outcome.met?,
    start ≤ failure.index ∧ failure.index ≤ tokens.length ∧ failure.expected.Nodup

namespace Parser.Disciplined

variable {α : Type} {p : Parser α} {tokens : List Token} {start : Nat}

theorem total_ofTokens (h : start ≤ tokens.length) :
    (Cursor.ofTokens tokens start).total = tokens.length := by
  simp only [Cursor.total, Cursor.ofTokens, List.length_drop]
  omega

theorem among (hp : p.Disciplined) (h : start ≤ tokens.length) :
    Outcome.Among tokens start (p (.ofTokens tokens start)) where
  next parsed heq := by
    obtain ⟨taken, -, hadv⟩ := hp.onward.sound (Parser.accepts_of_eq_ok heq)
    have hindex : parsed.next.index = start + taken.length := hadv.index
    have hahead : tokens.drop start = taken ++ parsed.next.ahead := hadv.ahead
    have htotal := hadv.total_eq.trans (total_ofTokens h)
    refine ⟨by omega, htotal ▸ parsed.next.index_le_total, ?_⟩
    show (⟨parsed.next.index, parsed.next.ahead⟩ : Cursor) =
      ⟨parsed.next.index, tokens.drop parsed.next.index⟩
    rw [hindex, ← List.drop_drop, hahead, List.drop_left]
  met failure hmem :=
    ⟨hp.onward.ahead _ failure hmem, total_ofTokens h ▸ hp.inRange _ failure hmem⟩

theorem eq_moved (hp : p.Disciplined) :
    p (.ofTokens tokens start) = (p (.ofTokens (tokens.drop start) 0)).moved start := by
  rw [← hp.moves]
  simp only [Cursor.moved, Cursor.ofTokens, Nat.zero_add, List.drop_zero]

end Parser.Disciplined

namespace Combination

/--
**Whatever the combinators build keeps the cursor in order.**  Started anywhere among the tokens,
its run ends, no loop going round more often than there are tokens left and once more; it goes on
or fails between where it started and the end of the tokens, naming no kind twice; and it is the
run over the tokens from there on, further along.
-/
theorem keeps_cursor {α : Type} (combination : Combination α) {tokens : List Token} {start : Nat}
    (h : start ≤ tokens.length) :
    (∀ rounds, tokens.length - start < rounds →
      combination.attempt rounds (.ofTokens tokens start) =
        some (combination.parser (.ofTokens tokens start))) ∧
    Outcome.Among tokens start (combination.parser (.ofTokens tokens start)) ∧
    combination.parser (.ofTokens tokens start) =
      (combination.parser (.ofTokens (tokens.drop start) 0)).moved start := by
  refine ⟨fun rounds hrounds => combination.completes rounds _ ?_,
    combination.disciplined.among h, combination.disciplined.eq_moved⟩
  simpa only [Cursor.ofTokens, List.length_drop] using hrounds

/-- Lists of names with commas between them, where both a list and a comma may be left out. -/
def nameLists : Combination (List (List Token)) :=
  .separatedBy (.many (.expect .name)) (.optional (.expect .comma))

/-- A brace, two names, a comma, a name and a comma. -/
def nameTokens : List Token :=
  [.braceOpen, .name, .name, .comma, .name, .comma].map fun kind => ⟨kind, "", {}⟩

theorem keeps_cursor_nameLists :
    1 ≤ nameTokens.length ∧ nameTokens.length - 1 < 6 ∧
      nameLists.parser (.ofTokens nameTokens 1) =
        .ok ⟨[[⟨.name, "", {}⟩, ⟨.name, "", {}⟩], [⟨.name, "", {}⟩], []], ⟨6, []⟩,
          some ⟨6, [.name, .comma]⟩⟩ ∧
      Outcome.Among nameTokens 1 (nameLists.parser (.ofTokens nameTokens 1)) ∧
      nameLists.parser (.ofTokens nameTokens 1) =
        (nameLists.parser (.ofTokens (nameTokens.drop 1) 0)).moved 1 := by
  have hstart : 1 ≤ nameTokens.length := by decide
  have hrounds : nameTokens.length - 1 < 6 := by decide
  obtain ⟨hends, hamong, hmoved⟩ := keeps_cursor nameLists hstart
  exact ⟨hstart, hrounds, Option.some.inj ((hends 6 hrounds).symm.trans rfl), hamong, hmoved⟩

end Combination

end QueryBatching
