/-
What a parser does to the cursor.

A disciplined parser only moves the cursor onward over tokens that are there, reports failures
between where it started and the end of the tokens, names no kind twice in them, and does not care
how many tokens are behind the cursor: with more of them it does the same, only further along.

The single tokens are disciplined, and each combinator is if its parts are.  For the failures that
is one more property that two failures have together if each has it.  For the tokens behind, every
combinator only merges failures and hands cursors on, and both go together with moving.
-/
import QueryBatching.Proofs.Parse.Locality

namespace QueryBatching

open Token (Kind)

namespace Parse

variable {α β : Type}

/-! ### Everything further along -/

/-- The failure with so many more tokens before it. -/
def Failure.moved (distance : Nat) (failure : Failure) : Failure :=
  ⟨failure.index + distance, failure.expected⟩

/-- The cursor with so many more tokens behind it. -/
def Cursor.moved (distance : Nat) (here : Cursor) : Cursor := ⟨here.index + distance, here.ahead⟩

/-- The success with so many more tokens behind it. -/
def Parsed.moved (distance : Nat) (parsed : Parsed α) : Parsed α :=
  ⟨parsed.value, parsed.next.moved distance, parsed.furthest?.map (Failure.moved distance)⟩

/-- The outcome with so many more tokens behind it. -/
def Outcome.moved (distance : Nat) : Outcome α → Outcome α
  | .ok parsed => .ok (parsed.moved distance)
  | .error failure => .error (failure.moved distance)

namespace Failure

variable (distance : Nat)

theorem merge_moved (a b : Failure) :
    (a.moved distance).merge (b.moved distance) = (a.merge b).moved distance := by
  unfold merge
  by_cases hless : a.index < b.index
  · rw [if_pos hless, if_pos (by simp only [moved]; omega)]
  · rw [if_neg hless, if_neg (by simp only [moved]; omega)]
    by_cases heq : a.index = b.index
    · rw [if_pos heq, if_pos (by simp only [moved]; omega)]
      rfl
    · rw [if_neg heq, if_neg (by simp only [moved]; omega)]

theorem furthest_moved (a? b? : Option Failure) :
    furthest (a?.map (moved distance)) (b?.map (moved distance)) =
      (furthest a? b?).map (moved distance) := by
  cases a? with
  | none => cases b? <;> rfl
  | some a =>
      cases b? with
      | none => rfl
      | some b => exact congrArg some (merge_moved distance a b)

theorem mergedWith_moved (a : Failure) (b? : Option Failure) :
    (a.moved distance).mergedWith (b?.map (moved distance)) =
      (a.mergedWith b?).moved distance := by
  cases b? with
  | none => rfl
  | some b => exact merge_moved distance a b

/-- A failure that is not past the last of the tokens and names no kind twice. -/
def InRange (total : Nat) (failure : Failure) : Prop :=
  failure.index ≤ total ∧ failure.expected.Nodup

theorem mergeClosed_inRange (total : Nat) : MergeClosed (InRange total) := by
  refine MergeClosed.of_isMerge fun a b c hmerge ha hb => ?_
  cases hmerge with
  | second => exact hb
  | first => exact ha
  | union heq expected hmem hnodup => exact ⟨ha.1, hnodup ha.2⟩

end Failure

/-- How many tokens there are, behind and ahead. -/
def Cursor.total (here : Cursor) : Nat := here.index + here.ahead.length

theorem Cursor.index_le_total (here : Cursor) : here.index ≤ here.total := Nat.le_add_right _ _

theorem Cursor.Advances.total_eq {here next : Cursor} {taken : List Token}
    (h : here.Advances taken next) : next.total = here.total := by
  have hahead := congrArg List.length h.ahead
  have hindex := h.index
  rw [List.length_append] at hahead
  show next.index + next.ahead.length = here.index + here.ahead.length
  omega

/-- The cursor goes round once more exactly if it is not where it was. -/
theorem Cursor.Advances.index_eq_iff {here next : Cursor} {taken : List Token}
    (h : here.Advances taken next) :
    next.index = here.index ↔ ¬ next.ahead.length < here.ahead.length := by
  have hahead := congrArg List.length h.ahead
  have hindex := h.index
  rw [List.length_append] at hahead
  omega

end Parse

open Parse

namespace Parser

variable {α β γ : Type}

/-! ### Disciplined parsers -/

/-- The parser moves the cursor onward over tokens that are there, wherever it starts. -/
structure Disciplined (p : Parser α) : Prop where
  onward : Onward p
  inRange : ∀ here, MeetsOnly p here (Failure.InRange here.total)
  /-- With more tokens behind, the outcome is the same further along. -/
  moves : ∀ distance here, p (here.moved distance) = (p here).moved distance

namespace Disciplined

variable {p : Parser α} {q : Parser β}

theorem total_eq (h : Disciplined p) {here next : Cursor} {value : α}
    (hacc : Accepts p here value next) : next.total = here.total := by
  obtain ⟨taken, -, hadv⟩ := h.onward.sound hacc
  exact hadv.total_eq

/-- Wherever the parser is started among the tokens. -/
theorem meetsOnly (h : Disciplined p) {total : Nat} {middle : Cursor}
    (htotal : middle.total = total) : MeetsOnly p middle (Failure.InRange total) :=
  htotal ▸ h.inRange middle

/-- A failure right here that expects one kind at most. -/
theorem inRange_here {here : Cursor} {kinds : List Kind} (h : kinds.Nodup) :
    Failure.InRange here.total ⟨here.index, kinds⟩ :=
  ⟨here.index_le_total, h⟩

theorem token (accepts : Token → Bool) (kind : Kind) : Disciplined (Parser.token accepts kind) where
  onward := .token accepts kind
  inRange here := meetsOnly_token (inRange_here (List.nodup_singleton kind))
  moves distance here := by
    obtain ⟨index, ahead⟩ := here
    cases ahead with
    | nil => rfl
    | cons next ahead =>
        simp only [Parser.token, Cursor.moved]
        by_cases haccepts : accepts next = true
        · rw [if_pos haccepts, if_pos haccepts, Nat.add_right_comm]
          rfl
        · rw [if_neg haccepts, if_neg haccepts]
          rfl

theorem succeed (value : α) : Disciplined (Parser.succeed value none) where
  onward := by
    refine ⟨fun here a next hacc => ?_, fun here => nofun⟩
    obtain ⟨furthest?, h⟩ := hacc
    simp only [Parser.succeed, Except.ok.injEq, Parsed.mk.injEq] at h
    obtain ⟨-, rfl, -⟩ := h
    exact ⟨[], trivial, .refl _⟩
  inRange here := nofun
  moves distance here := rfl

theorem map (h : Disciplined p) (f : α → β) : Disciplined (Parser.map f p) where
  onward := h.onward.map f
  inRange here := (h.inRange here).map
  moves distance here := by
    unfold Parser.map
    rw [h.moves]
    cases p here <;> rfl

theorem optional (h : Disciplined p) : Disciplined (Parser.optional p) where
  onward := h.onward.optional
  inRange here := (h.inRange here).optional
  moves distance here := by
    unfold Parser.optional
    rw [h.moves]
    cases p here <;> rfl

theorem both (h : Disciplined p) (h' : Disciplined q) : Disciplined (Parser.both p q) where
  onward := h.onward.both h'.onward
  inRange here := (h.inRange here).both (Failure.mergeClosed_inRange _) fun _ _ hacc =>
    h'.meetsOnly (h.total_eq hacc)
  moves distance here := by
    unfold Parser.both
    rw [h.moves]
    cases p here with
    | error failure => rfl
    | ok a =>
        simp only [Outcome.moved, Parsed.moved, h'.moves]
        cases q a.next with
        | error failure => exact congrArg Except.error (Failure.mergedWith_moved _ _ _)
        | ok b =>
            show Except.ok _ = Except.ok _
            rw [Failure.furthest_moved]

theorem left (h : Disciplined p) (h' : Disciplined q) : Disciplined (Parser.left p q) :=
  (h.both h').map Prod.fst

theorem right (h : Disciplined p) (h' : Disciplined q) : Disciplined (Parser.right p q) where
  onward := h.onward.right h'.onward
  inRange here := (h.inRange here).right (Failure.mergeClosed_inRange _) fun _ _ hacc =>
    h'.meetsOnly (h.total_eq hacc)
  moves distance here := by
    unfold Parser.right
    rw [h.moves]
    cases p here with
    | error failure => rfl
    | ok a =>
        simp only [Outcome.moved, Parsed.moved, h'.moves]
        cases q a.next with
        | error failure => exact congrArg Except.error (Failure.mergedWith_moved _ _ _)
        | ok b => simp only [Parsed.meeting, Failure.furthest_moved]

theorem delimited {r : Parser γ} (h : Disciplined p) (h' : Disciplined q) (h'' : Disciplined r) :
    Disciplined (Parser.delimited p q r) :=
  (h.right h').left h''

theorem sequence {ps : List (Parser α)} (h : ∀ p ∈ ps, Disciplined p) :
    Disciplined (Parser.sequence ps) := by
  unfold Parser.sequence
  have hfront : Disciplined (Parser.succeed ([] : List α) none) := .succeed []
  generalize Parser.succeed ([] : List α) none = front at hfront ⊢
  induction ps generalizing front with
  | nil => exact hfront
  | cons p ps ih =>
      rw [List.forall_mem_cons] at h
      exact ih h.2 _ ((hfront.both h.1).map _)

theorem moves_choiceAfter {ps : List (Parser α)} (h : ∀ p ∈ ps, Disciplined p) (distance : Nat)
    (here : Cursor) (failure? : Option Failure) :
    choiceAfter (failure?.map (Failure.moved distance)) ps (here.moved distance) =
      (choiceAfter failure? ps here).moved distance := by
  induction ps generalizing failure? with
  | nil => cases failure? <;> rfl
  | cons p ps ih =>
      rw [List.forall_mem_cons] at h
      unfold choiceAfter
      rw [h.1.moves]
      cases p here with
      | error failure =>
          have hmore := Failure.furthest_moved distance failure? (some failure)
          have hrest := ih h.2 (Failure.furthest failure? (some failure))
          rw [← hmore] at hrest
          exact hrest
      | ok parsed =>
          simp only [Outcome.moved, Parsed.moved, Parsed.meeting, Failure.furthest_moved]

theorem choice {ps : List (Parser α)} (h : ∀ p ∈ ps, Disciplined p) :
    Disciplined (Parser.choice ps) where
  onward := .choice fun p hp => (h p hp).onward
  inRange here := MeetsOnly.choice (Failure.mergeClosed_inRange _)
    (fun p hp => (h p hp).inRange here) (inRange_here List.nodup_nil)
  moves distance here := moves_choiceAfter h distance here none

theorem moves_repeated (h : Disciplined p) (distance : Nat) (here : Cursor) :
    repeated p (here.moved distance) = (repeated p here).moved distance := by
  fun_induction repeated p here with
  | case1 here failure heq =>
      rw [repeated, h.moves, heq]
      rfl
  | case2 here parsed heq hless rest ih =>
      rw [repeated, h.moves, heq]
      simp only [Outcome.moved, Parsed.moved, rest]
      rw [if_pos (by exact hless), ih]
      simp only [Parsed.moved, Failure.furthest_moved]
  | case3 here parsed heq hless =>
      rw [repeated, h.moves, heq]
      simp only [Outcome.moved, Parsed.moved]
      rw [if_neg (by exact hless)]

theorem many (h : Disciplined p) : Disciplined (Parser.many p) where
  onward := h.onward.many
  inRange here := meetsOnly_many (R := fun middle => middle.total = here.total)
    (Failure.mergeClosed_inRange _) (fun _ => h.meetsOnly)
    (fun _ _ _ htotal hacc => (h.total_eq hacc).trans htotal) rfl
  moves distance here := congrArg Except.ok (h.moves_repeated distance here)

theorem many1 (h : Disciplined p) : Disciplined (Parser.many1 p) where
  onward := h.onward.many1
  inRange here := meetsOnly_many1 (R := fun middle => middle.total = here.total)
    (Failure.mergeClosed_inRange _) (fun _ => h.meetsOnly)
    (fun _ _ _ htotal hacc => (h.total_eq hacc).trans htotal) rfl (inRange_here List.nodup_nil)
  moves distance here := by
    unfold Parser.many1
    rw [h.moves_repeated]
    obtain ⟨values, next, furthest?⟩ := repeated p here
    cases values with
    | nil => cases furthest? <;> rfl
    | cons first rest => rfl

theorem moves_separated (h : Disciplined p) (h' : Disciplined q) (distance : Nat)
    (here : Cursor) :
    separated p q (here.moved distance) = (separated p q here).moved distance := by
  fun_induction separated p q here with
  | case1 here failure heq =>
      rw [separated, h'.moves, heq]
      rfl
  | case2 here gap hgap failure heq =>
      rw [separated, h'.moves, hgap]
      simp only [Outcome.moved, Parsed.moved, h.moves, heq]
      rw [← Failure.furthest_moved]
      rfl
  | case3 here gap hgap parsed heq hless rest ih =>
      rw [separated, h'.moves, hgap]
      simp only [Outcome.moved, Parsed.moved, h.moves, heq, rest]
      rw [if_pos (by exact hless), ih]
      simp only [Parsed.moved, Failure.furthest_moved]
  | case4 here gap hgap parsed heq hless =>
      rw [separated, h'.moves, hgap]
      simp only [Outcome.moved, Parsed.moved, h.moves, heq]
      rw [if_neg (by exact hless)]

theorem separatedBy (h : Disciplined p) (h' : Disciplined q) :
    Disciplined (Parser.separatedBy p q) where
  onward := h.onward.separatedBy h'.onward
  inRange here := meetsOnly_separatedBy (R := fun middle => middle.total = here.total)
    (Failure.mergeClosed_inRange _) (fun _ => h'.meetsOnly)
    (fun _ _ _ htotal hgap => h.meetsOnly ((h'.total_eq hgap).trans htotal))
    (fun _ _ _ _ _ htotal hgap hitem =>
      (h.total_eq hitem).trans ((h'.total_eq hgap).trans htotal))
    (h.inRange here) fun _ _ hitem => h.total_eq hitem
  moves distance here := by
    unfold Parser.separatedBy
    rw [h.moves]
    cases p here with
    | error failure => rfl
    | ok first =>
        simp only [Outcome.moved, Parsed.moved, h.moves_separated h', Failure.furthest_moved]

end Disciplined

end Parser

end QueryBatching
