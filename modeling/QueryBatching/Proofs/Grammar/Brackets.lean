/-
How deep the brackets of some tokens nest.

At a place between two tokens as many braces and square brackets are open as were opened before it
and not closed; which of the two kinds closes which is not asked.  Tokens nest within a limit if
nowhere more brackets are open.  That says the same of every list of tokens, also of one that closes
brackets it never opened.

The check of the nesting limit counts in another way: a closing bracket too many is not counted.  So
its counter may be ahead of the number of open brackets, and never behind.  Where tokens close
nothing that they did not open, the two are the same.
-/
import Mathlib.Data.List.Infix
import QueryBatching.Proofs.Document.Legal

namespace QueryBatching

open Grammar (bracketPairs brackets nestingLimit tooDeep?)
open Token (Kind)

/-! ### Open brackets -/

/-- What a token adds to the number of open braces and square brackets. -/
def Token.Kind.weight : Kind → Int
  | .braceOpen | .bracketOpen => 1
  | .braceClose | .bracketClose => -1
  | _ => 0

namespace Token

/-- How many more braces and square brackets are opened than closed. -/
def excess : List Token → Int
  | [] => 0
  | t :: rest => t.kind.weight + excess rest

/-- At no place are more than `limit` braces and square brackets open. -/
def NestsWithin (limit : Nat) (tokens : List Token) : Prop :=
  ∀ front, front <+: tokens → excess front ≤ limit

@[simp] theorem excess_nil : excess [] = 0 := rfl

@[simp] theorem excess_cons (t : Token) (tokens : List Token) :
    excess (t :: tokens) = t.kind.weight + excess tokens := rfl

@[simp] theorem excess_append (first second : List Token) :
    excess (first ++ second) = excess first + excess second := by
  induction first with
  | nil => rw [List.nil_append, excess_nil, Int.zero_add]
  | cons t first ih => rw [List.cons_append, excess_cons, excess_cons, ih, Int.add_assoc]

theorem weight_eq_zero {kind : Kind} (h : kind ∉ brackets) : kind.weight = 0 := by
  cases kind <;> first | rfl | exact absurd (by decide) h

theorem weight_opening {opening closing : Kind} (h : (opening, closing) ∈ bracketPairs) :
    opening.weight = 1 := by
  simp only [bracketPairs, List.mem_cons, Prod.mk.injEq, List.not_mem_nil, or_false] at h
  rcases h with ⟨rfl, -⟩ | ⟨rfl, -⟩ <;> rfl

theorem weight_closing {opening closing : Kind} (h : (opening, closing) ∈ bracketPairs) :
    closing.weight = -1 := by
  simp only [bracketPairs, List.mem_cons, Prod.mk.injEq, List.not_mem_nil, or_false] at h
  rcases h with ⟨-, rfl⟩ | ⟨-, rfl⟩ <;> rfl

/-- A token is an opening bracket, a closing one, or neither. -/
theorem bracket_cases (kind : Kind) :
    (∃ closing, (kind, closing) ∈ bracketPairs) ∨ (∃ opening, (opening, kind) ∈ bracketPairs) ∨
      kind ∉ brackets := by
  cases kind with
  | braceOpen => exact .inl ⟨.braceClose, by decide⟩
  | bracketOpen => exact .inl ⟨.bracketClose, by decide⟩
  | braceClose => exact .inr (.inl ⟨.braceOpen, by decide⟩)
  | bracketClose => exact .inr (.inl ⟨.bracketOpen, by decide⟩)
  | _ => exact .inr (.inr (by decide))

/-! ### Within a limit -/

theorem forall_prefix_cons {P : List Token → Prop} {t : Token} {tokens : List Token} :
    (∀ front, front <+: t :: tokens → P front) ↔
      P [] ∧ ∀ front, front <+: tokens → P (t :: front) := by
  constructor
  · exact fun h => ⟨h [] List.nil_prefix, fun front hfront =>
      h (t :: front) ((List.prefix_cons_inj t).mpr hfront)⟩
  · rintro ⟨hnil, hcons⟩ front hfront
    rcases List.prefix_cons_iff.mp hfront with rfl | ⟨rest, rfl, hrest⟩
    · exact hnil
    · exact hcons rest hrest

/-- What is behind tokens that leave nothing open. -/
theorem NestsWithin.of_append {limit : Nat} {first second : List Token}
    (h : NestsWithin limit (first ++ second)) (hfirst : excess first = 0) :
    NestsWithin limit second := by
  intro front hfront
  have := h (first ++ front) ((List.prefix_append_right_inj first).mpr hfront)
  rwa [excess_append, hfirst, Int.zero_add] at this

/-- Behind an opening bracket there is room for one bracket less. -/
theorem NestsWithin.of_opening {opening closing : Kind} (hpair : (opening, closing) ∈ bracketPairs)
    {limit : Nat} {t : Token} {tokens : List Token} (ht : t.kind = opening)
    (h : NestsWithin limit (t :: tokens)) : ∃ less, limit = less + 1 ∧ NestsWithin less tokens := by
  obtain ⟨-, h⟩ := forall_prefix_cons.mp h
  simp only [excess_cons, ht, weight_opening hpair] at h
  have hone := h [] List.nil_prefix
  rw [excess_nil] at hone
  obtain ⟨less, rfl⟩ : ∃ less, limit = less + 1 := ⟨limit - 1, by omega⟩
  refine ⟨less, rfl, fun front hfront => ?_⟩
  have := h front hfront
  push_cast at this
  omega

/-- No more brackets can be open than there are tokens. -/
theorem nestsWithin_length (tokens : List Token) : NestsWithin tokens.length tokens := by
  have hweight : ∀ kind : Kind, kind.weight ≤ 1 := by
    intro kind
    cases kind <;> decide
  have hfront : ∀ front : List Token, excess front ≤ front.length := by
    intro front
    induction front with
    | nil => exact le_rfl
    | cons t front ih =>
        have := hweight t.kind
        rw [excess_cons, List.length_cons]
        push_cast
        omega
  intro front hprefix
  have := hprefix.length_le
  exact (hfront front).trans (by exact_mod_cast this)

/-! ### Brackets in pairs -/

/-- Every bracket that is opened is closed, and none is closed that was not opened. -/
structure Balanced (tokens : List Token) : Prop where
  total : excess tokens = 0
  nonneg : ∀ front, front <+: tokens → 0 ≤ excess front

theorem balanced_nil : Balanced [] where
  total := rfl
  nonneg front hfront := by rw [List.prefix_nil.mp hfront, excess_nil]

theorem Balanced.append {first second : List Token} (h : Balanced first) (h' : Balanced second) :
    Balanced (first ++ second) := by
  refine ⟨by rw [excess_append, h.total, h'.total, Int.add_zero], fun front hfront => ?_⟩
  rcases List.prefix_or_prefix_of_prefix hfront (List.prefix_append first second) with hle | hle
  · exact h.nonneg front hle
  · obtain ⟨rest, rfl⟩ := hle
    rw [excess_append, h.total, Int.zero_add]
    exact h'.nonneg rest ((List.prefix_append_right_inj first).mp hfront)

theorem balanced_singleton {t : Token} (h : t.kind ∉ brackets) : Balanced [t] := by
  refine ⟨by simp [weight_eq_zero h], forall_prefix_cons.mpr ⟨le_rfl, fun front hfront => ?_⟩⟩
  rw [List.prefix_nil.mp hfront, excess_cons, weight_eq_zero h, excess_nil, Int.add_zero]

theorem balanced_of_forall {tokens : List Token} (h : ∀ t ∈ tokens, t.kind ∉ brackets) :
    Balanced tokens := by
  induction tokens with
  | nil => exact balanced_nil
  | cons t tokens ih =>
      rw [List.forall_mem_cons] at h
      exact (balanced_singleton h.1).append (ih h.2)

theorem Balanced.enclosed {opening closing : Kind} (hpair : (opening, closing) ∈ bracketPairs)
    {o c : Token} {inner : List Token} (h : Balanced inner) (ho : o.kind = opening)
    (hc : c.kind = closing) : Balanced (o :: inner ++ [c]) := by
  have hopen : o.kind.weight = 1 := ho ▸ weight_opening hpair
  have hclose : c.kind.weight = -1 := hc ▸ weight_closing hpair
  refine ⟨by simp [hopen, hclose, h.total], forall_prefix_cons.mpr ⟨le_rfl, fun front hfront => ?_⟩⟩
  rw [excess_cons, hopen]
  rcases List.prefix_or_prefix_of_prefix hfront (List.prefix_append inner [c]) with hle | hle
  · have := h.nonneg front hle
    omega
  · obtain ⟨rest, rfl⟩ := hle
    have hrest := (List.prefix_append_right_inj inner).mp hfront
    rw [excess_append, h.total]
    rcases List.prefix_cons_iff.mp hrest with rfl | ⟨rest, rfl, hnil⟩
    · simp
    · rw [List.prefix_nil.mp hnil, excess_cons, hclose, excess_nil]
      omega

end Token

/-! ### The check of the limit -/

namespace Grammar

open Token (NestsWithin Balanced excess excess_cons forall_prefix_cons weight_eq_zero
  weight_opening weight_closing)

/-- The counter is never behind the number of open brackets, so no front of tokens that pass the
check opens more than the limit. -/
theorem excess_le_of_tooDeep? {depth : Nat} {tokens : List Token} (hdepth : depth ≤ nestingLimit)
    (h : tooDeep? depth tokens = none) :
    ∀ front, front <+: tokens → depth + excess front ≤ nestingLimit := by
  induction tokens generalizing depth with
  | nil =>
      intro front hfront
      rw [List.prefix_nil.mp hfront, Token.excess_nil, Int.add_zero]
      exact_mod_cast hdepth
  | cons t tokens ih =>
      refine forall_prefix_cons.mpr ⟨?_, fun front hfront => ?_⟩
      · rw [Token.excess_nil, Int.add_zero]
        exact_mod_cast hdepth
      rw [excess_cons]
      rcases Token.bracket_cases t.kind with ⟨closing, hpair⟩ | ⟨opening, hpair⟩ | hother
      · rw [tooDeep?_opening hpair rfl] at h
        split at h
        · simp at h
        · have := ih (by omega) h front hfront
          rw [weight_opening hpair]
          push_cast at this
          omega
      · rw [tooDeep?_closing hpair rfl] at h
        have := ih (by omega) h front hfront
        rw [weight_closing hpair]
        omega
      · rw [tooDeep?_cons hother] at h
        rw [weight_eq_zero hother, Int.zero_add]
        exact ih hdepth h front hfront

/-- Where nothing is closed that was not opened the counter is the number of open brackets, so
tokens pass the check if no front of them opens more than the limit. -/
theorem tooDeep?_of_excess_le {depth : Nat} {tokens : List Token}
    (hnonneg : ∀ front, front <+: tokens → 0 ≤ depth + excess front)
    (h : ∀ front, front <+: tokens → depth + excess front ≤ nestingLimit) :
    tooDeep? depth tokens = none := by
  induction tokens generalizing depth with
  | nil => rfl
  | cons t tokens ih =>
      obtain ⟨-, hnonneg⟩ := forall_prefix_cons.mp hnonneg
      obtain ⟨-, h⟩ := forall_prefix_cons.mp h
      simp only [excess_cons] at hnonneg h
      rcases Token.bracket_cases t.kind with ⟨closing, hpair⟩ | ⟨opening, hpair⟩ | hother
      · simp only [weight_opening hpair] at hnonneg h
        have hroom := h [] List.nil_prefix
        rw [Token.excess_nil] at hroom
        rw [tooDeep?_opening hpair rfl, if_neg (by omega)]
        refine ih (fun front hfront => ?_) fun front hfront => ?_
        · have := hnonneg front hfront
          push_cast
          omega
        · have := h front hfront
          push_cast
          omega
      · simp only [weight_closing hpair] at hnonneg h
        have hopen := hnonneg [] List.nil_prefix
        rw [Token.excess_nil] at hopen
        rw [tooDeep?_closing hpair rfl]
        refine ih (fun front hfront => ?_) fun front hfront => ?_
        · have := hnonneg front hfront
          omega
        · have := h front hfront
          omega
      · simp only [weight_eq_zero hother, Int.zero_add] at hnonneg h
        rw [tooDeep?_cons hother]
        exact ih hnonneg h

/-- **What the check lets through nests within the limit**, however its brackets fit together. -/
theorem nestsWithin_of_tooDeep? {tokens : List Token} (h : tooDeep? 0 tokens = none) :
    NestsWithin nestingLimit tokens := by
  intro front hfront
  have := excess_le_of_tooDeep? (Nat.zero_le _) h front hfront
  simpa using this

/-- Where every bracket is closed, that is all the check asks. -/
theorem tooDeep?_eq_none_iff {tokens : List Token} (h : Balanced tokens) :
    tooDeep? 0 tokens = none ↔ NestsWithin nestingLimit tokens := by
  refine ⟨nestsWithin_of_tooDeep?, fun hwithin => tooDeep?_of_excess_le ?_ ?_⟩
  · intro front hfront
    have := h.nonneg front hfront
    omega
  · intro front hfront
    have := hwithin front hfront
    omega

end Grammar

end QueryBatching
