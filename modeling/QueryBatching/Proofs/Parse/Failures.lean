/-
The failures a parser meets.

What is reported is put together from the failures of the alternatives that were tried, of the
attempts that ended a repetition and of the parts that were left out, carried through every
success on the way.  All that any combinator does with them is to merge two.  So a property
that two failures have together whenever each of them has it, is a property of everything
that is ever reported, if it is one of the failures at single tokens.

`MeetsOnly p here P` says that the failure that `p` carries away from a cursor has the property.
Each combinator is treated once, for any such property.
-/
import QueryBatching.Proofs.Parse.Acceptance

namespace QueryBatching

open Token (Kind)

namespace Parse

variable {α : Type}

/-! ### Merging two failures -/

namespace Failure

theorem mem_addKind {kinds : List Kind} {kind new : Kind} :
    kind ∈ addKind kinds new ↔ kind ∈ kinds ∨ kind = new := by
  unfold addKind
  split
  · rename_i hmem
    constructor
    · exact .inl
    · rintro (h | rfl)
      · exact h
      · exact hmem
  · rw [List.mem_append, List.mem_singleton]

theorem nodup_addKind {kinds : List Kind} {new : Kind} (h : kinds.Nodup) :
    (addKind kinds new).Nodup := by
  unfold addKind
  split
  · exact h
  · rename_i hnot
    refine List.nodup_append.mpr ⟨h, List.nodup_cons.mpr ⟨List.not_mem_nil, List.nodup_nil⟩, ?_⟩
    rintro kind hkind _ hnew rfl
    exact hnot (List.mem_singleton.mp hnew ▸ hkind)

theorem mem_foldl_addKind {more kinds : List Kind} {kind : Kind} :
    kind ∈ more.foldl addKind kinds ↔ kind ∈ kinds ∨ kind ∈ more := by
  induction more generalizing kinds with
  | nil => simp
  | cons new more ih => rw [List.foldl_cons, ih, mem_addKind, List.mem_cons, or_assoc]

theorem nodup_foldl_addKind {more kinds : List Kind} (h : kinds.Nodup) :
    (more.foldl addKind kinds).Nodup := by
  induction more generalizing kinds with
  | nil => exact h
  | cons new more ih => exact ih (nodup_addKind h)

/-- Two failures together are the further one, or both of them at the same token. -/
inductive IsMerge (a b : Failure) : Failure → Prop
  | second (h : a.index < b.index) : IsMerge a b b
  | first (h : b.index < a.index) : IsMerge a b a
  | union (h : a.index = b.index) (expected : List Kind)
      (hmem : ∀ kind, kind ∈ expected ↔ kind ∈ a.expected ∨ kind ∈ b.expected)
      (hnodup : a.expected.Nodup → expected.Nodup) : IsMerge a b ⟨a.index, expected⟩

theorem isMerge (a b : Failure) : IsMerge a b (a.merge b) := by
  unfold merge
  split
  · rename_i hless
    exact .second hless
  · split
    · rename_i heq
      exact .union heq _ (fun _ => mem_foldl_addKind) nodup_foldl_addKind
    · exact .first (by omega)

/-- One failure at most, which has the property. -/
theorem forall_mem_some {P : Failure → Prop} {failure : Failure} (h : P failure) :
    ∀ f ∈ some failure, P f :=
  fun _ hf => Option.some.inj hf ▸ h

/-- A failure that may be missing, or another one in its place. -/
theorem getD_of_forall {P : Failure → Prop} {failure? : Option Failure} {default : Failure}
    (h : ∀ f ∈ failure?, P f) (hdefault : P default) : P (failure?.getD default) := by
  cases failure? with
  | none => exact hdefault
  | some failure => exact h failure rfl

/-- A property that two failures have together if each of them has it. -/
def MergeClosed (P : Failure → Prop) : Prop := ∀ ⦃a b : Failure⦄, P a → P b → P (a.merge b)

namespace MergeClosed

variable {P : Failure → Prop}

theorem furthest (h : MergeClosed P) {a? b? : Option Failure} (ha : ∀ f ∈ a?, P f)
    (hb : ∀ f ∈ b?, P f) : ∀ f ∈ Failure.furthest a? b?, P f := by
  cases a? with
  | none =>
      cases b? with
      | none => exact nofun
      | some b => exact hb
  | some a =>
      cases b? with
      | none => exact ha
      | some b => exact forall_mem_some (h (ha a rfl) (hb b rfl))

theorem mergedWith (h : MergeClosed P) {a : Failure} {b? : Option Failure} (ha : P a)
    (hb : ∀ f ∈ b?, P f) : P (a.mergedWith b?) := by
  cases b? with
  | none => exact ha
  | some b => exact h ha (hb b rfl)

theorem of_isMerge (h : ∀ ⦃a b c : Failure⦄, IsMerge a b c → P a → P b → P c) : MergeClosed P :=
  fun a b => h (isMerge a b)

end MergeClosed

end Failure

/-- The failure that an outcome carries along: its own, or the furthest one met on the way. -/
def Outcome.met? : Outcome α → Option Failure
  | .ok parsed => parsed.furthest?
  | .error failure => some failure

end Parse

namespace Parser

open Parse

variable {α β γ : Type} {P : Failure → Prop}

/-- The failure that the parser carries away from here has the property. -/
def MeetsOnly (p : Parser α) (here : Cursor) (P : Failure → Prop) : Prop :=
  ∀ f ∈ Outcome.met? (p here), P f

theorem MeetsOnly.mono {p : Parser α} {here : Cursor} {Q : Failure → Prop}
    (h : MeetsOnly p here P) (hle : ∀ f, P f → Q f) : MeetsOnly p here Q :=
  fun f hf => hle f (h f hf)

theorem MeetsOnly.of_error {p : Parser α} {here : Cursor} {failure : Failure}
    (h : MeetsOnly p here P) (hp : p here = .error failure) : P failure :=
  h failure (by rw [hp]; rfl)

theorem MeetsOnly.of_ok {p : Parser α} {here : Cursor} {parsed : Parsed α}
    (h : MeetsOnly p here P) (hp : p here = .ok parsed) : ∀ f ∈ parsed.furthest?, P f :=
  fun f hf => h f (by rw [hp]; exact hf)

/-! ### One parser -/

theorem meetsOnly_stop {here : Cursor} (h : P ⟨here.index, []⟩) :
    MeetsOnly (stop : Parser α) here P := by
  exact Failure.forall_mem_some h

theorem meetsOnly_token {accepts : Token → Bool} {kind : Kind} {here : Cursor}
    (h : P ⟨here.index, [kind]⟩) : MeetsOnly (token accepts kind) here P := by
  unfold MeetsOnly token
  split
  · split
    · exact nofun
    · exact Failure.forall_mem_some h
  · exact Failure.forall_mem_some h

theorem MeetsOnly.map {p : Parser α} {here : Cursor} {f : α → β} (h : MeetsOnly p here P) :
    MeetsOnly (map f p) here P := by
  unfold MeetsOnly Parser.map
  cases hp : p here with
  | ok parsed => exact h.of_ok hp
  | error failure =>
      exact Failure.forall_mem_some (h.of_error hp)

theorem MeetsOnly.placed {p : Parser α} {here : Cursor} {f : Position → α → β}
    (h : MeetsOnly p here P) : MeetsOnly (placed f p) here P :=
  h.map

theorem MeetsOnly.optional {p : Parser α} {here : Cursor} (h : MeetsOnly p here P) :
    MeetsOnly (optional p) here P := by
  unfold MeetsOnly Parser.optional
  split
  · rename_i parsed hp
    exact h.of_ok hp
  · rename_i failure hp
    exact Failure.forall_mem_some (h.of_error hp)

/-! ### One parser after another -/

section Sequences

variable (hP : Failure.MergeClosed P) {p : Parser α} {q : Parser β} {here : Cursor}
  (hp : MeetsOnly p here P) (hq : ∀ a middle, Accepts p here a middle → MeetsOnly q middle P)

include hP hp hq

theorem MeetsOnly.both : MeetsOnly (both p q) here P := by
  unfold MeetsOnly Parser.both
  split
  · rename_i failure hfail
    exact Failure.forall_mem_some (hp.of_error hfail)
  · rename_i a ha
    have hnext := hq a.value a.next (accepts_of_eq_ok ha)
    split
    · rename_i b hb
      exact hP.furthest (hp.of_ok ha) (hnext.of_ok hb)
    · rename_i failure hfail
      exact Failure.forall_mem_some (hP.mergedWith (hnext.of_error hfail) (hp.of_ok ha))

theorem MeetsOnly.left : MeetsOnly (left p q) here P := (hp.both hP hq).map

theorem MeetsOnly.right : MeetsOnly (right p q) here P := by
  unfold MeetsOnly Parser.right
  split
  · rename_i failure hfail
    exact Failure.forall_mem_some (hp.of_error hfail)
  · rename_i a ha
    have hnext := hq a.value a.next (accepts_of_eq_ok ha)
    split
    · rename_i b hb
      exact hP.furthest (hnext.of_ok hb) (hp.of_ok ha)
    · rename_i failure hfail
      exact Failure.forall_mem_some (hP.mergedWith (hnext.of_error hfail) (hp.of_ok ha))

end Sequences

/-! ### One parser or another -/

theorem meetsOnly_choiceAfter (hP : Failure.MergeClosed P) {ps : List (Parser α)} {here : Cursor}
    {failure? : Option Failure} (hps : ∀ p ∈ ps, MeetsOnly p here P)
    (hfailure : ∀ f ∈ failure?, P f) (hdefault : P ⟨here.index, []⟩) :
    MeetsOnly (choiceAfter failure? ps) here P := by
  induction ps generalizing failure? with
  | nil => exact Failure.forall_mem_some (Failure.getD_of_forall hfailure hdefault)
  | cons p ps ih =>
      rw [List.forall_mem_cons] at hps
      unfold MeetsOnly choiceAfter
      split
      · rename_i parsed hp
        exact hP.furthest (hps.1.of_ok hp) hfailure
      · rename_i failure hp
        refine ih hps.2 (hP.furthest hfailure ?_)
        exact Failure.forall_mem_some (hps.1.of_error hp)

theorem MeetsOnly.choice (hP : Failure.MergeClosed P) {ps : List (Parser α)} {here : Cursor}
    (hps : ∀ p ∈ ps, MeetsOnly p here P) (hdefault : P ⟨here.index, []⟩) :
    MeetsOnly (choice ps) here P :=
  meetsOnly_choiceAfter hP hps nofun hdefault

/-! ### One parser again and again

The property holds of what is met at every cursor that a repetition can come to.  `R` is an
invariant of these cursors.
-/

section Repetitions

variable (hP : Failure.MergeClosed P) {R : Cursor → Prop}

include hP

theorem met_repeated {p : Parser α} (hp : ∀ middle, R middle → MeetsOnly p middle P)
    (hstep : ∀ middle a next, R middle → Accepts p middle a next → R next) {here : Cursor}
    (hhere : R here) : ∀ f ∈ (repeated p here).furthest?, P f := by
  fun_induction repeated p here with
  | case1 here failure hfail =>
      exact Failure.forall_mem_some ((hp here hhere).of_error hfail)
  | case2 here parsed h hless rest ih =>
      have hnext := hstep here parsed.value parsed.next hhere (accepts_of_eq_ok h)
      exact hP.furthest ((hp here hhere).of_ok h) (ih hnext)
  | case3 here parsed h hless => exact (hp here hhere).of_ok h

theorem meetsOnly_many {p : Parser α} (hp : ∀ middle, R middle → MeetsOnly p middle P)
    (hstep : ∀ middle a next, R middle → Accepts p middle a next → R next) {here : Cursor}
    (hhere : R here) : MeetsOnly (many p) here P :=
  met_repeated hP hp hstep hhere

theorem meetsOnly_many1 {p : Parser α} (hp : ∀ middle, R middle → MeetsOnly p middle P)
    (hstep : ∀ middle a next, R middle → Accepts p middle a next → R next) {here : Cursor}
    (hhere : R here) (hdefault : P ⟨here.index, []⟩) : MeetsOnly (many1 p) here P := by
  have hmet := met_repeated hP hp hstep hhere
  unfold MeetsOnly many1
  dsimp only
  split
  · exact Failure.forall_mem_some (Failure.getD_of_forall hmet hdefault)
  · exact hmet

theorem met_separated {item : Parser α} {separator : Parser β}
    (hgap : ∀ middle, R middle → MeetsOnly separator middle P)
    (hitem : ∀ middle gap next, R middle → Accepts separator middle gap next →
      MeetsOnly item next P)
    (hstep : ∀ middle gap start a next, R middle → Accepts separator middle gap start →
      Accepts item start a next → R next) {here : Cursor} (hhere : R here) :
    ∀ f ∈ (separated item separator here).furthest?, P f := by
  fun_induction separated item separator here with
  | case1 here failure hfail =>
      exact Failure.forall_mem_some ((hgap here hhere).of_error hfail)
  | case2 here gap hseparator failure hfail =>
      refine hP.furthest ((hgap here hhere).of_ok hseparator) ?_
      exact Failure.forall_mem_some
        ((hitem here _ _ hhere (accepts_of_eq_ok hseparator)).of_error hfail)
  | case3 here gap hseparator parsed h hless rest ih =>
      have hgap' := accepts_of_eq_ok hseparator
      exact hP.furthest (hP.furthest ((hgap here hhere).of_ok hseparator)
        ((hitem here _ _ hhere hgap').of_ok h)) (ih (hstep here _ _ _ _ hhere hgap'
          (accepts_of_eq_ok h)))
  | case4 here gap hseparator parsed h hless => exact (hgap here hhere).of_ok hseparator

theorem meetsOnly_separatedBy {item : Parser α} {separator : Parser β}
    (hgap : ∀ middle, R middle → MeetsOnly separator middle P)
    (hitem : ∀ middle gap next, R middle → Accepts separator middle gap next →
      MeetsOnly item next P)
    (hstep : ∀ middle gap start a next, R middle → Accepts separator middle gap start →
      Accepts item start a next → R next) {here : Cursor} (hfirst : MeetsOnly item here P)
    (hafter : ∀ a next, Accepts item here a next → R next) :
    MeetsOnly (separatedBy item separator) here P := by
  unfold MeetsOnly separatedBy
  split
  · rename_i failure hfail
    exact Failure.forall_mem_some (hfirst.of_error hfail)
  · rename_i first h
    exact hP.furthest (hfirst.of_ok h)
      (met_separated hP hgap hitem hstep (hafter _ _ (accepts_of_eq_ok h)))

end Repetitions

end Parser

end QueryBatching
