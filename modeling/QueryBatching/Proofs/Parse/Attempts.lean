/-
Runs that may be given up.

That a parser's run ends is built into the parsers: a repetition goes on only while there are
fewer tokens ahead than before.  Here are the combinators once more with loops that know nothing
of the tokens ahead.  Each goes on until its item fails or leaves the cursor where it was, gathers
values and failures as it goes, and gives up after so many rounds.

With one round more than there are tokens ahead no loop gives up, since every round but the last
has taken a token: `Completes` says so of an attempt and the parser whose run it is.  The loops
fold failures from the left and the parsers from the right, which is the same because
`Failure.furthest` is associative.
-/
import QueryBatching.Proofs.Parse.Discipline
import QueryBatching.Proofs.Parse.Furthest

namespace QueryBatching

open Parse
open Token (Kind)

/-! ### Attempts -/

/-- A run that may be given up, and then has no outcome. -/
abbrev Attempt (α : Type) := Cursor → Option (Outcome α)

namespace Attempt

variable {α β γ : Type}

/-- The attempt that runs the parser to its end. -/
def whole (p : Parser α) : Attempt α := fun here => some (p here)

def map (f : α → β) (p : Attempt α) : Attempt β := fun here =>
  (p here).map fun outcome => outcome.map (Parsed.map f)

def optional (p : Attempt α) : Attempt (Option α) := fun here =>
  (p here).map fun
    | .ok parsed => .ok (parsed.map some)
    | .error failure => .ok ⟨none, here, some failure⟩

def both (p : Attempt α) (q : Attempt β) : Attempt (α × β) := fun here =>
  match p here with
  | none => none
  | some (.error failure) => some (.error failure)
  | some (.ok a) =>
    (q a.next).map fun
      | .ok b => .ok ⟨(a.value, b.value), b.next, Failure.furthest a.furthest? b.furthest?⟩
      | .error failure => .error (failure.mergedWith a.furthest?)

def left (p : Attempt α) (q : Attempt β) : Attempt α := map Prod.fst (both p q)

def right (p : Attempt α) (q : Attempt β) : Attempt β := fun here =>
  match p here with
  | none => none
  | some (.error failure) => some (.error failure)
  | some (.ok a) =>
    (q a.next).map fun
      | .ok b => .ok (b.meeting a.furthest?)
      | .error failure => .error (failure.mergedWith a.furthest?)

def delimited (opening : Attempt α) (inner : Attempt β) (closing : Attempt γ) : Attempt β :=
  left (right opening inner) closing

def sequence (ps : List (Attempt α)) : Attempt (List α) :=
  ps.foldl (fun front p => map (fun (values, value) => values ++ [value]) (both front p))
    (whole (Parser.succeed [] none))

def choiceAfter (failure? : Option Failure) : List (Attempt α) → Attempt α
  | [], here => some (.error (failure?.getD ⟨here.index, []⟩))
  | p :: ps, here =>
    match p here with
    | none => none
    | some (.ok parsed) => some (.ok (parsed.meeting failure?))
    | some (.error failure) => choiceAfter (Failure.furthest failure? (some failure)) ps here

def choice (ps : List (Attempt α)) : Attempt α := choiceAfter none ps

/-- The loop of a repetition, after it has gathered `values` and `furthest?`. -/
def repeatedFrom (p : Attempt α) :
    (rounds : Nat) → List α → Cursor → Option Failure → Option (Parsed (List α))
  | 0, _, _, _ => none
  | rounds + 1, values, here, furthest? =>
    match p here with
    | none => none
    | some (.error failure) => some ⟨values, here, Failure.furthest furthest? (some failure)⟩
    | some (.ok parsed) =>
      let met := Failure.furthest furthest? parsed.furthest?
      if parsed.next.index = here.index then some ⟨values, here, met⟩
      else repeatedFrom p rounds (values ++ [parsed.value]) parsed.next met

def many (rounds : Nat) (p : Attempt α) : Attempt (List α) := fun here =>
  (repeatedFrom p rounds [] here none).map .ok

def many1 (rounds : Nat) (p : Attempt α) : Attempt (List α) := fun here =>
  (repeatedFrom p rounds [] here none).map fun parsed =>
    if parsed.value.isEmpty then .error (parsed.furthest?.getD ⟨here.index, []⟩) else .ok parsed

/-- The loop of a repetition with separators, after it has gathered `values` and `furthest?`. -/
def separatedFrom (item : Attempt α) (separator : Attempt β) :
    (rounds : Nat) → List α → Cursor → Option Failure → Option (Parsed (List α))
  | 0, _, _, _ => none
  | rounds + 1, values, here, furthest? =>
    match separator here with
    | none => none
    | some (.error failure) => some ⟨values, here, Failure.furthest furthest? (some failure)⟩
    | some (.ok gap) =>
      let met := Failure.furthest furthest? gap.furthest?
      match item gap.next with
      | none => none
      | some (.error failure) => some ⟨values, here, Failure.furthest met (some failure)⟩
      | some (.ok parsed) =>
        if here.index < parsed.next.index then
          separatedFrom item separator rounds (values ++ [parsed.value]) parsed.next
            (Failure.furthest met parsed.furthest?)
        else some ⟨values, here, met⟩

def separatedBy (rounds : Nat) (item : Attempt α) (separator : Attempt β) :
    Attempt (List α) := fun here =>
  match item here with
  | none => none
  | some (.error failure) => some (.ok ⟨[], here, some failure⟩)
  | some (.ok first) =>
    (separatedFrom item separator rounds [first.value] first.next first.furthest?).map .ok

/-! ### Attempts that run to the end -/

/-- With fewer than `limit` tokens ahead the attempt is the run of the parser. -/
def Completes (limit : Nat) (attempt : Attempt α) (p : Parser α) : Prop :=
  ∀ here : Cursor, here.ahead.length < limit → attempt here = some (p here)

namespace Completes

variable {limit : Nat} {a : Attempt α} {b : Attempt β} {p : Parser α} {q : Parser β}

theorem whole (p : Parser α) : Completes limit (Attempt.whole p) p := fun _ _ => rfl

theorem map (h : Completes limit a p) (f : α → β) :
    Completes limit (Attempt.map f a) (Parser.map f p) := by
  intro here hless
  unfold Attempt.map
  rw [h here hless]
  rfl

theorem optional (h : Completes limit a p) :
    Completes limit (Attempt.optional a) (Parser.optional p) := by
  intro here hless
  unfold Attempt.optional Parser.optional
  rw [h here hless]
  cases p here <;> rfl

theorem both (h : Completes limit a p) (h' : Completes limit b q) (hp : p.Onward) :
    Completes limit (Attempt.both a b) (Parser.both p q) := by
  intro here hless
  unfold Attempt.both Parser.both
  rw [h here hless]
  cases heq : p here with
  | error failure => rfl
  | ok parsed =>
      have hle := hp.length_le (Parser.accepts_of_eq_ok heq)
      dsimp only
      rw [h' parsed.next (by omega)]
      cases q parsed.next <;> rfl

theorem left (h : Completes limit a p) (h' : Completes limit b q) (hp : p.Onward) :
    Completes limit (Attempt.left a b) (Parser.left p q) :=
  (h.both h' hp).map Prod.fst

theorem right (h : Completes limit a p) (h' : Completes limit b q) (hp : p.Onward) :
    Completes limit (Attempt.right a b) (Parser.right p q) := by
  intro here hless
  unfold Attempt.right Parser.right
  rw [h here hless]
  cases heq : p here with
  | error failure => rfl
  | ok parsed =>
      have hle := hp.length_le (Parser.accepts_of_eq_ok heq)
      dsimp only
      rw [h' parsed.next (by omega)]
      cases q parsed.next <;> rfl

/-- The loop has gathered what the repetition goes on from. -/
theorem repeatedFrom (h : Completes limit a p) (hp : p.Onward) {rounds : Nat} {here : Cursor}
    (hless : here.ahead.length < limit) (hrounds : here.ahead.length < rounds) (values : List α)
    (furthest? : Option Failure) :
    Attempt.repeatedFrom a rounds values here furthest? =
      some ⟨values ++ (Parser.repeated p here).value, (Parser.repeated p here).next,
        Failure.furthest furthest? (Parser.repeated p here).furthest?⟩ := by
  induction rounds generalizing values here furthest? with
  | zero => omega
  | succ rounds ih =>
      rw [Attempt.repeatedFrom, h here hless, Parser.repeated]
      cases heq : p here with
      | error failure => simp
      | ok parsed =>
          obtain ⟨taken, -, hadv⟩ := hp.sound (Parser.accepts_of_eq_ok heq)
          dsimp only
          by_cases hgoes : parsed.next.ahead.length < here.ahead.length
          · rw [if_neg (fun hsame => hadv.index_eq_iff.mp hsame hgoes), if_pos hgoes,
              ih (by omega) (by omega)]
            simp [Failure.furthest_assoc]
          · rw [if_pos (hadv.index_eq_iff.mpr hgoes), if_neg hgoes]
            simp

theorem many (h : Completes limit a p) (hp : p.Onward) :
    Completes limit (Attempt.many limit a) (Parser.many p) := by
  intro here hless
  unfold Attempt.many Parser.many
  rw [h.repeatedFrom hp hless hless]
  simp

theorem many1 (h : Completes limit a p) (hp : p.Onward) :
    Completes limit (Attempt.many1 limit a) (Parser.many1 p) := by
  intro here hless
  unfold Attempt.many1 Parser.many1
  rw [h.repeatedFrom hp hless hless]
  simp

theorem separatedFrom (h : Completes limit a p) (h' : Completes limit b q) (hp : p.Onward)
    (hq : q.Onward) {rounds : Nat} {here : Cursor} (hless : here.ahead.length < limit)
    (hrounds : here.ahead.length < rounds) (values : List α) (furthest? : Option Failure) :
    Attempt.separatedFrom a b rounds values here furthest? =
      some ⟨values ++ (Parser.separated p q here).value, (Parser.separated p q here).next,
        Failure.furthest furthest? (Parser.separated p q here).furthest?⟩ := by
  induction rounds generalizing values here furthest? with
  | zero => omega
  | succ rounds ih =>
      rw [Attempt.separatedFrom, h' here hless, Parser.separated]
      cases hgap : q here with
      | error failure => simp
      | ok gap =>
          obtain ⟨skipped, -, hskip⟩ := hq.sound (Parser.accepts_of_eq_ok hgap)
          have hle := hq.length_le (Parser.accepts_of_eq_ok hgap)
          dsimp only
          rw [h gap.next (by omega)]
          cases hitem : p gap.next with
          | error failure => simp [Failure.furthest_assoc]
          | ok parsed =>
              obtain ⟨taken, -, hadv⟩ := hp.sound (Parser.accepts_of_eq_ok hitem)
              have hboth := hskip.trans hadv
              dsimp only
              by_cases hgoes : parsed.next.ahead.length < here.ahead.length
              · have hon : here.index < parsed.next.index := by
                  have hne : parsed.next.index ≠ here.index :=
                    fun hsame => hboth.index_eq_iff.mp hsame hgoes
                  have hindex := hboth.index
                  omega
                rw [if_pos hon, if_pos hgoes, ih (by omega) (by omega)]
                simp [Failure.furthest_assoc]
              · have hsame := hboth.index_eq_iff.mpr hgoes
                rw [if_neg (by omega), if_neg hgoes]
                simp

theorem separatedBy (h : Completes limit a p) (h' : Completes limit b q) (hp : p.Onward)
    (hq : q.Onward) :
    Completes limit (Attempt.separatedBy limit a b) (Parser.separatedBy p q) := by
  intro here hless
  unfold Attempt.separatedBy Parser.separatedBy
  rw [h here hless]
  cases heq : p here with
  | error failure => rfl
  | ok first =>
      have hle := hp.length_le (Parser.accepts_of_eq_ok heq)
      dsimp only
      rw [h.separatedFrom h' hp hq (by omega) (by omega)]
      rfl

theorem sequence {as : List (Attempt α)} {ps : List (Parser α)}
    (h : List.Forall₂ (Completes limit) as ps) (hps : ∀ p ∈ ps, p.Onward) :
    Completes limit (Attempt.sequence as) (Parser.sequence ps) := by
  have hfold : ∀ (front : Attempt (List α)) (front' : Parser (List α)),
      Completes limit front front' → front'.Onward →
      Completes limit
        (as.foldl (fun front a => Attempt.map (fun (values, value) => values ++ [value])
          (Attempt.both front a)) front)
        (ps.foldl (fun front p => Parser.map (fun (values, value) => values ++ [value])
          (Parser.both front p)) front') := by
    induction h with
    | nil => exact fun _ _ hfront _ => hfront
    | cons hfirst _ ih =>
        intro front front' hfront honward
        rw [List.forall_mem_cons] at hps
        exact ih hps.2 _ _ ((hfront.both hfirst honward).map _) ((honward.both hps.1).map _)
  exact hfold _ _ (.whole _) (Parser.Disciplined.succeed []).onward

theorem choice {as : List (Attempt α)} {ps : List (Parser α)}
    (h : List.Forall₂ (Completes limit) as ps) :
    Completes limit (Attempt.choice as) (Parser.choice ps) := by
  have hafter : ∀ (failure? : Option Failure),
      Completes limit (Attempt.choiceAfter failure? as) (Parser.choiceAfter failure? ps) := by
    induction h with
    | nil => exact fun _ _ _ => rfl
    | @cons a p as ps hfirst _ ih =>
        intro failure? here hless
        unfold Attempt.choiceAfter Parser.choiceAfter
        rw [hfirst here hless]
        cases p here with
        | error failure => exact ih _ here hless
        | ok parsed => rfl
  exact hafter none

end Completes

end Attempt

end QueryBatching
