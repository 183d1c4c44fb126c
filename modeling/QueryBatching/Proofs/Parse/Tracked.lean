/-
How deep a parser goes.

A tracked parser is a parser together with the depth it reaches: from each cursor, the most
bracketed parts that are entered inside one another while it runs.  A part is entered when its
opening bracket has been taken, and it counts in attempts that are given up again as in others.
Each combinator is there once more for tracked parsers; what it runs is the combinator itself.

`Bounded room P` is about a rule with a budget.  Where the tokens ahead nest within `room`, the rule
goes no deeper than that, and with any budget of at least `room` it gives the same answer.  What
makes this go through concatenation is that a rule takes only brackets in pairs: the tokens behind
what it took nest within the same room, however the brackets fit together that it never looks at.
-/
import QueryBatching.Proofs.Grammar.Brackets
import QueryBatching.Proofs.Grammar.Sound

namespace QueryBatching

open Parse (Cursor)
open QueryBatching.Parser (Accepts Repeats Separates)
open Token (Balanced Kind NestsWithin)

/-! ### Parsers that answer alike -/

namespace Parser

variable {α β : Type} {p p' : Parser α} {q q' : Parser β} {here : Cursor}

theorem map_congr (f : α → β) (h : p here = p' here) : map f p here = map f p' here := by
  unfold map
  rw [h]

theorem optional_congr (h : p here = p' here) : optional p here = optional p' here := by
  unfold optional
  rw [h]

theorem both_congr (h : p here = p' here) (h' : ∀ a, p' here = .ok a → q a.next = q' a.next) :
    both p q here = both p' q' here := by
  unfold both
  rw [h]
  cases hp : p' here with
  | error failure => rfl
  | ok a => simp only [h' a hp]

theorem left_congr (h : p here = p' here) (h' : ∀ a, p' here = .ok a → q a.next = q' a.next) :
    left p q here = left p' q' here :=
  map_congr Prod.fst (both_congr h h')

theorem right_congr (h : p here = p' here) (h' : ∀ a, p' here = .ok a → q a.next = q' a.next) :
    right p q here = right p' q' here := by
  unfold right
  rw [h]
  cases hp : p' here with
  | error failure => rfl
  | ok a => simp only [h' a hp]

/-- A repetition looks at no cursors but those that it comes to. -/
theorem repeated_congr {R : Cursor → Prop} (h : ∀ ⦃here⦄, R here → p here = p' here)
    (hkeep : ∀ ⦃here value next⦄, R here → Accepts p here value next → R next) (hhere : R here) :
    repeated p here = repeated p' here := by
  fun_induction repeated p here with
  | case1 here failure heq =>
      rw [repeated, ← h hhere]
      simp only [heq]
  | case2 here parsed heq hless rest ih =>
      rw [repeated, ← h hhere]
      simp only [heq, if_pos hless, rest, ih (hkeep hhere (accepts_of_eq_ok heq))]
  | case3 here parsed heq hless =>
      rw [repeated, ← h hhere]
      simp only [heq, if_neg hless]

/-- A repetition with separators looks at no cursors but those that it comes to. -/
theorem separated_congr {R : Cursor → Prop} (h : ∀ ⦃here⦄, R here → p here = p' here)
    (h' : ∀ ⦃here⦄, R here → q here = q' here)
    (hkeep : ∀ ⦃here value next⦄, R here → Accepts p here value next → R next)
    (hkeep' : ∀ ⦃here value next⦄, R here → Accepts q here value next → R next) (hhere : R here) :
    separated p q here = separated p' q' here := by
  fun_induction separated p q here with
  | case1 here failure hgap =>
      rw [separated, ← h' hhere]
      simp only [hgap]
  | case2 here gap hgap failure hitem =>
      rw [separated, ← h' hhere]
      simp only [hgap, ← h (hkeep' hhere (accepts_of_eq_ok hgap)), hitem]
  | case3 here gap hgap parsed hitem hless rest ih =>
      have hmiddle := hkeep' hhere (accepts_of_eq_ok hgap)
      rw [separated, ← h' hhere]
      simp only [hgap, ← h hmiddle, hitem, if_pos hless, rest,
        ih (hkeep hmiddle (accepts_of_eq_ok hitem))]
  | case4 here gap hgap parsed hitem hless =>
      rw [separated, ← h' hhere]
      simp only [hgap, ← h (hkeep' hhere (accepts_of_eq_ok hgap)), hitem, if_neg hless]

end Parser

/-! ### Tracked parsers -/

/-- A parser, and how deep it goes. -/
structure Tracked (α : Type) where
  run : Parser α
  /-- The most bracketed parts that are entered inside one another while the parser runs. -/
  depth : Cursor → Nat

namespace Tracked

variable {α β γ : Type}

/-- A parser that enters no bracketed part. -/
def plain (p : Parser α) : Tracked α := ⟨p, fun _ => 0⟩

/-- The depth of what runs behind a parser; if that fails, nothing does. -/
def depthAfter (p : Parser α) (depth : Cursor → Nat) (here : Cursor) : Nat :=
  match p here with
  | .ok parsed => depth parsed.next
  | .error _ => 0

/-- `inner` in brackets, which is one level deeper. -/
def nested (opening closing : Kind) (inner : Tracked α) : Tracked α :=
  ⟨Parser.delimited (Parser.expect opening) inner.run (Parser.expect closing),
    depthAfter (Parser.expect opening) fun start => inner.depth start + 1⟩

def map (f : α → β) (p : Tracked α) : Tracked β := ⟨Parser.map f p.run, p.depth⟩

def placed (f : Position → α → β) (p : Tracked α) : Tracked β :=
  ⟨Parser.placed f p.run, p.depth⟩

def optional (p : Tracked α) : Tracked (Option α) := ⟨Parser.optional p.run, p.depth⟩

/-- The depth of two parsers one after the other. -/
def bothDepth (p : Tracked α) (q : Tracked β) (here : Cursor) : Nat :=
  max (p.depth here) (depthAfter p.run q.depth here)

def both (p : Tracked α) (q : Tracked β) : Tracked (α × β) :=
  ⟨Parser.both p.run q.run, bothDepth p q⟩

def left (p : Tracked α) (q : Tracked β) : Tracked α :=
  ⟨Parser.left p.run q.run, bothDepth p q⟩

def right (p : Tracked α) (q : Tracked β) : Tracked β :=
  ⟨Parser.right p.run q.run, bothDepth p q⟩

def delimited (opening : Tracked α) (inner : Tracked β) (closing : Tracked γ) : Tracked β :=
  left (right opening inner) closing

/-- The depth of alternatives, which are tried up to the first that does not fail. -/
def choiceDepth : List (Tracked α) → Cursor → Nat
  | [], _ => 0
  | p :: ps, here =>
    match p.run here with
    | .ok _ => p.depth here
    | .error _ => max (p.depth here) (choiceDepth ps here)

def choice (ps : List (Tracked α)) : Tracked α := ⟨Parser.choice (ps.map run), choiceDepth ps⟩

/-- The depth of a repetition, the last attempt included. -/
def repeatedDepth (p : Tracked α) (here : Cursor) : Nat :=
  match p.run here with
  | .error _ => p.depth here
  | .ok parsed =>
    if parsed.next.ahead.length < here.ahead.length then
      max (p.depth here) (repeatedDepth p parsed.next)
    else p.depth here
termination_by here.ahead.length

def many (p : Tracked α) : Tracked (List α) := ⟨Parser.many p.run, repeatedDepth p⟩

def many1 (p : Tracked α) : Tracked (List α) := ⟨Parser.many1 p.run, repeatedDepth p⟩

/-- The depth of a repetition with separators. -/
def separatedDepth (item : Tracked α) (separator : Tracked β) (here : Cursor) : Nat :=
  match separator.run here with
  | .error _ => separator.depth here
  | .ok gap =>
    match item.run gap.next with
    | .error _ => max (separator.depth here) (item.depth gap.next)
    | .ok parsed =>
      if parsed.next.ahead.length < here.ahead.length then
        max (max (separator.depth here) (item.depth gap.next))
          (separatedDepth item separator parsed.next)
      else max (separator.depth here) (item.depth gap.next)
termination_by here.ahead.length

def separatedBy (item : Tracked α) (separator : Tracked β) : Tracked (List α) :=
  ⟨Parser.separatedBy item.run separator.run,
    fun here => max (item.depth here) (depthAfter item.run (separatedDepth item separator) here)⟩

@[simp] theorem run_plain (p : Parser α) : (plain p).run = p := rfl

@[simp] theorem run_nested (opening closing : Kind) (inner : Tracked α) :
    (nested opening closing inner).run =
      Parser.delimited (Parser.expect opening) inner.run (Parser.expect closing) := rfl

@[simp] theorem run_map (f : α → β) (p : Tracked α) : (p.map f).run = Parser.map f p.run := rfl

@[simp] theorem run_placed (f : Position → α → β) (p : Tracked α) :
    (p.placed f).run = Parser.placed f p.run := rfl

@[simp] theorem run_optional (p : Tracked α) : p.optional.run = Parser.optional p.run := rfl

@[simp] theorem run_both (p : Tracked α) (q : Tracked β) :
    (p.both q).run = Parser.both p.run q.run := rfl

@[simp] theorem run_left (p : Tracked α) (q : Tracked β) :
    (p.left q).run = Parser.left p.run q.run := rfl

@[simp] theorem run_right (p : Tracked α) (q : Tracked β) :
    (p.right q).run = Parser.right p.run q.run := rfl

@[simp] theorem run_delimited (opening : Tracked α) (inner : Tracked β) (closing : Tracked γ) :
    (delimited opening inner closing).run =
      Parser.delimited opening.run inner.run closing.run := rfl

@[simp] theorem run_choice (ps : List (Tracked α)) :
    (choice ps).run = Parser.choice (ps.map run) := rfl

@[simp] theorem run_many (p : Tracked α) : p.many.run = Parser.many p.run := rfl

@[simp] theorem run_many1 (p : Tracked α) : p.many1.run = Parser.many1 p.run := rfl

@[simp] theorem run_separatedBy (item : Tracked α) (separator : Tracked β) :
    (item.separatedBy separator).run = Parser.separatedBy item.run separator.run := rfl

/-- A rule with one level less, which stops if there is none. -/
def below (p : Nat → Tracked α) : Nat → Tracked α
  | 0 => plain Parser.stop
  | budget + 1 => p budget

/-! ### Rules that stay within a room -/

/--
Where brackets nest within `room`, a rule takes them in pairs, goes no deeper than that with any
budget at all, and answers the same with all budgets that are as large.
-/
structure Bounded (room : Nat) (p : Nat → Tracked α) : Prop where
  takes : ∀ ⦃budget here value next⦄, NestsWithin room here.ahead →
    Accepts (p budget).run here value next → ∃ taken, here.Advances taken next ∧ Balanced taken
  depth_le : ∀ ⦃budget here⦄, NestsWithin room here.ahead → (p budget).depth here ≤ room
  steady : ∀ ⦃budget more here⦄, room ≤ budget → room ≤ more → NestsWithin room here.ahead →
    (p budget).run here = (p more).run here

variable {room : Nat}

theorem depthAfter_le {p : Parser α} {depth : Cursor → Nat} {here : Cursor} {bound : Nat}
    (h : ∀ ⦃value next⦄, Accepts p here value next → depth next ≤ bound) :
    depthAfter p depth here ≤ bound := by
  unfold depthAfter
  split
  · rename_i parsed hparsed
    exact h (Parser.accepts_of_eq_ok hparsed)
  · exact Nat.zero_le bound

namespace Bounded

/-- The tokens behind what a rule takes nest within the same room. -/
theorem keeps {p : Nat → Tracked α} (h : Bounded room p) {budget : Nat} {here next : Cursor}
    {value : α} (hroom : NestsWithin room here.ahead)
    (hacc : Accepts (p budget).run here value next) : NestsWithin room next.ahead := by
  obtain ⟨taken, hadv, hbalanced⟩ := h.takes hroom hacc
  exact (hadv.ahead ▸ hroom).of_append hbalanced.total

/-! Single tokens -/

theorem plain {p : Parser α} (h : ∀ ⦃here value next⦄, Accepts p here value next →
    ∃ taken, here.Advances taken next ∧ Balanced taken) : Bounded room fun _ => plain p where
  takes _ _ _ _ _ hacc := h hacc
  depth_le _ _ _ := Nat.zero_le room
  steady _ _ _ _ _ _ := rfl

theorem token {accepts : Token → Bool} {kind : Kind}
    (h : ∀ t, accepts t = true → t.kind ∉ Grammar.brackets) :
    Bounded room fun _ => Tracked.plain (Parser.token accepts kind) := by
  refine plain fun here value next hacc => ?_
  obtain ⟨hyes, hahead, hindex⟩ := Parser.accepts_token.mp hacc
  exact ⟨[value], ⟨hahead, hindex⟩, Token.balanced_singleton (h value hyes)⟩

theorem expect {kind : Kind} (h : kind ∉ Grammar.brackets) :
    Bounded room fun _ => Tracked.plain (Parser.expect kind) :=
  token fun t ht => by rwa [of_decide_eq_true ht]

theorem keyword (word : String) : Bounded room fun _ => Tracked.plain (Parser.keyword word) := by
  refine token fun t ht => ?_
  rw [Token.isWord, Bool.and_eq_true, decide_eq_true_eq] at ht
  rw [ht.1]
  decide

/-! One parser and its value, one parser after another -/

section

variable {p : Nat → Tracked α} {q : Nat → Tracked β}

theorem map (h : Bounded room p) (f : α → β) : Bounded room fun budget => (p budget).map f where
  takes _ _ _ _ hroom hacc :=
    let ⟨_, _, ha⟩ := Parser.accepts_map.mp hacc
    h.takes hroom ha
  depth_le _ _ hroom := h.depth_le hroom
  steady _ _ _ hbudget hmore hroom := Parser.map_congr f (h.steady hbudget hmore hroom)

theorem placed (h : Bounded room p) (f : Position → α → β) :
    Bounded room fun budget => (p budget).placed f where
  takes _ _ _ _ hroom hacc :=
    let ⟨_, _, ha⟩ := Parser.accepts_placed.mp hacc
    h.takes hroom ha
  depth_le _ _ hroom := h.depth_le hroom
  steady _ _ here hbudget hmore hroom :=
    Parser.map_congr (f here.position) (h.steady hbudget hmore hroom)

theorem optional (h : Bounded room p) : Bounded room fun budget => (p budget).optional where
  takes _ here _ _ hroom hacc := by
    rcases Parser.accepts_optional.mp hacc with ⟨a, -, ha⟩ | ⟨-, rfl, -⟩
    · exact h.takes hroom ha
    · exact ⟨[], .refl _, Token.balanced_nil⟩
  depth_le _ _ hroom := h.depth_le hroom
  steady _ _ _ hbudget hmore hroom := Parser.optional_congr (h.steady hbudget hmore hroom)

theorem takes_both (h : Bounded room p) (h' : Bounded room q) {budget : Nat}
    {here middle next : Cursor} {a : α} {b : β} (hroom : NestsWithin room here.ahead)
    (ha : Accepts (p budget).run here a middle) (hb : Accepts (q budget).run middle b next) :
    ∃ taken, here.Advances taken next ∧ Balanced taken := by
  obtain ⟨first, hadv, hfirst⟩ := h.takes hroom ha
  obtain ⟨second, hadv', hsecond⟩ := h'.takes (h.keeps hroom ha) hb
  exact ⟨first ++ second, hadv.trans hadv', hfirst.append hsecond⟩

theorem bothDepth_le (h : Bounded room p) (h' : Bounded room q) {budget : Nat} {here : Cursor}
    (hroom : NestsWithin room here.ahead) : bothDepth (p budget) (q budget) here ≤ room :=
  max_le (h.depth_le hroom) (depthAfter_le fun _ _ ha => h'.depth_le (h.keeps hroom ha))

/-- The second of two parsers answers the same behind what the first one takes. -/
theorem steady_after (h : Bounded room p) (h' : Bounded room q) {budget more : Nat} {here : Cursor}
    (hbudget : room ≤ budget) (hmore : room ≤ more) (hroom : NestsWithin room here.ahead) :
    ∀ a, (p more).run here = .ok a → (q budget).run a.next = (q more).run a.next :=
  fun _ ha => h'.steady hbudget hmore (h.keeps hroom (Parser.accepts_of_eq_ok ha))

theorem both (h : Bounded room p) (h' : Bounded room q) :
    Bounded room fun budget => (p budget).both (q budget) where
  takes _ _ _ _ hroom hacc :=
    let ⟨_, ha, hb⟩ := Parser.accepts_both.mp hacc
    h.takes_both h' hroom ha hb
  depth_le _ _ hroom := h.bothDepth_le h' hroom
  steady _ _ _ hbudget hmore hroom :=
    Parser.both_congr (h.steady hbudget hmore hroom) (h.steady_after h' hbudget hmore hroom)

theorem left (h : Bounded room p) (h' : Bounded room q) :
    Bounded room fun budget => (p budget).left (q budget) where
  takes _ _ _ _ hroom hacc :=
    let ⟨_, _, ha, hb⟩ := Parser.accepts_left.mp hacc
    h.takes_both h' hroom ha hb
  depth_le _ _ hroom := h.bothDepth_le h' hroom
  steady _ _ _ hbudget hmore hroom :=
    Parser.left_congr (h.steady hbudget hmore hroom) (h.steady_after h' hbudget hmore hroom)

theorem right (h : Bounded room p) (h' : Bounded room q) :
    Bounded room fun budget => (p budget).right (q budget) where
  takes _ _ _ _ hroom hacc :=
    let ⟨_, _, ha, hb⟩ := Parser.accepts_right.mp hacc
    h.takes_both h' hroom ha hb
  depth_le _ _ hroom := h.bothDepth_le h' hroom
  steady _ _ _ hbudget hmore hroom :=
    Parser.right_congr (h.steady hbudget hmore hroom) (h.steady_after h' hbudget hmore hroom)

/--
Brackets that count take one from the room.  If there is none, the opening one cannot stand ahead,
and if there is, both budgets have one level to give.
-/
theorem nested {opening closing : Kind} (hpair : (opening, closing) ∈ Grammar.bracketPairs)
    (h : ∀ less, room = less + 1 → Bounded less p) :
    Bounded room fun budget => Tracked.nested opening closing (below p budget) where
  takes budget here value next hroom hacc := by
    obtain ⟨o, c, start, stop, ho, ha, hc⟩ := Parser.accepts_delimited.mp hacc
    obtain ⟨hopen, hahead, hindex⟩ := Parser.accepts_expect.mp ho
    obtain ⟨hclose, hahead', hindex'⟩ := Parser.accepts_expect.mp hc
    obtain ⟨less, rfl, hless⟩ := (hahead ▸ hroom).of_opening hpair hopen
    cases budget with
    | zero => exact absurd ha Parser.not_accepts_stop
    | succ budget =>
        obtain ⟨inner, hadv, hinner⟩ := (h less rfl).takes hless ha
        have hfirst : here.Advances [o] start := ⟨hahead, hindex⟩
        have hlast : stop.Advances [c] next := ⟨hahead', hindex'⟩
        exact ⟨_, (hfirst.trans hadv).trans hlast, hinner.enclosed hpair hopen hclose⟩
  depth_le budget here hroom := by
    show depthAfter _ (fun start => (below p budget).depth start + 1) here ≤ room
    refine depthAfter_le fun o start ho => ?_
    obtain ⟨hopen, hahead, -⟩ := Parser.accepts_expect.mp ho
    obtain ⟨less, rfl, hless⟩ := (hahead ▸ hroom).of_opening hpair hopen
    cases budget with
    | zero => exact Nat.succ_le_succ (Nat.zero_le less)
    | succ budget => exact Nat.succ_le_succ ((h less rfl).depth_le hless)
  steady budget more here hbudget hmore hroom := by
    have hinner : ∀ o, Parser.expect opening here = .ok o →
        (below p budget).run o.next = (below p more).run o.next := by
      intro o ho
      obtain ⟨hopen, hahead, -⟩ := Parser.accepts_expect.mp (Parser.accepts_of_eq_ok ho)
      obtain ⟨less, rfl, hless⟩ := (hahead ▸ hroom).of_opening hpair hopen
      cases budget with
      | zero => exact absurd hbudget (Nat.not_succ_le_zero less)
      | succ budget =>
          cases more with
          | zero => exact absurd hmore (Nat.not_succ_le_zero less)
          | succ more =>
              exact (h less rfl).steady (Nat.le_of_succ_le_succ hbudget)
                (Nat.le_of_succ_le_succ hmore) hless
    exact Parser.left_congr (Parser.right_congr rfl hinner) fun _ _ => rfl

/-! One parser or another -/

theorem choice (ps : List (Nat → Tracked α)) (h : ps.Forall (Bounded room)) :
    Bounded room fun budget => Tracked.choice (ps.map fun p => p budget) where
  takes budget here value next hroom hacc := by
    induction ps with
    | nil => exact absurd hacc Parser.not_accepts_choice_nil
    | cons p ps ih =>
        rw [List.forall_cons] at h
        rcases Parser.accepts_choice_cons.mp hacc with hp | ⟨-, hps⟩
        · exact h.1.takes hroom hp
        · exact ih h.2 hps
  depth_le budget here hroom := by
    show choiceDepth (ps.map fun p => p budget) here ≤ room
    induction ps with
    | nil => exact Nat.zero_le room
    | cons p ps ih =>
        rw [List.forall_cons] at h
        rw [List.map_cons, choiceDepth]
        split
        · exact h.1.depth_le hroom
        · exact max_le (h.1.depth_le hroom) (ih h.2)
  steady budget more here hbudget hmore hroom := by
    suffices hafter : ∀ failure?,
        Parser.choiceAfter failure? ((ps.map fun p => p budget).map run) here =
          Parser.choiceAfter failure? ((ps.map fun p => p more).map run) here from hafter none
    induction ps with
    | nil => exact fun _ => rfl
    | cons p ps ih =>
        rw [List.forall_cons] at h
        intro failure?
        simp only [List.map_cons, Parser.choiceAfter, h.1.steady hbudget hmore hroom, ih h.2]

/-! One parser again and again -/

theorem takes_repeats (h : Bounded room p) {budget : Nat} {here next : Cursor} {values : List α}
    (hroom : NestsWithin room here.ahead) (hrun : Repeats (p budget).run here values next) :
    ∃ taken, here.Advances taken next ∧ Balanced taken := by
  induction hrun with
  | stop => exact ⟨[], .refl _, Token.balanced_nil⟩
  | more hacc _ _ ih =>
      obtain ⟨first, hadv, hfirst⟩ := h.takes hroom hacc
      obtain ⟨rest, hadv', hrest⟩ := ih (h.keeps hroom hacc)
      exact ⟨first ++ rest, hadv.trans hadv', hfirst.append hrest⟩

theorem repeatedDepth_le (h : Bounded room p) {budget : Nat} {here : Cursor}
    (hroom : NestsWithin room here.ahead) : repeatedDepth (p budget) here ≤ room := by
  fun_induction repeatedDepth (p budget) here with
  | case1 here failure heq => exact h.depth_le hroom
  | case2 here parsed heq hless ih =>
      exact max_le (h.depth_le hroom) (ih (h.keeps hroom (Parser.accepts_of_eq_ok heq)))
  | case3 here parsed heq hless => exact h.depth_le hroom

theorem steady_repeated (h : Bounded room p) {budget more : Nat} {here : Cursor}
    (hbudget : room ≤ budget) (hmore : room ≤ more) (hroom : NestsWithin room here.ahead) :
    Parser.repeated (p budget).run here = Parser.repeated (p more).run here :=
  Parser.repeated_congr (R := fun here => NestsWithin room here.ahead)
    (fun _ hroom => h.steady hbudget hmore hroom) (fun _ _ _ hroom hacc => h.keeps hroom hacc) hroom

theorem many (h : Bounded room p) : Bounded room fun budget => (p budget).many where
  takes _ _ _ _ hroom hacc := h.takes_repeats hroom (Parser.accepts_many.mp hacc)
  depth_le _ _ hroom := h.repeatedDepth_le hroom
  steady _ _ _ hbudget hmore hroom := by
    show Except.ok _ = Except.ok _
    rw [h.steady_repeated hbudget hmore hroom]

theorem many1 (h : Bounded room p) : Bounded room fun budget => (p budget).many1 where
  takes _ _ _ _ hroom hacc := h.takes_repeats hroom (Parser.accepts_many1.mp hacc).2
  depth_le _ _ hroom := h.repeatedDepth_le hroom
  steady budget more here hbudget hmore hroom := by
    show Parser.many1 (p budget).run here = Parser.many1 (p more).run here
    unfold Parser.many1
    rw [h.steady_repeated hbudget hmore hroom]

theorem takes_separates (h : Bounded room p) (h' : Bounded room q) {budget : Nat}
    {here next : Cursor} {values : List α} (hroom : NestsWithin room here.ahead)
    (hrun : Separates (p budget).run (q budget).run here values next) :
    ∃ taken, here.Advances taken next ∧ Balanced taken := by
  induction hrun with
  | stop => exact ⟨[], .refl _, Token.balanced_nil⟩
  | more hgap hitem _ _ ih =>
      have hmiddle := h'.keeps hroom hgap
      obtain ⟨first, hadv, hfirst⟩ := h'.takes_both h hroom hgap hitem
      obtain ⟨rest, hadv', hrest⟩ := ih (h.keeps hmiddle hitem)
      exact ⟨first ++ rest, hadv.trans hadv', hfirst.append hrest⟩

theorem separatedDepth_le (h : Bounded room p) (h' : Bounded room q) {budget : Nat}
    {here : Cursor} (hroom : NestsWithin room here.ahead) :
    separatedDepth (p budget) (q budget) here ≤ room := by
  fun_induction separatedDepth (p budget) (q budget) here with
  | case1 here failure hgap => exact h'.depth_le hroom
  | case2 here gap hgap failure hitem =>
      exact max_le (h'.depth_le hroom)
        (h.depth_le (h'.keeps hroom (Parser.accepts_of_eq_ok hgap)))
  | case3 here gap hgap parsed hitem hless ih =>
      have hmiddle := h'.keeps hroom (Parser.accepts_of_eq_ok hgap)
      exact max_le (max_le (h'.depth_le hroom) (h.depth_le hmiddle))
        (ih (h.keeps hmiddle (Parser.accepts_of_eq_ok hitem)))
  | case4 here gap hgap parsed hitem hless =>
      exact max_le (h'.depth_le hroom)
        (h.depth_le (h'.keeps hroom (Parser.accepts_of_eq_ok hgap)))

theorem separatedBy (h : Bounded room p) (h' : Bounded room q) :
    Bounded room fun budget => (p budget).separatedBy (q budget) where
  takes budget here values next hroom hacc := by
    rcases Parser.accepts_separatedBy.mp hacc with ⟨-, rfl, -⟩ |
      ⟨first, rest, middle, -, hfirst, hrun⟩
    · exact ⟨[], .refl _, Token.balanced_nil⟩
    · obtain ⟨a, hadv, ha⟩ := h.takes hroom hfirst
      obtain ⟨b, hadv', hb⟩ := h.takes_separates h' (h.keeps hroom hfirst) hrun
      exact ⟨a ++ b, hadv.trans hadv', ha.append hb⟩
  depth_le _ _ hroom := max_le (h.depth_le hroom)
    (depthAfter_le fun _ _ ha => h.separatedDepth_le h' (h.keeps hroom ha))
  steady budget more here hbudget hmore hroom := by
    show Parser.separatedBy (p budget).run (q budget).run here =
      Parser.separatedBy (p more).run (q more).run here
    unfold Parser.separatedBy
    rw [h.steady hbudget hmore hroom]
    cases hitem : (p more).run here with
    | error failure => rfl
    | ok first =>
        have hrest := Parser.separated_congr (R := fun here => NestsWithin room here.ahead)
          (fun _ hroom => h.steady hbudget hmore hroom)
          (fun _ hroom => h'.steady hbudget hmore hroom)
          (fun _ _ _ hroom hacc => h.keeps hroom hacc)
          (fun _ _ _ hroom hacc => h'.keeps hroom hacc)
          (h.keeps hroom (Parser.accepts_of_eq_ok hitem))
        simp only [hrest]

theorem delimited {r : Nat → Tracked γ} (h : Bounded room p) (h' : Bounded room q)
    (h'' : Bounded room r) :
    Bounded room fun budget => (p budget).delimited (q budget) (r budget) :=
  (h.right h').left h''

end

end Bounded

end Tracked

end QueryBatching
