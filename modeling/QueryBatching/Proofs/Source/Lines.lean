/-
Lines that are counted and lines that are cut.

A location counts lines while it moves over a text, one character at a time; `Source.lines` cuts
the whole text.  Both go by the same terminators.  `LineStarts` says without either of them where
the line with a number starts, and is what they are compared by: cutting gives the line that
starts there, and a location that has moved there, and on over some characters of the line, has
counted as many lines and these characters.

In one place the two are apart.  Between the two characters of a pair a location has counted a
line that does not start there but behind the pair.
-/
import QueryBatching.Source.Lines
import QueryBatching.Source.Position
import QueryBatching.Token.Lexeme

namespace QueryBatching

open Lexeme (isTerminator)

namespace Source

/-! ### Where lines start -/

/-- What ends a line in front of `behind`.  A carriage return ends it alone only where no line feed
follows. -/
inductive Terminates : (terminator behind : List Char) → Prop
  | feed (behind : List Char) : Terminates ['\n'] behind
  | pair (behind : List Char) : Terminates ['\r', '\n'] behind
  | lone {behind : List Char} (h : behind.head? ≠ some '\n') : Terminates ['\r'] behind

/-- Between `before` and `behind` starts the line with the number: at the start of the text, or
right behind what ends the line with the number before it. -/
inductive LineStarts : (number : Nat) → (before behind : List Char) → Prop
  | first (behind : List Char) : LineStarts 0 [] behind
  | next {number : Nat} {before line terminator behind : List Char}
      (h : LineStarts number before (line ++ (terminator ++ behind)))
      (hline : ∀ c ∈ line, isTerminator c = false) (hend : Terminates terminator behind) :
    LineStarts (number + 1) (before ++ (line ++ terminator)) behind

/-! ### Lines that are cut -/

theorem lines_ne_nil (cs : List Char) : lines cs ≠ [] := by
  unfold lines
  split
  · simp
  · simp
  · split
    · simp
    · split <;> simp

/-- A character that ends no line is the first of the line it stands in. -/
theorem lines_cons_of_plain {c : Char} (hc : isTerminator c = false) (cs : List Char) :
    ∃ line rest, lines cs = line :: rest ∧ lines (c :: cs) = (c :: line) :: rest := by
  obtain ⟨line, rest, hcs⟩ := List.exists_cons_of_ne_nil (lines_ne_nil cs)
  refine ⟨line, rest, hcs, ?_⟩
  simp only [isTerminator, Bool.or_eq_false_iff, decide_eq_false_iff_not] at hc
  conv => lhs; unfold lines
  split
  · rename_i heq
    simp at heq
  · rename_i heq
    exact absurd (List.cons.inj heq).1 hc.2
  · rename_i heq
    obtain ⟨rfl, rfl⟩ := List.cons.inj heq
    rw [if_neg (not_or.mpr hc), hcs]

/-- The first line goes up to the first terminator or the end of the text. -/
theorem lines_append {line rest : List Char} (hline : ∀ c ∈ line, isTerminator c = false) :
    ∃ first others, lines rest = first :: others ∧
      lines (line ++ rest) = (line ++ first) :: others := by
  induction line with
  | nil =>
      obtain ⟨first, others, hrest⟩ := List.exists_cons_of_ne_nil (lines_ne_nil rest)
      exact ⟨first, others, hrest, hrest⟩
  | cons c line ih =>
      rw [List.forall_mem_cons] at hline
      obtain ⟨first, others, hrest, hlines⟩ := ih hline.2
      obtain ⟨_, _, hcs, hc⟩ := lines_cons_of_plain hline.1 (line ++ rest)
      obtain ⟨rfl, rfl⟩ := List.cons.inj (hlines.symm.trans hcs)
      exact ⟨first, others, hrest, hc⟩

/-- A terminator ends a line, and behind it the next starts. -/
theorem lines_terminator {terminator behind : List Char} (h : Terminates terminator behind) :
    lines (terminator ++ behind) = [] :: lines behind := by
  cases h with
  | feed => rfl
  | pair => rfl
  | lone h =>
      rw [List.singleton_append]
      conv => lhs; unfold lines
      split
      · rename_i heq
        simp at heq
      · rename_i heq
        obtain ⟨-, rfl⟩ := List.cons.inj heq
        exact absurd rfl h
      · rename_i heq
        obtain ⟨rfl, rfl⟩ := List.cons.inj heq
        rfl

/-- **The lines from a number on** are those of the text behind the start of that line. -/
theorem LineStarts.drop_lines {number : Nat} {before behind : List Char}
    (h : LineStarts number before behind) :
    (lines (before ++ behind)).drop number = lines behind := by
  induction h with
  | first behind => rfl
  | @next number before line terminator behind h hline hend ih =>
      obtain ⟨first, others, hrest, hlines⟩ := @lines_append line (terminator ++ behind) hline
      rw [lines_terminator hend] at hrest
      obtain ⟨rfl, rfl⟩ := List.cons.inj hrest
      rw [show before ++ (line ++ terminator) ++ behind =
        before ++ (line ++ (terminator ++ behind)) by simp, ← List.drop_drop, ih, hlines]
      rfl

/-- **The line with a number** goes from its start to its end. -/
theorem LineStarts.getElem?_lines {number : Nat} {before line after : List Char}
    (h : LineStarts number before (line ++ after))
    (hline : ∀ c ∈ line, isTerminator c = false)
    (hafter : ∀ c ∈ after.head?, isTerminator c = true) :
    (lines (before ++ (line ++ after)))[number]? = some line := by
  have hempty : ∃ others, lines after = [] :: others := by
    cases after with
    | nil => exact ⟨[], rfl⟩
    | cons c cs =>
        have hc := hafter c rfl
        simp only [isTerminator, Bool.or_eq_true, decide_eq_true_eq] at hc
        unfold lines
        split
        · exact ⟨_, rfl⟩
        · exact ⟨_, rfl⟩
        · rename_i heq
          obtain ⟨rfl, rfl⟩ := List.cons.inj heq
          rw [if_pos hc]
          exact ⟨_, rfl⟩
  obtain ⟨others, hempty⟩ := hempty
  obtain ⟨first, rest, hrest, hlines⟩ := @lines_append line after hline
  obtain ⟨rfl, rfl⟩ := List.cons.inj (hempty.symm.trans hrest)
  rw [← Nat.add_zero number, ← List.getElem?_drop, h.drop_lines, hlines, List.append_nil]
  rfl

end Source

open Source (LineStarts Terminates)

/-! ### Lines that are counted -/

/-- How many UTF-16 code units the characters take. -/
def Text.units16 : List Char → Nat
  | [] => 0
  | c :: cs => Location.codeUnits c + units16 cs

theorem Text.units16_concat (cs : List Char) (c : Char) :
    units16 (cs ++ [c]) = units16 cs + Location.codeUnits c := by
  induction cs with
  | nil => exact Nat.add_comm _ _
  | cons d cs ih => rw [List.cons_append, units16, ih, units16, Nat.add_assoc]

namespace Location

/-- The location is in a line that starts behind `before`, behind the characters `done` of it. -/
structure InLine (here : Location) (before done rest : List Char) : Prop where
  starts : LineStarts here.position.line before (done ++ rest)
  plain : ∀ c ∈ done, isTerminator c = false
  column : here.position.column = done.length
  column16 : here.position.column16 = Text.units16 done
  /-- The location is not between the two characters of a pair. -/
  settled : here.afterReturn = true → rest.head? ≠ some '\n'

/-- The location is between the two characters of a pair that ends `line`. -/
structure InPair (here : Location) (before line rest : List Char) : Prop where
  starts : ∃ number, here.position.line = number + 1 ∧
    LineStarts number before (line ++ ('\r' :: '\n' :: rest))
  plain : ∀ c ∈ line, isTerminator c = false
  column : here.position.column = 0
  column16 : here.position.column16 = 0
  afterReturn : here.afterReturn = true

/-- The location is where `front` has been moved over and `rest` is left. -/
inductive Stands (here : Location) : (front rest : List Char) → Prop
  | inLine {before done rest : List Char} (h : here.InLine before done rest) :
    Stands here (before ++ done) rest
  | inPair {before line rest : List Char} (h : here.InPair before line rest) :
    Stands here (before ++ (line ++ ['\r'])) ('\n' :: rest)

section Advance

variable {here : Location} {before done rest : List Char}

/-- Over a character that ends no line the location stays in its line. -/
theorem InLine.advance_plain {c : Char} (h : here.InLine before done (c :: rest))
    (hc : isTerminator c = false) : (here.advance c).InLine before (done ++ [c]) rest := by
  simp only [isTerminator, Bool.or_eq_false_iff, decide_eq_false_iff_not] at hc
  have hadvance : here.advance c = ⟨{ here.position with
      column := here.position.column + 1,
      column16 := here.position.column16 + codeUnits c,
      offset := here.position.offset + c.utf8Size }, false⟩ := by
    rw [advance, if_neg hc.1, if_neg hc.2]
  rw [hadvance]
  constructor
  case starts =>
    rw [List.append_assoc]
    exact h.starts
  case plain =>
    intro d hd
    rcases List.mem_append.mp hd with hd | hd
    · exact h.plain d hd
    · rw [List.mem_singleton.mp hd]
      simp [isTerminator, hc]
  case column =>
    rw [List.length_append, ← h.column]
    rfl
  case column16 =>
    rw [Text.units16_concat, ← h.column16]
  case settled => exact fun hreturn => absurd hreturn Bool.false_ne_true

/-- Behind a terminator it is at the start of the next line. -/
theorem inLine_nextLine {number : Nat} {terminator : List Char} {returned : Bool}
    (h : LineStarts number before (done ++ (terminator ++ rest)))
    (hplain : ∀ c ∈ done, isTerminator c = false) (hend : Terminates terminator rest)
    (hsettled : returned = true → rest.head? ≠ some '\n') (offset : Nat) :
    InLine ⟨⟨number + 1, 0, 0, offset⟩, returned⟩ (before ++ (done ++ terminator)) [] rest where
  starts := h.next hplain hend
  plain := fun _ hc => absurd hc List.not_mem_nil
  column := rfl
  column16 := rfl
  settled := hsettled

theorem stands_of_inLine {front : List Char} (h : here.InLine front [] rest) :
    here.Stands front rest := by
  have hstands := Stands.inLine h
  rwa [List.append_nil] at hstands

/-- **One character on**, the location is one character further in its line, behind the
terminator, or between its two characters. -/
theorem Stands.advance {front : List Char} {c : Char} (h : here.Stands front (c :: rest)) :
    (here.advance c).Stands (front ++ [c]) rest := by
  cases h with
  | @inPair before line rest h =>
      obtain ⟨number, hnumber, hstarts⟩ := h.starts
      have hadvance : here.advance '\n' =
          ⟨⟨number + 1, 0, 0, here.position.offset + '\n'.utf8Size⟩, false⟩ := by
        rw [Location.advance, if_pos rfl, if_pos h.afterReturn]
        dsimp only
        rw [hnumber, h.column, h.column16]
      rw [hadvance, show before ++ (line ++ ['\r']) ++ ['\n'] = before ++ (line ++ ['\r', '\n']) by
        simp]
      exact stands_of_inLine (inLine_nextLine hstarts h.plain (.pair _)
        (fun hreturn => absurd hreturn Bool.false_ne_true) _)
  | @inLine before done _ h =>
      by_cases hfeed : c = '\n'
      · subst hfeed
        have hreturn : here.afterReturn = false := by
          rw [Bool.eq_false_iff]
          exact fun hreturn => h.settled hreturn rfl
        have hadvance : here.advance '\n' = ⟨here.nextLine '\n', false⟩ := by
          rw [Location.advance, if_pos rfl, hreturn]
          rfl
        rw [hadvance, List.append_assoc]
        exact stands_of_inLine (inLine_nextLine h.starts h.plain (.feed _)
          (fun hreturn => absurd hreturn Bool.false_ne_true) _)
      · by_cases hcarriage : c = '\r'
        · subst hcarriage
          have hadvance : here.advance '\r' = ⟨here.nextLine '\r', true⟩ := rfl
          rw [hadvance, List.append_assoc]
          by_cases hpair : rest.head? = some '\n'
          · obtain ⟨behind, rfl⟩ : ∃ behind, rest = '\n' :: behind :=
              List.head?_eq_some_iff.mp hpair
            exact .inPair ⟨⟨_, rfl, h.starts⟩, h.plain, rfl, rfl, rfl⟩
          · exact stands_of_inLine (inLine_nextLine h.starts h.plain (.lone hpair)
              (fun _ => hpair) _)
        · rw [List.append_assoc]
          exact .inLine (h.advance_plain (by simp [isTerminator, hfeed, hcarriage]))

end Advance

theorem advanceAll_append (here : Location) (cs ds : List Char) :
    here.advanceAll (cs ++ ds) = (here.advanceAll cs).advanceAll ds := List.foldl_append

/-- The start of a text is the start of its first line. -/
theorem stands_start (cs : List Char) : ({} : Location).Stands [] cs :=
  stands_of_inLine ⟨.first cs, fun _ hc => absurd hc List.not_mem_nil, rfl, rfl,
    fun hreturn => absurd hreturn Bool.false_ne_true⟩

theorem Stands.advanceAll {here : Location} {front cs rest : List Char}
    (h : here.Stands front (cs ++ rest)) : (here.advanceAll cs).Stands (front ++ cs) rest := by
  induction cs generalizing here front with
  | nil => simpa using h
  | cons c cs ih =>
      rw [advanceAll_cons, List.append_cons]
      exact ih h.advance

/-- **A location that has moved over a text** is in the line it has counted, unless it is between
the two characters of a pair. -/
theorem exists_inLine (front : List Char) {rest : List Char} (hrest : rest.head? ≠ some '\n') :
    ∃ before done, front = before ++ done ∧
      (({} : Location).advanceAll front).InLine before done rest := by
  have hstands := (stands_start (front ++ rest)).advanceAll
  rw [List.nil_append] at hstands
  generalize ({} : Location).advanceAll front = here at hstands ⊢
  cases hstands with
  | inLine h => exact ⟨_, _, rfl, h⟩
  | inPair h => exact absurd rfl hrest

end Location

end QueryBatching
