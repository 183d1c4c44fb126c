/-
Where a token stands in its line, and the caret below it.

The scan says of a token what has been passed over in front of it.  No token starts with a line
feed, so none starts inside of a terminator, and what has been passed over ends in the part of the
line that is in front of the token.  The same line is found again by cutting the source, and a
message about the token shows it with a caret below the character the token starts with.

The caret is moved there by a width, so there is such a message exactly where the column is one
that a width can have.  A token may well stand further out, behind nothing but blanks.
-/
import QueryBatching.Proofs.Source.Lines
import QueryBatching.Proofs.Token.Coverage
import QueryBatching.Source.Diagnostic

namespace QueryBatching

open Lexeme (isIgnored isTerminator)
open Source (LineStarts)

/-! ### The caret -/

namespace Text

@[simp] theorem length_alignRight (width : Nat) (text : String) :
    (alignRight width text).length = max width text.length := by
  rw [alignRight, String.length_append, String.length_ofList, List.length_replicate]
  omega

theorem alignRight?_eq_some_iff {width : Nat} {text aligned : String} :
    alignRight? width text = some aligned ↔ width ≤ maxWidth ∧ alignRight width text = aligned := by
  rw [alignRight?, Option.ite_none_right_eq_some, Option.some.injEq]

theorem alignRight?_eq_none_iff {width : Nat} {text : String} :
    alignRight? width text = none ↔ maxWidth < width := by
  simp [alignRight?]

/-- Spaces are all that is put in front. -/
theorem notMem_alignRight {c : Char} (hc : c ≠ ' ') {text : String} (h : c ∉ text.toList)
    (width : Nat) : c ∉ (alignRight width text).toList := by
  rw [alignRight, String.toList_append, String.toList_ofList, List.mem_append, not_or]
  exact ⟨fun hmem => hc (List.mem_replicate.mp hmem).2, h⟩

theorem feed_notMem_toString (n : Nat) : '\n' ∉ (toString n).toList := by
  intro hmem
  have hdigit : ('\n' : Char).isDigit = true :=
    Nat.isDigit_of_mem_toDigits (by decide) (by decide) (Nat.toList_repr ▸ hmem)
  exact absurd hdigit (by decide)

end Text

namespace Diagnostic

/-- What is shown ends in two lines: the line of the source behind a gutter, and a caret under it
behind as many of its characters as the column says.  Above the caret stands the character, or
nothing behind the end of the line. -/
def EndsInCaret (shown line : String) (column : Nat) (above? : Option Char) : Prop :=
  ∃ head gutter margin : String,
    shown = head ++ "\n" ++ (gutter ++ line) ++ "\n" ++ (margin ++ "^") ++ "\n" ∧
      '\n' ∉ gutter.toList ∧ '\n' ∉ margin.toList ∧ margin.length = gutter.length + column ∧
      (gutter ++ line).toList[margin.length]? = above?

/-- The number of the line and the margin below it are as wide as each other. -/
theorem snippet?_endsInCaret {position : Position} {line shown : String}
    (h : snippet? position line = some shown) (head : String) :
    EndsInCaret (head ++ shown) line position.column line.toList[position.column]? := by
  obtain ⟨indent, hindent, rfl⟩ := Option.map_eq_some_iff.mp h
  obtain ⟨-, rfl⟩ := Text.alignRight?_eq_some_iff.mp hindent
  let number := toString (position.line + 1)
  let width := max 2 number.length
  let gutter := Text.alignRight width number ++ " | "
  let margin := Text.alignRight width "" ++ " | " ++ Text.alignRight position.column ""
  have hgutter : '\n' ∉ gutter.toList := by
    rw [String.toList_append, List.mem_append, not_or]
    exact ⟨Text.notMem_alignRight (by decide) (Text.feed_notMem_toString _) _, by decide⟩
  have hmargin : '\n' ∉ margin.toList := by
    have hempty : '\n' ∉ ("" : String).toList := by decide
    rw [String.toList_append, String.toList_append, List.mem_append, List.mem_append, not_or,
      not_or]
    exact ⟨⟨Text.notMem_alignRight (by decide) hempty _, by decide⟩,
      Text.notMem_alignRight (by decide) hempty _⟩
  have hlength : margin.length = gutter.length + position.column := by
    have hwide : number.length ≤ width := Nat.le_max_right _ _
    simp only [margin, gutter, String.length_append, Text.length_alignRight, String.length_empty,
      Nat.max_eq_left hwide, Nat.max_zero]
  refine ⟨head ++ (Text.alignRight width "" ++ " |"), gutter, margin, ?_, hgutter, hmargin,
    hlength, ?_⟩
  · have hbar : " |\n" = " |" ++ "\n" := rfl
    have hcaret : "^\n" = "^" ++ "\n" := rfl
    simp only [hbar, hcaret, String.append_assoc, number, width, gutter, margin]
  · rw [hlength, String.toList_append, ← String.length_toList (s := gutter),
      List.getElem?_append_right (Nat.le_add_right _ _), Nat.add_sub_cancel_left]

theorem snippet?_eq_none_iff {position : Position} {line : String} :
    snippet? position line = none ↔ Text.maxWidth < position.column := by
  rw [snippet?, Option.map_eq_none_iff, Text.alignRight?_eq_none_iff]

/-- Where the source has the line, the message over several lines shows it with a caret. -/
theorem detailed?_endsInCaret {diagnostic : Diagnostic} {source line shown : String}
    (hline : Source.line? source diagnostic.position.line = some line)
    (h : diagnostic.detailed? (some source) = some shown) :
    EndsInCaret shown line diagnostic.position.column
      line.toList[diagnostic.position.column]? := by
  rw [detailed?, Option.bind_some, hline] at h
  obtain ⟨snippet, hsnippet, rfl⟩ := Option.map_eq_some_iff.mp h
  exact snippet?_endsInCaret hsnippet _

/-- There is no message over several lines exactly if the source has the line, and the place is
further out in it than widths go. -/
theorem detailed?_eq_none_iff {diagnostic : Diagnostic} {source : String} :
    diagnostic.detailed? (some source) = none ↔
      (Source.line? source diagnostic.position.line).isSome ∧
        Text.maxWidth < diagnostic.position.column := by
  rw [detailed?, Option.bind_some]
  cases Source.line? source diagnostic.position.line with
  | none => simp
  | some line => simp [snippet?_eq_none_iff]

end Diagnostic

namespace Token

/-! ### What is passed over -/

/-- Every token stands where the scan has passed over what is in front of it.  It does not start
with a terminator, and only the end of the input is empty. -/
theorem Reads.passed {here : Location} {cs : List Char} {tokens : List Token}
    (h : Reads here cs tokens) :
    ∀ token ∈ tokens, ∃ front rest, cs = front ++ (token.text.toList ++ rest) ∧
      token.position = (here.advanceAll front).position ∧
      (∀ c ∈ (token.text.toList ++ rest).head?, isTerminator c = false) ∧
      (token.text = "" → rest = []) := by
  induction h with
  | ended here =>
      rw [List.forall_mem_singleton]
      exact ⟨[], [], rfl, rfl, fun _ hc => by simp at hc, fun _ => rfl⟩
  | @ignored here c cs tokens _ _ ih =>
      intro token hmem
      obtain ⟨front, rest, rfl, hposition, hparts⟩ := ih token hmem
      exact ⟨c :: front, rest, rfl, hposition, hparts⟩
  | @comment here text cs tokens _ _ _ ih =>
      intro token hmem
      obtain ⟨front, rest, rfl, hposition, hparts⟩ := ih token hmem
      refine ⟨'#' :: (text ++ front), rest, by simp, ?_, hparts⟩
      rw [hposition, ← List.cons_append, Location.advanceAll_append]
  | @lexeme here c tail cs kind tokens hread _ ih =>
      have hplain : isTerminator c = false := by
        refine Bool.eq_false_iff.mpr fun hc => ?_
        exact Bool.eq_false_iff.mp (not_ignored_of_read hread).1 (isIgnored_of_isTerminator hc)
      refine List.forall_mem_cons.mpr ⟨⟨[], cs, by simp, rfl, by simpa using hplain, ?_⟩, ?_⟩
      · intro hempty
        simpa using congrArg String.toList hempty
      · intro token hmem
        obtain ⟨front, rest, rfl, hposition, hparts⟩ := ih token hmem
        refine ⟨c :: (tail ++ front), rest, by simp, ?_, hparts⟩
        rw [hposition, ← List.cons_append, Location.advanceAll_append]

/-! ### Lines -/

/--
The token stands in its line: `before` is what stands in front of the line, `done` the part of the
line in front of the token, `left` the rest of the line and `after` what stands behind it.
-/
structure InLine (source : String) (token : Token) (before done left after : String) : Prop where
  source_eq : source = before ++ (done ++ left) ++ after
  /-- The line has as many terminators in front of it as the position says. -/
  starts : LineStarts token.position.line before.toList (done ++ left ++ after).toList
  /-- There is no terminator in the line. -/
  plain : ∀ c ∈ (done ++ left).toList, isTerminator c = false
  /-- The line goes up to the next terminator or to the end of the source. -/
  ended : ∀ c ∈ after.toList.head?, isTerminator c = true
  /-- The column counts the characters that are in front of the token in the line. -/
  column : token.position.column = done.length
  column16 : token.position.column16 = Text.units16 done.toList
  /-- The offset counts the bytes that are in front of the token in the source. -/
  offset : token.position.offset = before.utf8ByteSize + done.utf8ByteSize
  /-- The text of the token begins where `left` does, and may go on behind the line. -/
  text : token.text.toList <+: (left ++ after).toList
  /-- The token starts in the line, unless it is empty; then nothing is left of the line. -/
  first : left.toList.head? = token.text.toList.head?

/-- Cutting the source finds the line. -/
theorem InLine.line?_eq {source : String} {token : Token} {before done left after : String}
    (h : InLine source token before done left after) :
    Source.line? source token.position.line = some (done ++ left) := by
  have hstarts := h.starts
  rw [String.toList_append] at hstarts
  have hline := hstarts.getElem?_lines h.plain h.ended
  rw [Source.line?, h.source_eq, String.toList_append, String.toList_append, List.append_assoc,
    hline, Option.map_some, String.ofList_toList]

/-- The character of the line behind as many as the column says is the one the token starts with. -/
theorem InLine.getElem?_column {source : String} {token : Token} {before done left after : String}
    (h : InLine source token before done left after) :
    (done ++ left).toList[token.position.column]? = token.text.toList.head? := by
  rw [h.column, String.toList_append, ← String.length_toList,
    List.getElem?_append_right (Nat.le_refl _), Nat.sub_self, ← List.head?_eq_getElem?, h.first]

/-- A token that is read stands in a line. -/
theorem exists_inLine {source : String} {tokens : List Token}
    (h : tokenize source = .ok tokens) {token : Token} (hmem : token ∈ tokens) :
    ∃ before done left after, InLine source token before done left after := by
  obtain ⟨front, rest, hsource, hposition, hhead, hempty⟩ :=
    (tokenize_eq_ok_iff.mp h).passed token hmem
  have hfeed : (token.text.toList ++ rest).head? ≠ some '\n' := fun hc =>
    absurd (hhead _ hc) (by decide)
  obtain ⟨before, done, rfl, hin⟩ := Location.exists_inLine front hfeed
  obtain ⟨after, hline, hleft, hafter⟩ := comment_spec (token.text.toList ++ rest)
  generalize Lexeme.comment (token.text.toList ++ rest) = left at hline hleft
  have hoffset := Location.offset_advanceAll {} (before ++ done)
  have hstarts := hin.starts
  rw [hline, ← List.append_assoc] at hstarts
  refine ⟨.ofList before, .ofList done, .ofList left, .ofList after, ?_⟩
  constructor
  case source_eq =>
    rw [hline] at hsource
    rw [← String.ofList_append, ← String.ofList_append, ← String.ofList_append,
      ← String.ofList_toList (s := source), hsource]
    simp
  case starts => simpa [hposition] using hstarts
  case plain =>
    intro c hc
    rw [String.toList_append, String.toList_ofList, String.toList_ofList] at hc
    exact (List.mem_append.mp hc).elim (hin.plain c) (hleft c)
  case ended => simpa using hafter
  case column => rw [hposition, hin.column, String.length_ofList]
  case column16 => rw [hposition, hin.column16, String.toList_ofList]
  case offset =>
    rw [hposition, hoffset, Text.bytes_append]
    exact Nat.zero_add _
  case text =>
    rw [String.toList_append, String.toList_ofList, String.toList_ofList, ← hline]
    exact List.prefix_append _ _
  case first =>
    rw [String.toList_ofList]
    cases htext : token.text.toList with
    | nil =>
        rw [htext, hempty (String.toList_eq_nil_iff.mp htext)] at hline
        rw [(List.append_eq_nil_iff.mp hline.symm).1]
    | cons c tail =>
        rw [htext, List.cons_append] at hline hhead
        cases left with
        | nil =>
            rw [List.nil_append] at hline
            have hstop : isTerminator c = true := hafter c (by rw [← hline]; rfl)
            exact absurd (hhead c rfl) (by rw [hstop]; decide)
        | cons d left => rw [(List.cons.inj hline).1]; rfl

/--
**A caret stands below the token it is about, exactly as far out as widths go.**  Every token that
is read stands in the line its position names, which is the line the source is cut into under that
number.  If the column is no greater than the greatest width, a message about the position shows
that line and a caret below the character the token starts with; if it is greater, there is no
message.
-/
theorem caret_below_token_iff {source : String} {tokens : List Token}
    (h : tokenize source = .ok tokens) : ∀ token ∈ tokens, ∃ before done left after,
      InLine source token before done left after ∧
        Source.line? source token.position.line = some (done ++ left) ∧
        ∀ text, let shown? := (Diagnostic.mk text token.position).detailed? (some source)
          ((∃ shown, shown? = some shown ∧ Diagnostic.EndsInCaret shown (done ++ left) done.length
            token.text.toList.head?) ↔ token.position.column ≤ Text.maxWidth) ∧
          (shown? = none ↔ Text.maxWidth < token.position.column) := by
  intro token hmem
  obtain ⟨before, done, left, after, hline⟩ := exists_inLine h hmem
  refine ⟨before, done, left, after, hline, hline.line?_eq, fun text => ?_⟩
  have hnone : (Diagnostic.mk text token.position).detailed? (some source) = none ↔
      Text.maxWidth < token.position.column := by
    rw [Diagnostic.detailed?_eq_none_iff, hline.line?_eq]
    exact and_iff_right rfl
  refine ⟨⟨?_, fun hwidth => ?_⟩, hnone⟩
  · rintro ⟨shown, hshown, -⟩
    by_contra hwide
    exact Option.some_ne_none shown (hshown.symm.trans (hnone.mpr (Nat.lt_of_not_le hwide)))
  · obtain ⟨shown, hshown⟩ := Option.ne_none_iff_exists'.mp
      (mt hnone.mp (Nat.not_lt.mpr hwidth))
    refine ⟨shown, hshown, ?_⟩
    rw [← hline.column, ← hline.getElem?_column]
    exact Diagnostic.detailed?_endsInCaret hline.line?_eq hshown

/-- A comment that a lone carriage return ends, a pair and a quote that is marked inside of a block
string, a token on the line that starts there, and an empty last line behind two terminators. -/
def mixedLines : String :=
  "\uFEFF# é\r\r\n \"\"\"😀\r\n😀\\\"\"\"ü\"\"\" \"😀\\\\\" x\n\r"

theorem caret_below_token_mixedLines :
    ∃ tokens, tokenize mixedLines = .ok tokens ∧
      (tokens.map fun token => (token.position.line, token.position.column,
        token.position.column16, token.position.offset)) =
        [(2, 1, 1, 11), (3, 10, 11, 34), (3, 16, 18, 43), (5, 0, 0, 46)] ∧
      ∀ token ∈ tokens, ∃ before done left after,
        InLine mixedLines token before done left after ∧
          Source.line? mixedLines token.position.line = some (done ++ left) ∧
          ∀ text, ∃ shown,
            (Diagnostic.mk text token.position).detailed? (some mixedLines) = some shown ∧
              Diagnostic.EndsInCaret shown (done ++ left) done.length
                token.text.toList.head? := by
  have hread : (tokenize mixedLines).map (List.map fun token => (token.position.line,
      token.position.column, token.position.column16, token.position.offset)) =
      .ok [(2, 1, 1, 11), (3, 10, 11, 34), (3, 16, 18, 43), (5, 0, 0, 46)] := by
    decide +kernel
  obtain ⟨tokens, htokens, hpositions⟩ := Outcomes.map_eq_ok.mp hread
  have hnarrow : ∀ token ∈ tokens, token.position.column ≤ Text.maxWidth := by
    intro token hmem
    have hplace := List.mem_map_of_mem (f := fun token : Token => (token.position.line,
      token.position.column, token.position.column16, token.position.offset)) hmem
    rw [hpositions] at hplace
    have hall : ∀ place ∈ [(2, 1, 1, 11), (3, 10, 11, 34), (3, 16, 18, 43), (5, 0, 0, 46)],
        place.2.1 ≤ Text.maxWidth := by decide
    exact hall _ hplace
  refine ⟨tokens, htokens, hpositions, fun token hmem => ?_⟩
  obtain ⟨before, done, left, after, hline, hsource, hshown⟩ :=
    caret_below_token_iff htokens token hmem
  exact ⟨before, done, left, after, hline, hsource,
    fun text => (hshown text).1.mpr (hnarrow token hmem)⟩

/-! ### A token far out -/

/-- A source of so many spaces and a brace that closes nothing. -/
def braceBehind (count : Nat) : String :=
  String.ofList (List.replicate count ' ' ++ ['\x7d'])

theorem scanFrom_spaces (count column : Nat) (cs : List Char) :
    scanFrom 0 ⟨⟨0, column, column, column⟩, false⟩ (List.replicate count ' ' ++ cs) =
      scanFrom 0 ⟨⟨0, column + count, column + count, column + count⟩, false⟩ cs := by
  induction count generalizing column with
  | zero => rfl
  | succ count ih =>
      have hspace : isIgnored ' ' = true := by decide
      rw [List.replicate_succ, List.cons_append, scanFrom_ignored hspace, ← Nat.add_assoc,
        Nat.add_right_comm column count 1]
      exact ih (column + 1)

theorem tokenize_braceBehind (count : Nat) :
    tokenize (braceBehind count) = .ok
      [⟨.braceClose, "\x7d", ⟨0, count, count, count⟩⟩,
        ⟨.endOfInput, "", ⟨0, count + 1, count + 1, count + 1⟩⟩] := by
  have hscan := scanFrom_spaces count 0 ['\x7d']
  rw [Nat.zero_add] at hscan
  rw [tokenize, scan, braceBehind, String.toList_ofList]
  exact congrArg collect hscan

/-- The brace is read, on the only line there is, and no message can show where it stands. -/
theorem no_caret_below_braceBehind :
    ∃ tokens, tokenize (braceBehind 65536) = .ok tokens ∧ ∃ token ∈ tokens,
      token.text = "\x7d" ∧ token.position = ⟨0, 65536, 65536, 65536⟩ ∧
        (Source.line? (braceBehind 65536) token.position.line).isSome ∧
        ∀ text,
          (Diagnostic.mk text token.position).detailed? (some (braceBehind 65536)) = none := by
  have hread := tokenize_braceBehind 65536
  obtain ⟨before, done, left, after, hline⟩ := exists_inLine hread List.mem_cons_self
  have hsome := Option.isSome_of_eq_some hline.line?_eq
  have hwide : Text.maxWidth < 65536 := by decide
  exact ⟨_, hread, _, List.mem_cons_self, rfl, rfl, hsome,
    fun text => Diagnostic.detailed?_eq_none_iff.mpr ⟨hsome, hwide⟩⟩

end Token

end QueryBatching
