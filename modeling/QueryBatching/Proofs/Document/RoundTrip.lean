/-
Canonical text is read back as the document it is the text of.

Reading a source, writing the document down and reading that again gives the same document,
except for the positions, which are those of the text that was read.  The parts have been
put together by now: a document that is read is legal, the canonical text of a legal document
scans as tokens that spell it, and what spells a document is read as that document.  What is
left are the positions.

No two legal parts have the same canonical text either, since a text is read in one way only.
-/
import QueryBatching.Proofs.Document.Rendering
import QueryBatching.Proofs.Document.Room
import QueryBatching.Proofs.Grammar.Completeness

namespace QueryBatching

open Grammar Spelling
open Parse (Cursor)
open Token (Scans Seals Writes)

/-! ### Positions -/

/-- The operation without its position. -/
def Operation.unplaced (operation : Operation) : Operation := { operation with position := {} }

/-- The fragment without its position. -/
def Fragment.unplaced (fragment : Fragment) : Fragment := { fragment with position := {} }

namespace Definition

/-- The definition without its position. -/
def unplaced : Definition → Definition
  | .operation found => .operation found.unplaced
  | .fragment found => .fragment found.unplaced

/-- The spellings of a definition, with its keyword and wherever it starts. -/
def bodySpellings : Definition → Language Token
  | .operation found => found.keywordSpellings
  | .fragment found => found.bodySpellings

theorem text_unplaced (definition : Definition) : definition.unplaced.text = definition.text := by
  cases definition with
  | operation found => rfl
  | fragment found => rfl

/-- What spells a definition spells it at the place where it starts. -/
theorem exists_placed {definition : Definition} {tokens : List Token}
    (h : tokens ∈ definition.bodySpellings) :
    ∃ placed : Definition, placed.unplaced = definition.unplaced ∧ tokens ∈ placed.spellings := by
  cases definition with
  | operation found =>
      exact ⟨.operation { found with position := start tokens }, rfl, .inl h, rfl⟩
  | fragment found =>
      exact ⟨.fragment { found with position := start tokens }, rfl, h, rfl⟩

theorem exists_placed_all {definitions : List Definition} {tokens : List Token}
    (h : tokens ∈ inOrder bodySpellings definitions) :
    ∃ placed : List Definition, placed.map unplaced = definitions.map unplaced ∧
      tokens ∈ inOrder spellings placed := by
  induction definitions generalizing tokens with
  | nil => exact ⟨[], rfl, h⟩
  | cons definition rest ih =>
      obtain ⟨first, hfirst, second, hsecond, rfl⟩ := h
      obtain ⟨placed, hplaced, hspell⟩ := exists_placed hfirst
      obtain ⟨others, hothers, hspells⟩ := ih hsecond
      exact ⟨placed :: others, by rw [List.map_cons, List.map_cons, hplaced, hothers],
        mem_mul hspell hspells⟩

theorem seals {room : Nat} {definition : Definition} (h : definition.Legal room) :
    Seals definition.text definition.bodySpellings := by
  cases definition with
  | operation found => exact Operation.seals h
  | fragment found => exact Fragment.seals h

theorem fits {room : Nat} {definition : Definition} (h : definition.Legal room) :
    Fits room definition.bodySpellings := by
  cases definition with
  | operation found => exact Operation.fits h
  | fragment found => exact Fragment.fits h

end Definition

namespace Document

/-- The document without its positions. -/
def unplaced (document : Document) : Document := ⟨document.definitions.map Definition.unplaced⟩

theorem text_unplaced (document : Document) : document.unplaced.text = document.text := by
  unfold text unplaced
  rw [List.map_map]
  congr 2
  exact funext Definition.text_unplaced

/-! ### The round trip -/

theorem scans {room : Nat} {document : Document} (h : document.Legal room) :
    Scans document.text.toList
      (inOrder Definition.bodySpellings document.definitions * sign .endOfInput) := by
  obtain ⟨first, rest, hdefinitions⟩ := List.exists_cons_of_ne_nil h.ne_nil
  have hwrites : Writes document.text
      (Definition.bodySpellings first *
        inOrder (fun definition => 1 * Definition.bodySpellings definition) rest) := by
    unfold text
    rw [hdefinitions]
    exact Token.writes_intercalate Token.seals_blank (by decide) (by decide) first
      fun definition hmem => (Definition.seals (h.all definition (hdefinitions ▸ hmem))).writes
  have hscan := hwrites Lexeme.Breaks.nil Token.scans_nil
  rw [List.append_nil] at hscan
  rw [hdefinitions]
  simpa only [inOrder, one_mul] using hscan

/-- **The canonical text of a legal document is read as that document**, up to positions. -/
theorem parse_text_of_legal {document : Document} (h : document.Legal nestingLimit) :
    ∃ again, Document.parse document.text = .ok again ∧ again.unplaced = document.unplaced := by
  obtain ⟨tokens, hmem, hscan⟩ := scans h {}
  obtain ⟨front, hfront, last, hlast, rfl⟩ := hmem
  obtain ⟨placed, hplaced, hspell⟩ := Definition.exists_placed_all hfront
  have hne : placed ≠ [] := by
    intro hnil
    rw [hnil, List.map_nil, eq_comm, List.map_eq_nil_iff] at hplaced
    exact h.ne_nil hplaced
  have hspells : front ++ last ∈ Document.spellings ⟨placed⟩ := by
    obtain ⟨first, rest, rfl⟩ := List.exists_cons_of_ne_nil hne
    exact mem_mul hspell hlast
  have hdepth : tooDeep? 0 (front ++ last) = none := by
    have hfits : Fits nestingLimit (inOrder Definition.bodySpellings document.definitions) :=
      fits_inOrder fun definition hmem => Definition.fits (h.all definition hmem)
    have hend : Fits nestingLimit (sign .endOfInput) := fits_sign (by decide)
    have := (hfits.mul hend) (mem_mul hfront hlast) (Nat.zero_add _).le []
    rwa [List.append_nil] at this
  refine ⟨⟨placed⟩, ?_, congrArg Document.mk hplaced⟩
  have htokens : Token.tokenize document.text = .ok (front ++ last) := hscan
  simp only [Document.parse, htokens, ofTokens_of_mem_spellings hspells hdepth, Except.mapError]

/--
**Canonical text round trip.**  For every source that is read, the canonical text of its
document is read as well, as the same document up to positions, and so the canonical text of
what is read the second time is the same text.
-/
theorem parse_canonical_text {source : String} {document : Document}
    (h : Document.parse source = .ok document) :
    ∃ again, Document.parse document.text = .ok again ∧ again.unplaced = document.unplaced ∧
      again.text = document.text := by
  obtain ⟨again, hparse, hsame⟩ := parse_text_of_legal (legal_of_parse h)
  refine ⟨again, hparse, hsame, ?_⟩
  rw [← text_unplaced again, hsame, text_unplaced]

/-- A source with most of what the language has, and with comments, commas and an empty string. -/
def sampleSource : String :=
  "query Q($v: [Int!] = [1,,2] @d) \x7b a: b(x: $v, s: \"\") # note\n ... @skip \x7b c \x7d " ++
    "...F \x7d fragment F on T \x7b d \x7d"

theorem parse_canonical_text_query :
    ∃ document, Document.parse sampleSource = .ok document ∧
      ∃ again, Document.parse document.text = .ok again ∧ again.unplaced = document.unplaced ∧
        again.text = document.text := by
  have hread : (Document.parse sampleSource).isOk = true := by decide +kernel
  cases hparse : Document.parse sampleSource with
  | error error =>
      rw [hparse] at hread
      exact absurd hread Bool.false_ne_true
  | ok document => exact ⟨document, rfl, parse_canonical_text hparse⟩

end Document

/-! ### No two parts have the same text -/

/-- What scans in two ways scans as tokens that spell both. -/
theorem Token.Scans.exists_mem {cs : List Char} {L M : Language Token} (h : Scans cs L)
    (h' : Scans cs M) : ∃ tokens, tokens ∈ L ∧ tokens ∈ M := by
  obtain ⟨tokens, hmem, hscan⟩ := h {}
  obtain ⟨others, hmem', hscan'⟩ := h' {}
  rw [hscan, Except.ok.injEq] at hscan'
  exact ⟨tokens, hmem, hscan' ▸ hmem'⟩

/-- Texts are read in one way: what two things write is the same if they are. -/
theorem Parser.Complete.eq_of_text {α : Type} {p : Nat → Parser α} {spell : α → Language Token}
    {blocked : List Token.Kind} (h : ∀ bound, Complete (p bound) bound spell blocked)
    (hend : .endOfInput ∉ blocked) {a b : α} {text : String} (ha : Writes text (spell a))
    (hb : Writes text (spell b)) : a = b := by
  have hscan : ∀ c, Writes text (spell c) → Scans text.toList (spell c * sign .endOfInput) := by
    intro c hc
    have hwhole := hc Lexeme.Breaks.nil Token.scans_nil
    rwa [List.append_nil] at hwhole
  obtain ⟨tokens, ⟨front, hfront, _, ⟨t, rfl, ht⟩, rfl⟩, other, hother, _, ⟨u, rfl, hu⟩, heq⟩ :=
    (hscan a ha).exists_mem (hscan b hb)
  obtain ⟨rfl, -⟩ := List.append_inj' heq rfl
  have hadv : Cursor.Advances ⟨0, other ++ [t]⟩ other ⟨other.length, [t]⟩ :=
    ⟨rfl, (Nat.zero_add _).symm⟩
  have hclear : Clear blocked [t] := clear_cons (ht ▸ hend)
  exact (((h other.length) hfront le_rfl hadv hclear).unique
    ((h other.length) hother le_rfl hadv hclear)).1

/-- Argument lists with the same text are the same. -/
theorem Argument.eq_of_listText_eq {room room' : Nat} {as bs : List Argument}
    (ha : ∀ argument ∈ as, argument.Legal room) (hb : ∀ argument ∈ bs, argument.Legal room')
    (h : Argument.listText as = Argument.listText bs) : as = bs := by
  have hcomplete : ∀ bound, Parser.Complete
      (Parser.map (fun found? : Option (List Argument) => found?.getD [])
        (Parser.optional (arguments bound))) bound
      (Spelling.parenthesized Argument.spellings) [.parenOpen] :=
    fun bound => (decides_arguments bound).optional.map fun _ _ => exists_of_mem_parenthesized
  have hwrites := (Argument.writes_list hb).1
  rw [← h] at hwrites
  exact Parser.Complete.eq_of_text hcomplete (by decide) (Argument.writes_list ha).1 hwrites

/-- Selections with the same text are the same. -/
theorem Selection.eq_of_text_eq {room room' : Nat} {a b : Selection} (ha : a.Legal room)
    (hb : b.Legal room') (h : a.text = b.text) : a = b := by
  have hcomplete := fun bound => (decides_selection (decides_selectionSet bound)).complete
  have hwrites := Selection.writes hb
  rw [← h] at hwrites
  exact Parser.Complete.eq_of_text hcomplete (by decide) (Selection.writes ha) hwrites

/-- Fragments with the same text are the same, up to their positions. -/
theorem Fragment.unplaced_eq_of_text_eq {room room' : Nat} {a b : Fragment} (ha : a.Legal room)
    (hb : b.Legal room') (h : a.text = b.text) : a.unplaced = b.unplaced := by
  have hcomplete : ∀ bound, Parser.Complete (Parser.map unplaced (fragment bound)) bound
      (fun found => {tokens | found.unplaced = found ∧ tokens ∈ found.bodySpellings}) [] := by
    refine fun bound => (complete_fragment bound).map ?_
    rintro found tokens ⟨hfound, hmem⟩
    exact ⟨{ found with position := start tokens }, hfound, hmem, rfl⟩
  have hwrites : ∀ {room : Nat} {c : Fragment}, c.Legal room → Writes c.text
      {tokens | c.unplaced.unplaced = c.unplaced ∧ tokens ∈ c.unplaced.bodySpellings} :=
    fun hc => (Fragment.seals hc).writes.mono fun _ hmem => ⟨rfl, hmem⟩
  have hsame := hwrites hb
  rw [← h] at hsame
  exact Parser.Complete.eq_of_text hcomplete (by decide) (hwrites ha) hsame

/-- A fragment with the text that another has under some name has the body of the other. -/
theorem Fragment.body_eq_of_text_eq {room room' : Nat} {a b : Fragment} {name : String}
    (ha : a.Legal room) (hb : b.Legal room') (hname : IsFragmentName name)
    (h : a.text = { b with name := name }.text) :
    a.condition = b.condition ∧ a.directives = b.directives ∧ a.selections = b.selections := by
  have hnamed : ({ b with name := name } : Fragment).Legal room' :=
    ⟨hname, hb.condition, hb.directives, hb.selections⟩
  have hsame := Fragment.unplaced_eq_of_text_eq ha hnamed h
  injection hsame with _ hcondition hdirectives hselections
  exact ⟨hcondition, hdirectives, hselections⟩

end QueryBatching
