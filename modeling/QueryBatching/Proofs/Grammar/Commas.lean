/-
Commas carry no meaning.

A document that is read is spelled by its tokens, so they fill one of its layouts, and commas that
are taken out or put in next to the items of a list leave the layout filled.  What is spelled is
read; and commas are no brackets, so the nesting limit does not notice them either.  Tokens keep
their positions, so it is the same document and not only one like it.
-/
import QueryBatching.Proofs.Document.Legal
import QueryBatching.Proofs.Grammar.Completeness
import QueryBatching.Proofs.Grammar.Layout

namespace QueryBatching

open Token (Kind)

/-! ### Tokens apart from commas -/

/-- The tokens that are no commas. -/
def Token.significant (tokens : List Token) : List Token :=
  tokens.filter fun t => t.kind ≠ .comma

/-- The second tokens are what is left of the first ones without some of the commas. -/
inductive Token.Thins : List Token → List Token → Prop
  | nil : Thins [] []
  | keep (t : Token) {tokens fewer : List Token} :
      Thins tokens fewer → Thins (t :: tokens) (t :: fewer)
  | drop {t : Token} {tokens fewer : List Token} : t.kind = .comma →
      Thins tokens fewer → Thins (t :: tokens) fewer

namespace Token

theorem significant_append (first second : List Token) :
    significant (first ++ second) = significant first ++ significant second :=
  List.filter_append first second

theorem significant_cons {t : Token} (h : t.kind ≠ .comma) (tokens : List Token) :
    significant (t :: tokens) = t :: significant tokens :=
  List.filter_cons_of_pos (by simpa using h)

theorem significant_comma {t : Token} (h : t.kind = .comma) (tokens : List Token) :
    significant (t :: tokens) = significant tokens :=
  List.filter_cons_of_neg (by simp [h])

theorem significant_commas {commas : List Token} (h : commas ∈ Spelling.commas) :
    significant commas = [] :=
  List.filter_eq_nil_iff.mpr fun t ht => by simp [h t ht]

theorem Thins.significant_eq {tokens fewer : List Token} (h : Thins tokens fewer) :
    significant fewer = significant tokens := by
  induction h with
  | nil => rfl
  | keep t _ ih =>
      by_cases ht : t.kind = .comma
      · rw [significant_comma ht, significant_comma ht, ih]
      · rw [significant_cons ht, significant_cons ht, ih]
  | drop ht _ ih => rw [significant_comma ht, ih]

/-- Of two stretches of tokens the commas go from the one and from the other. -/
theorem Thins.split {first second fewer : List Token} (h : Thins (first ++ second) fewer) :
    ∃ front back, fewer = front ++ back ∧ Thins first front ∧ Thins second back := by
  induction first generalizing fewer with
  | nil => exact ⟨[], fewer, rfl, .nil, h⟩
  | cons t first ih =>
      cases h with
      | keep _ h =>
          obtain ⟨front, back, rfl, hfront, hback⟩ := ih h
          exact ⟨t :: front, back, rfl, .keep t hfront, hback⟩
      | drop ht h =>
          obtain ⟨front, back, rfl, hfront, hback⟩ := ih h
          exact ⟨front, back, rfl, .drop ht hfront, hback⟩

/-- Of commas only commas are left. -/
theorem Thins.mem_commas {commas fewer : List Token} (h : Thins commas fewer)
    (hcommas : commas ∈ Spelling.commas) : fewer ∈ Spelling.commas := by
  induction h with
  | nil => exact hcommas
  | keep t _ ih =>
      obtain ⟨ht, hrest⟩ := List.forall_mem_cons.mp hcommas
      exact List.forall_mem_cons.mpr ⟨ht, ih hrest⟩
  | drop _ _ ih => exact ih (List.forall_mem_cons.mp hcommas).2

end Token

open Layout (Fills)
open Token (Thins significant)

namespace Layout

/-- All commas in what fills a layout without commas are in its gaps, and may go. -/
theorem Fills.thins {layout : Layout} {tokens fewer : List Token} (h : Fills layout tokens)
    (hsolid : ∀ t, some t ∈ layout → t.kind ≠ .comma) (hthins : Thins tokens fewer) :
    Fills layout fewer := by
  induction h generalizing fewer with
  | nil =>
      cases hthins with
      | nil => exact .nil
  | token t _ ih =>
      cases hthins with
      | keep _ hthins =>
          exact .token t (ih (fun u hu => hsolid u (List.mem_cons_of_mem _ hu)) hthins)
      | drop ht _ => exact absurd ht (hsolid t List.mem_cons_self)
  | gap hcommas _ ih =>
      obtain ⟨front, back, rfl, hfront, hback⟩ := hthins.split
      exact .gap (hfront.mem_commas hcommas)
        (ih (fun u hu => hsolid u (List.mem_cons_of_mem _ hu)) hback)

/-- What fills the same layout differs in commas alone. -/
theorem Fills.significant_eq {layout : Layout} {tokens more : List Token} (h : Fills layout tokens)
    (h' : Fills layout more) : significant tokens = significant more := by
  induction h generalizing more with
  | nil =>
      cases h' with
      | nil => rfl
  | token t _ ih =>
      cases h' with
      | token _ h' =>
          show significant ([t] ++ _) = significant ([t] ++ _)
          rw [Token.significant_append, Token.significant_append, ih h']
  | gap hcommas _ ih =>
      cases h' with
      | gap hcommas' h' =>
          rw [Token.significant_append, Token.significant_append,
            Token.significant_commas hcommas, Token.significant_commas hcommas', ih h']

end Layout

/-! ### Documents -/

/-- Commas do not count towards the nesting limit. -/
theorem Grammar.tooDeep?_significant (depth : Nat) (tokens : List Token) :
    tooDeep? depth (significant tokens) = tooDeep? depth tokens := by
  induction tokens generalizing depth with
  | nil => rfl
  | cons t tokens ih =>
      by_cases ht : t.kind = .comma
      · rw [Token.significant_comma ht, ih, tooDeep?_cons (by simp [ht, brackets])]
      · rw [Token.significant_cons ht, tooDeep?, tooDeep?]
        split <;> simp only [ih]

namespace Document

/--
**Commas carry no meaning.**  If some tokens are read as a document, then they are so without any
of their commas.  Up to the end of the input they fill a layout of the document, and whatever else
fills such a layout is read as the same document: with any commas before, between and behind the
items of selection sets, argument lists, declarations, lists and objects.
-/
theorem ofTokens_commas {tokens : List Token} {document : Document}
    (h : ofTokens tokens = .ok document) :
    (∀ fewer, Thins tokens fewer → ofTokens fewer = .ok document) ∧
      (∃ layout ∈ document.layouts, ∃ taken rest, tokens = taken ++ rest ∧
        Fills layout taken) ∧
      ∀ layout ∈ document.layouts, ∀ taken rest, tokens = taken ++ rest → Fills layout taken →
        ∀ more, Fills layout more → ofTokens (more ++ rest) = .ok document := by
  have hlays := document.lays
  have hdepth := tooDeep?_of_ofTokens h
  -- Whatever fills a layout is read, if it has the same tokens apart from commas.
  have hread : ∀ layout ∈ document.layouts, ∀ taken rest, Fills layout taken →
      significant (taken ++ rest) = significant tokens →
        ofTokens (taken ++ rest) = .ok document := by
    intro layout hlayout taken rest hfills hsame
    refine ofTokens_append_of_mem_spellings ((hlays.mem_iff taken).mpr ⟨layout, hlayout, hfills⟩) ?_
    rw [← Grammar.tooDeep?_significant, hsame, Grammar.tooDeep?_significant, hdepth]
  obtain ⟨taken, rest, hmem, rfl⟩ := mem_spellings_of_ofTokens h
  obtain ⟨layout, hlayout, hfills⟩ := (hlays.mem_iff taken).mp hmem
  refine ⟨fun fewer hthins => ?_, ⟨layout, hlayout, taken, rest, rfl, hfills⟩, ?_⟩
  · have hsame := hthins.significant_eq
    obtain ⟨front, back, rfl, hfront, -⟩ := hthins.split
    exact hread layout hlayout front back
      (hfills.thins (hlays.commaless layout hlayout) hfront) hsame
  · intro other hother first second hsplit hfirst more hmore
    refine hread other hother more second hmore ?_
    rw [hsplit, Token.significant_append, Token.significant_append,
      hfirst.significant_eq hmore]

/-- A selection set of two fields with a comma between them. -/
def twoFields : List Token :=
  [⟨.braceOpen, "\x7b", {}⟩, ⟨.name, "a", {}⟩, ⟨.comma, ",", {}⟩, ⟨.name, "b", {}⟩,
    ⟨.braceClose, "\x7d", {}⟩, ⟨.endOfInput, "", {}⟩]

theorem ofTokens_commas_twoFields :
    ∃ document, ofTokens twoFields = .ok document ∧
      ofTokens (significant twoFields) = .ok document ∧
      ∃ layout ∈ document.layouts, ∃ taken rest, twoFields = taken ++ rest ∧
        Fills layout taken := by
  have hok : (ofTokens twoFields).isOk = true := by decide +kernel
  obtain ⟨document, hread⟩ := Outcomes.exists_of_isOk hok
  have hthins : Thins twoFields (significant twoFields) :=
    .keep _ (.keep _ (.drop rfl (.keep _ (.keep _ (.keep _ .nil)))))
  obtain ⟨hfewer, hlayout, -⟩ := ofTokens_commas hread
  exact ⟨document, hread, hfewer _ hthins, hlayout⟩

end Document

end QueryBatching
