/-
Why a document makes no call.

Three things can be wrong with a document that is to be sent as one call, and they are looked for
one after another: the number of its operations, fragments of the same name, and spreads of
fragments that it lacks.  `Document.Rejected` says, for each of them, where the first offence is
and what is in order before it, and a document is refused with an error exactly if it is rejected
with that error.

Spreads are looked for wherever a selection can stand.  `Selection.Spreads` says so by one rule
for each kind of selection that has others below it, and the names that are collected from a
selection set are those that it spreads in this sense.
-/
import QueryBatching.Proofs.Document.Trees
import QueryBatching.Proofs.Merge.CallDocument

namespace QueryBatching

/-! ### Spreads at any depth -/

namespace Selection

/-- The selection is a spread of the fragment, or has one somewhere below it. -/
inductive Spreads (name : String) : Selection → Prop
  | spread (directives : List Directive) : Spreads name (.spread name directives)
  | field (head : Field) {nested : List Selection} {selection : Selection}
      (hmem : selection ∈ nested) (h : Spreads name selection) :
      Spreads name (.field head (some nested))
  | inlineFragment (condition? : Option String) (directives : List Directive)
      {nested : List Selection} {selection : Selection} (hmem : selection ∈ nested)
      (h : Spreads name selection) : Spreads name (.inlineFragment condition? directives nested)

variable {name : String}

theorem mem_spreads {selection : Selection} :
    name ∈ selection.spreads ↔ Spreads name selection := by
  induction selection using Selection.induction with
  | leaf head =>
      simp only [spreads, List.not_mem_nil, false_iff]
      exact nofun
  | field head nested ih =>
      simp only [spreads, spreadsOfAll_eq, List.mem_flatMap]
      constructor
      · rintro ⟨selection, hmem, hname⟩
        exact .field head hmem ((ih selection hmem).mp hname)
      · intro h
        cases h with
        | field _ hmem h => exact ⟨_, hmem, (ih _ hmem).mpr h⟩
  | spread other directives =>
      simp only [spreads, List.mem_singleton]
      constructor
      · rintro rfl
        exact .spread directives
      · rintro ⟨⟩
        rfl
  | inlineFragment condition? directives nested ih =>
      simp only [spreads, spreadsOfAll_eq, List.mem_flatMap]
      constructor
      · rintro ⟨selection, hmem, hname⟩
        exact .inlineFragment condition? directives hmem ((ih selection hmem).mp hname)
      · intro h
        cases h with
        | inlineFragment _ _ hmem h => exact ⟨_, hmem, (ih _ hmem).mpr h⟩

theorem mem_spreadsOfAll {selections : List Selection} :
    name ∈ spreadsOfAll selections ↔ ∃ selection ∈ selections, Spreads name selection := by
  simp only [spreadsOfAll_eq, List.mem_flatMap, mem_spreads]

end Selection

/-! ### Documents in order -/

namespace Document

/-- The document has a fragment of that name. -/
def Defines (document : Document) (name : String) : Prop :=
  ∃ fragment ∈ document.fragments, fragment.name = name

/-- Every fragment that is spread in the selection set, at any depth, is one of the document. -/
def Resolves (document : Document) (selections : List Selection) : Prop :=
  ∀ selection ∈ selections, ∀ name, selection.Spreads name → document.Defines name

/-- The document has one operation, and its fragments are named apart and resolve all spreads. -/
structure IsClosed (document : Document) (operation : Operation) : Prop where
  operations : document.operations = [operation]
  names : (document.fragments.map Fragment.name).Nodup
  operation : document.Resolves operation.selections
  fragments : ∀ fragment ∈ document.fragments, document.Resolves fragment.selections

/-- The name is the first that the selection set spreads, in source order, without a fragment. -/
def FirstUndefined (document : Document) (selections : List Selection) (name : String) : Prop :=
  ∃ front back, Selection.spreadsOfAll selections = front ++ name :: back ∧
    (∀ other ∈ front, document.Defines other) ∧ ¬ document.Defines name

/-- What the document is refused for, by the first check that it does not pass. -/
inductive Rejected (document : Document) : ParseError → Prop
  | noOperation (h : document.operations = []) :
      Rejected document ⟨.operationCount 0, {}⟩
  | operations (first second : Operation) (rest : List Operation)
      (h : document.operations = first :: second :: rest) :
      Rejected document ⟨.operationCount (rest.length + 2), second.position⟩
  | repeated {operation : Operation} {front back : List Fragment} {fragment : Fragment}
      (hone : document.operations = [operation])
      (hfragments : document.fragments = front ++ fragment :: back)
      (hfront : (front.map Fragment.name).Nodup)
      (hname : fragment.name ∈ front.map Fragment.name) :
      Rejected document ⟨.repeatedFragment fragment.name, fragment.position⟩
  | inOperation {operation : Operation} {name : String}
      (hone : document.operations = [operation])
      (hnames : (document.fragments.map Fragment.name).Nodup)
      (hname : document.FirstUndefined operation.selections name) :
      Rejected document ⟨.undefinedFragment name, operation.position⟩
  | inFragment {operation : Operation} {front back : List Fragment} {fragment : Fragment}
      {name : String} (hone : document.operations = [operation])
      (hnames : (document.fragments.map Fragment.name).Nodup)
      (hoperation : document.Resolves operation.selections)
      (hfragments : document.fragments = front ++ fragment :: back)
      (hfront : ∀ earlier ∈ front, document.Resolves earlier.selections)
      (hname : document.FirstUndefined fragment.selections name) :
      Rejected document ⟨.undefinedFragment name, fragment.position⟩

/-- All that a document can be refused for is of one class. -/
theorem Rejected.kind_eq {document : Document} {error : ParseError} (h : document.Rejected error) :
    error.fault.kind = .unsupportedDocument := by
  cases h <;> rfl

variable {document : Document}

theorem mem_names_iff {name : String} :
    name ∈ document.fragments.map Fragment.name ↔ document.Defines name :=
  List.mem_map

theorem resolves_iff {selections : List Selection} :
    document.Resolves selections ↔
      ∀ name ∈ Selection.spreadsOfAll selections, name ∈ document.fragments.map Fragment.name := by
  simp only [mem_names_iff, Selection.mem_spreadsOfAll]
  constructor
  · rintro h name ⟨selection, hmem, hspreads⟩
    exact h selection hmem name hspreads
  · intro h selection hmem name hspreads
    exact h name ⟨selection, hmem, hspreads⟩

end Document

/-! ### The three checks -/

namespace CallDocument

open Document (Rejected)

variable {document : Document}

theorem repeated?_eq_some {seen : List String} {fragments : List Fragment} {fragment : Fragment} :
    repeated? seen fragments = some fragment ↔
      ∃ front back, fragments = front ++ fragment :: back ∧
        (∀ earlier ∈ front, earlier.name ∉ seen) ∧ (front.map Fragment.name).Nodup ∧
        (fragment.name ∈ seen ∨ fragment.name ∈ front.map Fragment.name) := by
  induction fragments generalizing seen with
  | nil => simp [repeated?]
  | cons first rest ih =>
      rw [repeated?]
      by_cases hseen : first.name ∈ seen
      · rw [if_pos hseen]
        constructor
        · rintro ⟨⟩
          exact ⟨[], rest, rfl, by simp, by simp, .inl hseen⟩
        · rintro ⟨front, back, hsplit, hfront, -, -⟩
          cases front with
          | nil =>
              obtain ⟨rfl, -⟩ := List.cons.inj hsplit
              rfl
          | cons earlier front =>
              obtain ⟨rfl, -⟩ := List.cons.inj hsplit
              exact absurd hseen (hfront first (by simp))
      · rw [if_neg hseen, ih]
        constructor
        · -- The first one is in front of all others, and they have been told of its name.
          rintro ⟨front, back, rfl, hfront, hnodup, hrepeated⟩
          refine ⟨first :: front, back, rfl, ?_, ?_, ?_⟩
          · intro earlier hmem
            rcases List.mem_cons.mp hmem with rfl | hmem
            · exact hseen
            · exact fun hin => hfront earlier hmem (by simp [hin])
          · refine List.nodup_cons.mpr ⟨fun hmem => ?_, hnodup⟩
            obtain ⟨earlier, hin, hname⟩ := List.mem_map.mp hmem
            exact hfront earlier hin (by simp [hname])
          · simpa [or_assoc, or_left_comm] using hrepeated
        · rintro ⟨front, back, hsplit, hfront, hnodup, hrepeated⟩
          cases front with
          | nil =>
              obtain ⟨rfl, -⟩ := List.cons.inj hsplit
              exact absurd (by simpa using hrepeated) hseen
          | cons earlier front =>
              obtain ⟨rfl, rfl⟩ := List.cons.inj hsplit
              obtain ⟨hnew, hnodup⟩ := List.nodup_cons.mp hnodup
              refine ⟨front, back, rfl, ?_, hnodup, ?_⟩
              · intro other hmem hin
                rcases List.mem_cons.mp hin with hname | hin
                · exact hnew (hname ▸ List.mem_map_of_mem hmem)
                · exact hfront other (by simp [hmem]) hin
              · simpa [or_assoc, or_left_comm] using hrepeated

theorem undefined?_eq_some {selections : List Selection} {name : String} :
    undefined? (document.fragments.map Fragment.name) selections = some name ↔
      document.FirstUndefined selections name := by
  unfold undefined?
  rw [List.find?_eq_some_iff_append]
  simp only [decide_eq_true_eq, Bool.not_eq_true', decide_eq_false_iff_not, not_not,
    Document.mem_names_iff]
  constructor
  · rintro ⟨hname, front, back, hsplit, hfront⟩
    exact ⟨front, back, hsplit, hfront, hname⟩
  · rintro ⟨front, back, hsplit, hfront, hname⟩
    exact ⟨hname, front, back, hsplit, hfront⟩

theorem undefined?_eq_none_iff {selections : List Selection} :
    undefined? (document.fragments.map Fragment.name) selections = none ↔
      document.Resolves selections := by
  rw [undefined?_eq_none, Document.resolves_iff]

/-- The error that a selection set amounts to, in a definition at the position. -/
theorem map_undefined?_eq_some {selections : List Selection} {position : Position}
    {error : ParseError} :
    (undefined? (document.fragments.map Fragment.name) selections).map
        (fun name => (⟨.undefinedFragment name, position⟩ : ParseError)) = some error ↔
      ∃ name, document.FirstUndefined selections name ∧
        error = ⟨.undefinedFragment name, position⟩ := by
  rw [Option.map_eq_some_iff]
  exact exists_congr fun name => and_congr undefined?_eq_some eq_comm

theorem unclosed?_eq_some {operation : Operation} {error : ParseError} :
    unclosed? operation document.fragments = some error ↔
      (∃ name, document.FirstUndefined operation.selections name ∧
        error = ⟨.undefinedFragment name, operation.position⟩) ∨
      (document.Resolves operation.selections ∧ ∃ front fragment back,
        document.fragments = front ++ fragment :: back ∧
        (∀ earlier ∈ front, document.Resolves earlier.selections) ∧
        ∃ name, document.FirstUndefined fragment.selections name ∧
          error = ⟨.undefinedFragment name, fragment.position⟩) := by
  unfold unclosed?
  rw [List.findSome?_eq_some_iff]
  constructor
  · rintro ⟨before, body, after, hsplit, hbody, hbefore⟩
    cases before with
    | nil =>
        obtain ⟨rfl, -⟩ := List.cons.inj hsplit
        exact .inl (map_undefined?_eq_some.mp hbody)
    | cons first before =>
        obtain ⟨rfl, hmap⟩ := List.cons.inj hsplit
        obtain ⟨front, rest, hfragments, rfl, hrest⟩ := List.map_eq_append_iff.mp hmap
        obtain ⟨fragment, back, rfl, rfl, -⟩ := List.map_eq_cons_iff.mp hrest
        rw [List.forall_mem_cons] at hbefore
        refine .inr ⟨undefined?_eq_none_iff.mp (by simpa using hbefore.1), front, fragment, back,
          hfragments, ?_, map_undefined?_eq_some.mp hbody⟩
        intro earlier hmem
        have hnone := hbefore.2 _ (List.mem_map_of_mem hmem)
        exact undefined?_eq_none_iff.mp (by simpa using hnone)
  · rintro (hoperation | ⟨hoperation, front, fragment, back, hfragments, hfront, hfragment⟩)
    · exact ⟨[], _, _, rfl, map_undefined?_eq_some.mpr hoperation, by simp⟩
    · refine ⟨(operation.selections, operation.position) ::
          front.map fun fragment => (fragment.selections, fragment.position),
        (fragment.selections, fragment.position),
        back.map fun fragment => (fragment.selections, fragment.position), ?_,
        map_undefined?_eq_some.mpr hfragment, ?_⟩
      · rw [hfragments, List.map_append, List.map_cons, List.cons_append]
      · rw [List.forall_mem_cons, List.forall_mem_map]
        refine ⟨?_, fun earlier hmem => ?_⟩
        · simpa using undefined?_eq_none_iff.mpr hoperation
        · simpa using undefined?_eq_none_iff.mpr (hfront earlier hmem)

/-! ### All in all -/

theorem isClosed_iff {call : CallDocument} (h : call.fragments = document.fragments) :
    document.IsClosed call.operation ↔ document.operations = [call.operation] ∧ call.Closed := by
  constructor
  · intro hclosed
    refine ⟨hclosed.operations, h ▸ hclosed.names, ?_, fun fragment hmem => ?_⟩
    · exact h ▸ Document.resolves_iff.mp hclosed.operation
    · exact h ▸ Document.resolves_iff.mp (hclosed.fragments fragment (h ▸ hmem))
  · rintro ⟨hone, hclosed⟩
    refine ⟨hone, h ▸ hclosed.names, ?_, fun fragment hmem => ?_⟩
    · exact Document.resolves_iff.mpr (h ▸ hclosed.operation)
    · exact Document.resolves_iff.mpr (h ▸ hclosed.fragments fragment (h ▸ hmem))

theorem ofDocument_eq_ok_iff {index : Nat} {call : CallDocument} :
    ofDocument index document = .ok call ↔
      call.index = index ∧ document.IsClosed call.operation ∧
        call.fragments = document.fragments := by
  rw [ofDocument_eq_ok]
  constructor
  · rintro ⟨hindex, hone, hfragments, hclosed⟩
    exact ⟨hindex, (isClosed_iff hfragments.symm).mpr ⟨hone, hclosed⟩, hfragments.symm⟩
  · rintro ⟨hindex, hclosed, hfragments⟩
    obtain ⟨hone, hclosed⟩ := (isClosed_iff hfragments).mp hclosed
    exact ⟨hindex, hone, hfragments.symm, hclosed⟩

/-- With one operation the document is refused for its fragments, or for nothing. -/
theorem ofDocument_of_one {index : Nat} {operation : Operation}
    (h : document.operations = [operation]) {error : ParseError} :
    ofDocument index document = .error error ↔
      (∃ fragment, repeated? [] document.fragments = some fragment ∧
        error = ⟨.repeatedFragment fragment.name, fragment.position⟩) ∨
      (repeated? [] document.fragments = none ∧
        unclosed? operation document.fragments = some error) := by
  unfold ofDocument
  rw [h]
  cases hrepeated : repeated? [] document.fragments with
  | some fragment => simp [eq_comm]
  | none => cases hunclosed : unclosed? operation document.fragments <;> simp [hunclosed]

theorem ofDocument_eq_error_iff {index : Nat} {error : ParseError} :
    ofDocument index document = .error error ↔ document.Rejected error := by
  rcases hoperations : document.operations with _ | ⟨first, _ | ⟨second, rest⟩⟩
  · have hfails : ofDocument index document = .error ⟨.operationCount 0, {}⟩ := by
      rw [ofDocument, hoperations]
      rfl
    rw [hfails]
    constructor
    · rintro ⟨⟩
      exact .noOperation hoperations
    · intro h
      cases h <;> simp_all
  · rw [ofDocument_of_one hoperations, repeated?_eq_none, unclosed?_eq_some]
    constructor
    · rintro (⟨fragment, hrepeated, rfl⟩ | ⟨⟨-, hnames⟩, hunclosed⟩)
      · obtain ⟨front, back, hsplit, -, hnodup, hname⟩ := repeated?_eq_some.mp hrepeated
        exact .repeated hoperations hsplit hnodup (by simpa using hname)
      · rcases hunclosed with ⟨name, hname, rfl⟩ |
          ⟨hoperation, front, fragment, back, hsplit, hfront, name, hname, rfl⟩
        · exact .inOperation hoperations hnames hname
        · exact .inFragment hoperations hnames hoperation hsplit hfront hname
    · intro h
      cases h with
      | noOperation hnone => simp [hnone] at hoperations
      | operations _ _ _ hseveral => simp [hseveral] at hoperations
      | repeated _ hsplit hnodup hname =>
          exact .inl ⟨_, repeated?_eq_some.mpr ⟨_, _, hsplit, by simp, hnodup, .inr hname⟩, rfl⟩
      | inOperation hone hnames hname =>
          obtain rfl := List.singleton_inj.mp (hoperations.symm.trans hone)
          exact .inr ⟨⟨by simp, hnames⟩, .inl ⟨_, hname, rfl⟩⟩
      | inFragment hone hnames hoperation hsplit hfront hname =>
          obtain rfl := List.singleton_inj.mp (hoperations.symm.trans hone)
          exact .inr ⟨⟨by simp, hnames⟩, .inr ⟨hoperation, _, _, _, hsplit, hfront, _, hname, rfl⟩⟩
  · have hfails : ofDocument index document =
        .error ⟨.operationCount (rest.length + 2), second.position⟩ := by
      rw [ofDocument, hoperations]
      rfl
    rw [hfails]
    constructor
    · rintro ⟨⟩
      exact .operations first second rest hoperations
    · intro h
      cases h <;> simp_all

/--
**A document makes a call exactly if it is closed.**  The call then holds its operation and all
its fragments in source order; otherwise the error says what the document is rejected for, which
is always that it cannot be sent as one call.
-/
theorem ofDocument_exact (index : Nat) (document : Document) :
    ((∃ call, ofDocument index document = .ok call) ↔
      ∃ operation, document.IsClosed operation) ∧
    (∀ call, ofDocument index document = .ok call ↔
      call.index = index ∧ document.IsClosed call.operation ∧
        call.fragments = document.fragments) ∧
    (∀ error, ofDocument index document = .error error ↔ document.Rejected error) ∧
    ∀ error, document.Rejected error → error.fault.kind = .unsupportedDocument := by
  refine ⟨⟨?_, ?_⟩, fun call => ofDocument_eq_ok_iff, fun error => ofDocument_eq_error_iff,
    fun error h => h.kind_eq⟩
  · rintro ⟨call, hcall⟩
    exact ⟨call.operation, (ofDocument_eq_ok_iff.mp hcall).2.1⟩
  · rintro ⟨operation, hclosed⟩
    exact ⟨⟨index, operation, document.fragments⟩, ofDocument_eq_ok_iff.mpr ⟨rfl, hclosed, rfl⟩⟩

/-- An operation, and a fragment nowhere spread that spreads another one two levels down. -/
def hiddenSpread : Document :=
  ⟨[.fragment ⟨"F", "T", [], [.field ⟨none, "a", [], []⟩
      (some [.inlineFragment none [] [.spread "Missing" []]])], ⟨0, 0, 0, 0⟩⟩,
    .operation ⟨.query, none, [], [], [.field ⟨none, "b", [], []⟩ none], ⟨1, 0, 0, 40⟩⟩]⟩

theorem ofDocument_exact_hiddenSpread :
    hiddenSpread.Rejected ⟨.undefinedFragment "Missing", ⟨0, 0, 0, 0⟩⟩ ∧
      (ParseFault.undefinedFragment "Missing").kind = .unsupportedDocument := by
  obtain ⟨-, -, hrejected, hkind⟩ := ofDocument_exact 0 hiddenSpread
  have h : hiddenSpread.Rejected ⟨.undefinedFragment "Missing", ⟨0, 0, 0, 0⟩⟩ :=
    (hrejected _).mp rfl
  exact ⟨h, hkind _ h⟩

end CallDocument

end QueryBatching
