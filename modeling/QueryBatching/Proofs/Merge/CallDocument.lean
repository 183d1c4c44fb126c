/-
Which documents make a call.

A document makes a call exactly if it has one operation, names no fragment twice and spreads
no fragment that it lacks.  That is the first thing a merge is told about its calls; the
second is that everything in them can be written down, since it was read.
-/
import QueryBatching.Merge.CallDocument
import QueryBatching.Proofs.Document.Legal

namespace QueryBatching.CallDocument

/-! ### Closed calls -/

/-- A call defines each fragment once, and all fragments it spreads. -/
structure Closed (call : CallDocument) : Prop where
  names : (call.fragments.map Fragment.name).Nodup
  operation : ∀ name ∈ Selection.spreadsOfAll call.operation.selections,
    name ∈ call.fragments.map Fragment.name
  fragments : ∀ fragment ∈ call.fragments,
    ∀ name ∈ Selection.spreadsOfAll fragment.selections,
      name ∈ call.fragments.map Fragment.name

theorem repeated?_eq_none {seen : List String} {fragments : List Fragment} :
    repeated? seen fragments = none ↔
      (∀ fragment ∈ fragments, fragment.name ∉ seen) ∧ (fragments.map Fragment.name).Nodup := by
  induction fragments generalizing seen with
  | nil => simp [repeated?]
  | cons fragment rest ih =>
      rw [repeated?]
      split
      · rename_i hseen
        simp [hseen]
      · rename_i hseen
        rw [ih, List.forall_mem_cons, List.map_cons, List.nodup_cons]
        constructor
        · rintro ⟨hrest, hnodup⟩
          refine ⟨⟨hseen, fun other hother hmem => hrest other hother (by simp [hmem])⟩, ?_, hnodup⟩
          intro hmem
          obtain ⟨other, hother, hname⟩ := List.mem_map.mp hmem
          exact hrest other hother (by simp [hname])
        · rintro ⟨⟨-, hrest⟩, hnew, hnodup⟩
          refine ⟨fun other hother hmem => ?_, hnodup⟩
          rcases List.mem_cons.mp hmem with hname | hmem
          · exact hnew (hname ▸ List.mem_map_of_mem hother)
          · exact hrest other hother hmem

theorem undefined?_eq_none {defined : List String} {selections : List Selection} :
    undefined? defined selections = none ↔
      ∀ name ∈ Selection.spreadsOfAll selections, name ∈ defined := by
  simp [undefined?]

theorem unclosed?_eq_none {operation : Operation} {fragments : List Fragment} :
    unclosed? operation fragments = none ↔
      (∀ name ∈ Selection.spreadsOfAll operation.selections,
        name ∈ fragments.map Fragment.name) ∧
      ∀ fragment ∈ fragments, ∀ name ∈ Selection.spreadsOfAll fragment.selections,
        name ∈ fragments.map Fragment.name := by
  unfold unclosed?
  dsimp only
  rw [List.findSome?_eq_none_iff]
  simp only [List.forall_mem_cons, List.forall_mem_map, Option.map_eq_none_iff,
    undefined?_eq_none]

/-- **A document makes a call exactly if it is closed and has one operation.** -/
theorem ofDocument_eq_ok {index : Nat} {document : Document} {call : CallDocument} :
    ofDocument index document = .ok call ↔
      call.index = index ∧ document.operations = [call.operation] ∧
        document.fragments = call.fragments ∧ call.Closed := by
  unfold ofDocument
  split
  · rename_i operation hoperations
    constructor
    · intro h
      split at h
      · simp at h
      · rename_i hrepeated
        split at h
        · simp at h
        · rename_i hunclosed
          obtain rfl := Except.ok.inj h
          obtain ⟨-, hnames⟩ := repeated?_eq_none.mp hrepeated
          obtain ⟨hoperation, hfragments⟩ := unclosed?_eq_none.mp hunclosed
          exact ⟨rfl, hoperations, rfl, hnames, hoperation, hfragments⟩
    · rintro ⟨rfl, hsame, hfragments, hclosed⟩
      obtain rfl : operation = call.operation := by
        rw [hoperations] at hsame
        exact (List.cons.inj hsame).1
      rw [hfragments, repeated?_eq_none.mpr ⟨fun _ _ => List.not_mem_nil, hclosed.names⟩]
      dsimp only
      rw [unclosed?_eq_none.mpr ⟨hclosed.operation, hclosed.fragments⟩]
  · rename_i hnot
    constructor
    · intro h
      simp at h
    · rintro ⟨-, hone, -⟩
      exact absurd hone (hnot call.operation)

/-! ### Calls that were read -/

/-- The call was read from a source text, under its own number. -/
def IsParsed (call : CallDocument) : Prop := ∃ source, parse call.index source = .ok call

theorem index_of_parse {index : Nat} {source : String} {call : CallDocument}
    (h : parse index source = .ok call) : call.index = index := by
  unfold parse at h
  split at h
  · simp at h
  · rename_i document hdocument
    cases hcall : ofDocument index document with
    | error error => simp [hcall, Except.mapError] at h
    | ok found =>
        simp only [hcall, Except.mapError, Except.ok.injEq] at h
        subst h
        exact (ofDocument_eq_ok.mp hcall).1

/-- A call whose operation and fragments can be written down. -/
structure Legal (room : Nat) (call : CallDocument) : Prop where
  operation : call.operation.Legal room
  fragments : ∀ fragment ∈ call.fragments, fragment.Legal room

/-- **A call that was read is closed and legal.** -/
theorem closed_and_legal_of_parse {index : Nat} {source : String} {call : CallDocument}
    (h : parse index source = .ok call) : call.Closed ∧ call.Legal Grammar.nestingLimit := by
  unfold parse at h
  split at h
  · simp at h
  · rename_i document hdocument
    have hlegal := Document.legal_of_parse hdocument
    cases hcall : ofDocument index document with
    | error error => simp [hcall, Except.mapError] at h
    | ok found =>
        simp only [hcall, Except.mapError, Except.ok.injEq] at h
        subst h
        obtain ⟨-, hoperations, hfragments, hclosed⟩ := ofDocument_eq_ok.mp hcall
        refine ⟨hclosed, ⟨?_, fun fragment hmem => ?_⟩⟩
        · have hmem : found.operation ∈ document.operations := by simp [hoperations]
          obtain ⟨definition, hdefinition, hfound⟩ := List.mem_filterMap.mp hmem
          cases definition with
          | operation operation => exact Option.some.inj hfound ▸ hlegal.all _ hdefinition
          | fragment fragment => simp [Definition.operation?] at hfound
        · rw [← hfragments] at hmem
          obtain ⟨definition, hdefinition, hfound⟩ := List.mem_filterMap.mp hmem
          cases definition with
          | operation operation => simp [Definition.fragment?] at hfound
          | fragment fragment => exact Option.some.inj hfound ▸ hlegal.all _ hdefinition

theorem IsParsed.closed {call : CallDocument} (h : call.IsParsed) : call.Closed := by
  obtain ⟨source, hsource⟩ := h
  exact (closed_and_legal_of_parse hsource).1

theorem IsParsed.legal {call : CallDocument} (h : call.IsParsed) :
    call.Legal Grammar.nestingLimit := by
  obtain ⟨source, hsource⟩ := h
  exact (closed_and_legal_of_parse hsource).2

end QueryBatching.CallDocument
