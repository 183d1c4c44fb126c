/-
What renaming does to a document.

Variables and spreads are renamed all over the place before calls are merged.  A renaming that
takes names to names keeps everything that can be written down that way, and the spreads of
a selection are renamed one by one and in order, while renamed variables leave them alone.
-/
import QueryBatching.Proofs.Document.Legal

namespace QueryBatching

variable {room : Nat} {rename : String → String}

theorem Selection.legal_map_of_forall {f : Selection → Selection} {selections : List Selection}
    (h : ∀ selection ∈ selections, (f selection).Legal room) :
    AllLegal room (selections.map f) := by
  rw [allLegal_iff]
  intro selection hmem
  obtain ⟨original, horiginal, rfl⟩ := List.mem_map.mp hmem
  exact h original horiginal

/-! ### Variables -/

section Variables

variable (hrename : ∀ name, IsName name → IsName (rename name))

include hrename

theorem Value.Legal.mapVariables {value : Value} (h : value.Legal room) :
    (value.mapVariables rename).Legal room := by
  induction value using Value.induction generalizing room with
  | var name =>
      rw [Value.mapVariables]
      exact hrename name h
  | list items ih =>
      rw [Legal, itemsLegal_iff] at h
      rw [Value.mapVariables, mapItems_eq, Legal, itemsLegal_iff]
      refine ⟨h.1, fun item hitem => ?_⟩
      obtain ⟨original, horiginal, rfl⟩ := List.mem_map.mp hitem
      exact ih original horiginal (h.2 original horiginal)
  | object fields ih =>
      rw [Legal, fieldsLegal_iff] at h
      rw [Value.mapVariables, mapFields_eq, Legal, fieldsLegal_iff]
      refine ⟨h.1, fun field hfield => ?_⟩
      obtain ⟨original, horiginal, rfl⟩ := List.mem_map.mp hfield
      exact ⟨(h.2 original horiginal).1, ih original horiginal (h.2 original horiginal).2⟩
  | int text => exact h
  | float text => exact h
  | string text => exact h
  | enum name => exact h
  | bool value => exact h
  | null => exact h

theorem Argument.Legal.mapVariables {argument : Argument} (h : argument.Legal room) :
    (argument.mapVariables rename).Legal room :=
  ⟨h.name, Value.Legal.mapVariables hrename h.value⟩

theorem Argument.legal_map {arguments : List Argument}
    (h : ∀ argument ∈ arguments, argument.Legal room) :
    ∀ argument ∈ arguments.map (Argument.mapVariables rename), argument.Legal room := by
  intro argument hmem
  obtain ⟨original, horiginal, rfl⟩ := List.mem_map.mp hmem
  exact (h original horiginal).mapVariables hrename

theorem Directive.Legal.mapVariables {directive : Directive} (h : directive.Legal room) :
    (directive.mapVariables rename).Legal room :=
  ⟨h.name, Argument.legal_map hrename h.arguments⟩

theorem Directive.legal_map {directives : List Directive}
    (h : ∀ directive ∈ directives, directive.Legal room) :
    ∀ directive ∈ directives.map (Directive.mapVariables rename), directive.Legal room := by
  intro directive hmem
  obtain ⟨original, horiginal, rfl⟩ := List.mem_map.mp hmem
  exact (h original horiginal).mapVariables hrename

theorem Field.Legal.mapVariables {field : Field} (h : field.Legal room) :
    (field.mapVariables rename).Legal room :=
  ⟨h.key, h.name, Argument.legal_map hrename h.arguments, Directive.legal_map hrename h.directives⟩

namespace Selection

theorem Legal.mapVariables {selection : Selection} (h : selection.Legal room) :
    (selection.mapVariables rename).Legal room := by
  induction selection using Selection.induction generalizing room with
  | leaf head => exact Field.Legal.mapVariables hrename h
  | field head nested ih =>
      obtain ⟨hhead, hroom, hne, hall⟩ := h
      rw [allLegal_iff] at hall
      rw [Selection.mapVariables, mapVariablesAll_eq]
      exact ⟨hhead.mapVariables hrename, hroom, by simpa using hne,
        legal_map_of_forall fun selection hmem => ih selection hmem (hall selection hmem)⟩
  | spread name directives => exact ⟨h.1, Directive.legal_map hrename h.2⟩
  | inlineFragment condition? directives nested ih =>
      obtain ⟨hcondition, hdirectives, hroom, hne, hall⟩ := h
      rw [allLegal_iff] at hall
      rw [Selection.mapVariables, mapVariablesAll_eq]
      exact ⟨hcondition, Directive.legal_map hrename hdirectives, hroom, by simpa using hne,
        legal_map_of_forall fun selection hmem => ih selection hmem (hall selection hmem)⟩

theorem SetLegal.mapVariables {selections : List Selection} (h : SetLegal room selections) :
    SetLegal room (mapVariablesAll rename selections) := by
  rw [mapVariablesAll_eq]
  exact ⟨h.room_pos, by simpa using h.ne_nil, allLegal_iff.mp (legal_map_of_forall
    fun selection hmem => (h.all selection hmem).mapVariables hrename)⟩

end Selection

theorem VariableDefinition.Legal.mapVariables {definition : VariableDefinition}
    (h : definition.Legal room) : (definition.mapVariables rename).Legal room :=
  ⟨hrename _ h.name, h.type, h.default, Directive.legal_map hrename h.directives⟩

theorem Operation.Legal.mapVariables {operation : Operation} (h : operation.Legal room) :
    (operation.mapVariables rename).Legal room := by
  refine ⟨h.name, fun definition hmem => ?_, Directive.legal_map hrename h.directives,
    h.selections.mapVariables hrename⟩
  obtain ⟨original, horiginal, rfl⟩ := List.mem_map.mp hmem
  exact (h.declarations original horiginal).mapVariables hrename

theorem Fragment.Legal.mapVariables {fragment : Fragment} (h : fragment.Legal room) :
    (fragment.mapVariables rename).Legal room :=
  ⟨h.name, h.condition, Directive.legal_map hrename h.directives,
    h.selections.mapVariables hrename⟩

end Variables

namespace Selection

/-- Renamed variables leave the spreads alone. -/
theorem spreads_mapVariables (rename : String → String) (selection : Selection) :
    (selection.mapVariables rename).spreads = selection.spreads := by
  induction selection using Selection.induction with
  | leaf head => rfl
  | field head nested ih =>
      rw [mapVariables, spreads, spreads, mapVariablesAll_eq, spreadsOfAll_eq, spreadsOfAll_eq,
        List.flatMap_map]
      exact List.flatMap_congr ih
  | spread name directives => rfl
  | inlineFragment condition? directives nested ih =>
      rw [mapVariables, spreads, spreads, mapVariablesAll_eq, spreadsOfAll_eq, spreadsOfAll_eq,
        List.flatMap_map]
      exact List.flatMap_congr ih

theorem spreadsOfAll_mapVariablesAll (rename : String → String) (selections : List Selection) :
    spreadsOfAll (mapVariablesAll rename selections) = spreadsOfAll selections := by
  rw [mapVariablesAll_eq, spreadsOfAll_eq, spreadsOfAll_eq, List.flatMap_map]
  exact List.flatMap_congr fun selection _ => spreads_mapVariables rename selection

/-! ### Spreads -/

/-- The spreads of a selection are renamed one by one. -/
theorem spreads_mapSpreads (rename : String → String) (selection : Selection) :
    (selection.mapSpreads rename).spreads = selection.spreads.map rename := by
  induction selection using Selection.induction with
  | leaf head => rfl
  | field head nested ih =>
      rw [mapSpreads, spreads, spreads, mapSpreadsAll_eq, spreadsOfAll_eq, spreadsOfAll_eq,
        List.flatMap_map, List.map_flatMap]
      exact List.flatMap_congr ih
  | spread name directives => rfl
  | inlineFragment condition? directives nested ih =>
      rw [mapSpreads, spreads, spreads, mapSpreadsAll_eq, spreadsOfAll_eq, spreadsOfAll_eq,
        List.flatMap_map, List.map_flatMap]
      exact List.flatMap_congr ih

theorem spreadsOfAll_mapSpreadsAll (rename : String → String) (selections : List Selection) :
    spreadsOfAll (mapSpreadsAll rename selections) = (spreadsOfAll selections).map rename := by
  rw [mapSpreadsAll_eq, spreadsOfAll_eq, spreadsOfAll_eq, List.flatMap_map, List.map_flatMap]
  exact List.flatMap_congr fun selection _ => spreads_mapSpreads rename selection

/-- A renaming that leaves the spreads of a selection alone leaves the selection alone. -/
theorem mapSpreads_eq_self {rename : String → String} {selection : Selection}
    (h : ∀ name ∈ selection.spreads, rename name = name) :
    selection.mapSpreads rename = selection := by
  have hnested : ∀ nested : List Selection, (∀ inner ∈ nested,
      (∀ name ∈ inner.spreads, rename name = name) → inner.mapSpreads rename = inner) →
      (∀ name ∈ spreadsOfAll nested, rename name = name) →
      mapSpreadsAll rename nested = nested := by
    intro nested ih hall
    rw [spreadsOfAll_eq] at hall
    rw [mapSpreadsAll_eq]
    exact (List.map_congr_left fun inner hinner => ih inner hinner fun name hname =>
      hall name (List.mem_flatMap.mpr ⟨inner, hinner, hname⟩)).trans (List.map_id nested)
  induction selection using Selection.induction with
  | leaf head => rfl
  | field head nested ih => rw [mapSpreads, hnested nested ih h]
  | spread name directives => rw [mapSpreads, h name List.mem_cons_self]
  | inlineFragment condition? directives nested ih => rw [mapSpreads, hnested nested ih h]

theorem mapSpreadsAll_eq_self {rename : String → String} {selections : List Selection}
    (h : ∀ name ∈ spreadsOfAll selections, rename name = name) :
    mapSpreadsAll rename selections = selections := by
  rw [spreadsOfAll_eq] at h
  rw [mapSpreadsAll_eq]
  exact (List.map_congr_left fun selection hmem => mapSpreads_eq_self fun name hname =>
    h name (List.mem_flatMap.mpr ⟨selection, hmem, hname⟩)).trans (List.map_id selections)

section Spreads

variable (hrename : ∀ name, IsFragmentName name → IsFragmentName (rename name))

include hrename

theorem Legal.mapSpreads {selection : Selection} (h : selection.Legal room) :
    (selection.mapSpreads rename).Legal room := by
  induction selection using Selection.induction generalizing room with
  | leaf head => exact h
  | field head nested ih =>
      obtain ⟨hhead, hroom, hne, hall⟩ := h
      rw [allLegal_iff] at hall
      rw [Selection.mapSpreads, mapSpreadsAll_eq]
      exact ⟨hhead, hroom, by simpa using hne,
        legal_map_of_forall fun selection hmem => ih selection hmem (hall selection hmem)⟩
  | spread name directives => exact ⟨hrename name h.1, h.2⟩
  | inlineFragment condition? directives nested ih =>
      obtain ⟨hcondition, hdirectives, hroom, hne, hall⟩ := h
      rw [allLegal_iff] at hall
      rw [Selection.mapSpreads, mapSpreadsAll_eq]
      exact ⟨hcondition, hdirectives, hroom, by simpa using hne,
        legal_map_of_forall fun selection hmem => ih selection hmem (hall selection hmem)⟩

theorem SetLegal.mapSpreads {selections : List Selection} (h : SetLegal room selections) :
    SetLegal room (mapSpreadsAll rename selections) := by
  rw [mapSpreadsAll_eq]
  exact ⟨h.room_pos, by simpa using h.ne_nil, allLegal_iff.mp (legal_map_of_forall
    fun selection hmem => (h.all selection hmem).mapSpreads hrename)⟩

end Spreads

end Selection

end QueryBatching
