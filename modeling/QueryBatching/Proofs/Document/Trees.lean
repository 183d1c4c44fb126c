/-
Induction over values and selections.

A value holds lists of values and a selection holds selection sets, so a function on them is
two or three functions that call each other, one for the tree and one for the lists in it.
To prove something about such a function it is enough to have it for the trees: here are the
two principles of induction that say so, where everything in a list may be assumed, and the
equations that give each of the functions on lists in terms of the one on trees.
-/
import QueryBatching.Document.Canonical
import QueryBatching.Document.Spreads
import QueryBatching.Document.Variables

namespace QueryBatching

/-! ### Values -/

namespace Value

/-- Induction over values: what holds of all items of a list may be assumed for the list. -/
theorem induction {motive : Value → Prop} (var : ∀ name, motive (.var name))
    (int : ∀ text, motive (.int text)) (float : ∀ text, motive (.float text))
    (string : ∀ text, motive (.string text)) (enum : ∀ name, motive (.enum name))
    (bool : ∀ value, motive (.bool value)) (null : motive .null)
    (list : ∀ items, (∀ item ∈ items, motive item) → motive (.list items))
    (object : ∀ fields, (∀ field ∈ fields, motive field.2) → motive (.object fields)) :
    ∀ value, motive value
  | .var name => var name
  | .int text => int text
  | .float text => float text
  | .string text => string text
  | .enum name => enum name
  | .bool value => bool value
  | .null => null
  | .list items =>
    list items fun item _ => induction var int float string enum bool null list object item
  | .object fields =>
    object fields fun field hfield =>
      have : sizeOf field.2 < 1 + sizeOf fields := by
        have := List.sizeOf_lt_of_mem hfield
        obtain ⟨key, value⟩ := field
        simp only [Prod.mk.sizeOf_spec] at this ⊢
        omega
      induction var int float string enum bool null list object field.2

theorem itemTexts_eq (items : List Value) : itemTexts items = items.map text := by
  induction items with
  | nil => rfl
  | cons item rest ih => rw [itemTexts, ih, List.map_cons]

theorem fieldTexts_eq (fields : List (String × Value)) :
    fieldTexts fields = fields.map fun field => field.1 ++ ": " ++ field.2.text := by
  induction fields with
  | nil => rfl
  | cons field rest ih => rw [fieldTexts, ih, List.map_cons]

theorem mapItems_eq (rename : String → String) (items : List Value) :
    mapItems rename items = items.map (mapVariables rename) := by
  induction items with
  | nil => rfl
  | cons item rest ih => rw [mapItems, ih, List.map_cons]

theorem mapFields_eq (rename : String → String) (fields : List (String × Value)) :
    mapFields rename fields = fields.map fun field => (field.1, field.2.mapVariables rename) := by
  induction fields with
  | nil => rfl
  | cons field rest ih => rw [mapFields, ih, List.map_cons]

end Value

/-! ### Selections -/

namespace Selection

/-- Induction over selections: what holds of a selection set may be assumed for what has it. -/
theorem induction {motive : Selection → Prop} (leaf : ∀ head, motive (.field head none))
    (field : ∀ head nested, (∀ selection ∈ nested, motive selection) →
      motive (.field head (some nested)))
    (spread : ∀ name directives, motive (.spread name directives))
    (inlineFragment : ∀ condition? directives nested, (∀ selection ∈ nested, motive selection) →
      motive (.inlineFragment condition? directives nested)) :
    ∀ selection, motive selection
  | .field head none => leaf head
  | .field head (some nested) =>
    field head nested fun selection _ => induction leaf field spread inlineFragment selection
  | .spread name directives => spread name directives
  | .inlineFragment condition? directives nested =>
    inlineFragment condition? directives nested fun selection _ =>
      induction leaf field spread inlineFragment selection

theorem texts_eq (selections : List Selection) : texts selections = selections.map text := by
  induction selections with
  | nil => rfl
  | cons selection rest ih => rw [texts, ih, List.map_cons]

theorem spreadsOfAll_eq (selections : List Selection) :
    spreadsOfAll selections = selections.flatMap spreads := by
  induction selections with
  | nil => rfl
  | cons selection rest ih => rw [spreadsOfAll, ih, List.flatMap_cons]

theorem mapSpreadsAll_eq (rename : String → String) (selections : List Selection) :
    mapSpreadsAll rename selections = selections.map (mapSpreads rename) := by
  induction selections with
  | nil => rfl
  | cons selection rest ih => rw [mapSpreadsAll, ih, List.map_cons]

theorem mapVariablesAll_eq (rename : String → String) (selections : List Selection) :
    mapVariablesAll rename selections = selections.map (mapVariables rename) := by
  induction selections with
  | nil => rfl
  | cons selection rest ih => rw [mapVariablesAll, ih, List.map_cons]

end Selection

end QueryBatching
