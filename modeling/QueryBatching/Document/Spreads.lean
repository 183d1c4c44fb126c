/-
The fragment spreads of a document: which fragments a selection set asks for, and the
same selections with the spreads pointed elsewhere.

Both look through fields and inline fragments at any depth, and neither looks into the
fragments that are spread.
-/
import QueryBatching.Document.Basic

namespace QueryBatching.Selection

mutual

/-- The names of the fragments a selection spreads, in source order. -/
def spreads : Selection → List String
  | .field _ none => []
  | .field _ (some nested) => spreadsOfAll nested
  | .spread name _ => [name]
  | .inlineFragment _ _ nested => spreadsOfAll nested

/-- The names of the fragments several selections spread, in source order. -/
def spreadsOfAll : List Selection → List String
  | [] => []
  | selection :: rest => spreads selection ++ spreadsOfAll rest

end

mutual

/-- The selection with every spread renamed. -/
def mapSpreads (rename : String → String) : Selection → Selection
  | .field head none => .field head none
  | .field head (some nested) => .field head (some (mapSpreadsAll rename nested))
  | .spread name directives => .spread (rename name) directives
  | .inlineFragment condition? directives nested =>
    .inlineFragment condition? directives (mapSpreadsAll rename nested)

/-- The selections with every spread renamed. -/
def mapSpreadsAll (rename : String → String) : List Selection → List Selection
  | [] => []
  | selection :: rest => mapSpreads rename selection :: mapSpreadsAll rename rest

end

end QueryBatching.Selection
