/-
What selections say once their fragments are written out.

In the expansion of a selection every spread has what its fragment says in its place: the type
condition, the directives and the expanded selections of the definition.  The name is gone, so
selections that spread different names can have the same expansion.

A fragment is written out through at most so many others, since one that spreads itself could
not be written out at all.  Where no fragment does, as many as there are suffice.
-/
import Mathlib.Data.List.Perm.Subperm
import Mathlib.Logic.Relation
import QueryBatching.Proofs.Document.Renaming

namespace QueryBatching

/-- A selection with its fragments written out. -/
inductive Expansion where
  | field (head : Field) (nested? : Option (List Expansion))
  | inlineFragment (condition? : Option String) (directives : List Directive)
      (nested : List Expansion)
  /-- The directives of the spread, and then what its fragment says. -/
  | spread (directives : List Directive) (definition : Expansion)
deriving Inhabited

namespace Selection

mutual

/-- The expansion of a selection, where `named` says what the fragments say. -/
def expand (named : String → Option Expansion) : Selection → Option Expansion
  | .field head none => some (.field head none)
  | .field head (some nested) =>
    (expandAll named nested).map fun below => .field head (some below)
  | .spread name directives => (named name).map (.spread directives)
  | .inlineFragment condition? directives nested =>
    (expandAll named nested).map (.inlineFragment condition? directives)

/-- The expansions of several selections. -/
def expandAll (named : String → Option Expansion) : List Selection → Option (List Expansion)
  | [] => some []
  | selection :: rest =>
    (expand named selection).bind fun first => (expandAll named rest).map (first :: ·)

end

end Selection

namespace Fragment

/-- What the fragment of a name says, written out through at most so many fragments. -/
def meaning? (fragments : List Fragment) : (depth : Nat) → String → Option Expansion
  | 0, _ => none
  | depth + 1, name =>
    (fragments.find? fun fragment => fragment.name = name).bind fun fragment =>
      (Selection.expandAll (meaning? fragments depth) fragment.selections).map
        (.inlineFragment (some fragment.condition) fragment.directives)

end Fragment

/-- The full expansion of a selection through some fragments, if it has one. -/
def Selection.expansion? (fragments : List Fragment) (selection : Selection) : Option Expansion :=
  selection.expand (Fragment.meaning? fragments fragments.length)

/-! ### What an expansion depends on -/

namespace Selection

variable {named named' : String → Option Expansion} {rename : String → String}

theorem expandAll_map {f : Selection → Selection} {selections : List Selection}
    (h : ∀ selection ∈ selections, (f selection).expand named = selection.expand named') :
    expandAll named (selections.map f) = expandAll named' selections := by
  induction selections with
  | nil => rfl
  | cons selection rest ih =>
      rw [List.forall_mem_cons] at h
      rw [List.map_cons, expandAll, expandAll, h.1, ih h.2]

/-- Renamed spreads say the same if the fragments under their new names do. -/
theorem expand_mapSpreads {selection : Selection}
    (h : ∀ name ∈ selection.spreads, named (rename name) = named' name) :
    (selection.mapSpreads rename).expand named = selection.expand named' := by
  have hnested : ∀ nested : List Selection, (∀ inner ∈ nested,
      (∀ name ∈ inner.spreads, named (rename name) = named' name) →
        (inner.mapSpreads rename).expand named = inner.expand named') →
      (∀ name ∈ spreadsOfAll nested, named (rename name) = named' name) →
      expandAll named (mapSpreadsAll rename nested) = expandAll named' nested := by
    intro nested ih hall
    rw [mapSpreadsAll_eq]
    refine expandAll_map fun inner hinner => ih inner hinner fun name hname => hall name ?_
    rw [spreadsOfAll_eq]
    exact List.mem_flatMap.mpr ⟨inner, hinner, hname⟩
  induction selection using Selection.induction with
  | leaf head => rfl
  | field head nested ih => rw [mapSpreads, expand, expand, hnested nested ih h]
  | spread name directives =>
      rw [mapSpreads, expand, expand, h name List.mem_cons_self]
  | inlineFragment condition? directives nested ih =>
      rw [mapSpreads, expand, expand, hnested nested ih h]

theorem expandAll_mapSpreadsAll {selections : List Selection}
    (h : ∀ name ∈ spreadsOfAll selections, named (rename name) = named' name) :
    expandAll named (mapSpreadsAll rename selections) = expandAll named' selections := by
  rw [mapSpreadsAll_eq]
  refine expandAll_map fun selection hmem => expand_mapSpreads fun name hname => h name ?_
  rw [spreadsOfAll_eq]
  exact List.mem_flatMap.mpr ⟨selection, hmem, hname⟩

theorem expandAll_isSome {selections : List Selection} :
    (expandAll named selections).isSome = true ↔
      ∀ selection ∈ selections, (selection.expand named).isSome = true := by
  induction selections with
  | nil => simp [expandAll]
  | cons selection rest ih =>
      rw [expandAll, List.forall_mem_cons, ← ih]
      cases selection.expand named with
      | none => simp
      | some first => simp

/-- A selection has an expansion exactly if all fragments it spreads say something. -/
theorem expand_isSome {selection : Selection} :
    (selection.expand named).isSome = true ↔
      ∀ name ∈ selection.spreads, (named name).isSome = true := by
  have hnested : ∀ nested : List Selection, (∀ inner ∈ nested,
      ((inner.expand named).isSome = true ↔
        ∀ name ∈ inner.spreads, (named name).isSome = true)) →
      ((expandAll named nested).isSome = true ↔
        ∀ name ∈ spreadsOfAll nested, (named name).isSome = true) := by
    intro nested ih
    rw [expandAll_isSome, spreadsOfAll_eq, List.forall_mem_flatMap]
    exact forall₂_congr ih
  induction selection using Selection.induction with
  | leaf head => simp [expand, spreads]
  | field head nested ih => rw [expand, Option.isSome_map, hnested nested ih, spreads]
  | spread name directives => simp [expand, spreads]
  | inlineFragment condition? directives nested ih =>
      rw [expand, Option.isSome_map, hnested nested ih, spreads]

end Selection

/-! ### Depth -/

namespace Fragment

variable {fragments : List Fragment}

/-- The fragment of that name spreads others through at most so many fragments, itself included. -/
def SpreadsWithin (fragments : List Fragment) : (depth : Nat) → String → Prop
  | 0, _ => False
  | depth + 1, name => ∃ fragment ∈ fragments, fragment.name = name ∧
    ∀ other ∈ Selection.spreadsOfAll fragment.selections, SpreadsWithin fragments depth other

/-- The fragment of one name spreads the other. -/
def Spreads (fragments : List Fragment) (name other : String) : Prop :=
  ∃ fragment ∈ fragments, fragment.name = name ∧
    other ∈ Selection.spreadsOfAll fragment.selections

/-- No fragment spreads itself, directly or through others. -/
def Acyclic (fragments : List Fragment) : Prop :=
  ∀ name, ¬ Relation.TransGen (Spreads fragments) name name

/-- Fragments that were gone through to reach a fragment leave that many fewer below it. -/
theorem spreadsWithin_of_visited (hacyclic : Acyclic fragments)
    (hclosed : ∀ fragment ∈ fragments, ∀ name ∈ Selection.spreadsOfAll fragment.selections,
      name ∈ fragments.map Fragment.name) (depth : Nat) {visited : List String} {name : String}
    (hnodup : visited.Nodup)
    (hvisited : ∀ before ∈ visited, before ∈ fragments.map Fragment.name ∧
      Relation.TransGen (Spreads fragments) before name)
    (hname : name ∈ fragments.map Fragment.name)
    (hdepth : fragments.length ≤ visited.length + depth) :
    SpreadsWithin fragments depth name := by
  induction depth generalizing visited name with
  | zero =>
      have hnew : name ∉ visited := fun hmem => hacyclic name (hvisited name hmem).2
      have hlength := (List.subperm_of_subset (List.nodup_cons.mpr ⟨hnew, hnodup⟩)
        (List.cons_subset.mpr ⟨hname, fun before hmem => (hvisited before hmem).1⟩)).length_le
      rw [List.length_cons, List.length_map] at hlength
      omega
  | succ depth ih =>
      have hnew : name ∉ visited := fun hmem => hacyclic name (hvisited name hmem).2
      obtain ⟨fragment, hfragment, rfl⟩ := List.mem_map.mp hname
      refine ⟨fragment, hfragment, rfl, fun other hother => ?_⟩
      have hstep : Spreads fragments fragment.name other := ⟨fragment, hfragment, rfl, hother⟩
      refine @ih (fragment.name :: visited) other (List.nodup_cons.mpr ⟨hnew, hnodup⟩)
        (List.forall_mem_cons.mpr ⟨⟨hname, .single hstep⟩, fun before hmem => ?_⟩)
        (hclosed fragment hfragment other hother) ?_
      · exact ⟨(hvisited before hmem).1, (hvisited before hmem).2.tail hstep⟩
      · rw [List.length_cons]
        omega

/-- **Where no fragment spreads itself** none is deeper than there are fragments. -/
theorem spreadsWithin_of_acyclic (hacyclic : Acyclic fragments)
    (hclosed : ∀ fragment ∈ fragments, ∀ name ∈ Selection.spreadsOfAll fragment.selections,
      name ∈ fragments.map Fragment.name) {name : String}
    (hname : name ∈ fragments.map Fragment.name) :
    SpreadsWithin fragments fragments.length name :=
  spreadsWithin_of_visited hacyclic hclosed fragments.length List.nodup_nil
    (fun _ h => absurd h List.not_mem_nil) hname (by simp)

/-! ### What fragments say -/

theorem meaning?_of_find {fragment : Fragment} {name : String}
    (h : fragments.find? (fun fragment => fragment.name = name) = some fragment) (depth : Nat) :
    meaning? fragments (depth + 1) name =
      (Selection.expandAll (meaning? fragments depth) fragment.selections).map
        (.inlineFragment (some fragment.condition) fragment.directives) := by
  rw [meaning?, h, Option.bind_some]

/-- Where names are not repeated, a fragment is the one of its name. -/
theorem find?_of_mem (hnodup : (fragments.map Fragment.name).Nodup) {fragment : Fragment}
    (hmem : fragment ∈ fragments) :
    fragments.find? (fun other => other.name = fragment.name) = some fragment := by
  induction fragments with
  | nil => exact absurd hmem List.not_mem_nil
  | cons first rest ih =>
      rw [List.map_cons, List.nodup_cons] at hnodup
      rcases List.mem_cons.mp hmem with rfl | hmem
      · rw [List.find?_cons_of_pos (by simp)]
      · have hne : first.name ≠ fragment.name :=
          fun heq => hnodup.1 (heq ▸ List.mem_map_of_mem hmem)
        rw [List.find?_cons_of_neg (by simpa using hne), ih hnodup.2 hmem]

/-- A fragment of bounded depth says something. -/
theorem meaning?_isSome (hnodup : (fragments.map Fragment.name).Nodup) {depth : Nat}
    {name : String} (h : SpreadsWithin fragments depth name) :
    (meaning? fragments depth name).isSome = true := by
  induction depth generalizing name with
  | zero => exact h.elim
  | succ depth ih =>
      obtain ⟨fragment, hmem, rfl, hspreads⟩ := h
      rw [meaning?_of_find (find?_of_mem hnodup hmem), Option.isSome_map,
        Selection.expandAll_isSome]
      refine fun selection hselection => Selection.expand_isSome.mpr fun other hother => ?_
      refine ih (hspreads other ?_)
      rw [Selection.spreadsOfAll_eq]
      exact List.mem_flatMap.mpr ⟨selection, hselection, hother⟩

/-- What a fragment says is the same through more fragments than it takes. -/
theorem meaning?_mono {depth more : Nat} (hle : depth ≤ more) {name : String}
    (h : (meaning? fragments depth name).isSome = true) :
    meaning? fragments more name = meaning? fragments depth name := by
  induction depth generalizing more name with
  | zero => simp [meaning?] at h
  | succ depth ih =>
      obtain ⟨more, rfl⟩ : ∃ rest, more = rest + 1 := ⟨more - 1, by omega⟩
      cases hfind : fragments.find? fun fragment => fragment.name = name with
      | none => rw [meaning?, meaning?, hfind, Option.bind_none, Option.bind_none]
      | some fragment =>
          rw [meaning?_of_find hfind, Option.isSome_map, Selection.expandAll_isSome] at h
          rw [meaning?_of_find hfind, meaning?_of_find hfind]
          have hsame : Selection.expandAll (meaning? fragments more)
              (Selection.mapSpreadsAll id fragment.selections) =
                Selection.expandAll (meaning? fragments depth) fragment.selections := by
            refine Selection.expandAll_mapSpreadsAll fun other hother => ih (by omega) ?_
            rw [Selection.spreadsOfAll_eq] at hother
            obtain ⟨selection, hselection, hother⟩ := List.mem_flatMap.mp hother
            exact Selection.expand_isSome.mp (h selection hselection) other hother
          have hself : Selection.mapSpreadsAll id fragment.selections = fragment.selections :=
            Selection.mapSpreadsAll_eq_self fun _ _ => rfl
          rw [hself] at hsame
          rw [hsame]

end Fragment

end QueryBatching
