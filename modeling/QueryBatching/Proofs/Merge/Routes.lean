/-
Following a call through a merge.

All selection sets that a call contributes to one level stand at one path of the call, and the
fields of the call below that path are placed by this level and by nothing else.  So where the
call's fields went can be read off level by level: a field with selections below it has one
slot, and whatever the call has below the field is placed by the merge below that slot.

`Merges.descend` is that step.  It is what an induction over a merge needs that follows one
call down, and looks things up in the mapping of the whole merge on its way.
-/
import QueryBatching.Proofs.Merge.Mapping
import QueryBatching.Proofs.Merge.Merged

namespace QueryBatching

/-! ### Paths below paths -/

namespace FieldPath

@[simp] theorem keys_child (path : FieldPath) (key : String) :
    (path.child key).keys = path.keys ++ [key] := rfl

theorem child_injective (path : FieldPath) : Function.Injective path.child := by
  intro key other heq
  simpa [child] using heq

/-- Whether a path leads on from another. -/
def isBelow (path own : FieldPath) : Bool := path.keys <+: own.keys ∧ own ≠ path

theorem isBelow_iff {path own : FieldPath} :
    path.isBelow own = true ↔ ∃ key, (path.child key).keys <+: own.keys := by
  rw [isBelow, decide_eq_true_eq]
  constructor
  · rintro ⟨⟨rest, hrest⟩, hne⟩
    cases rest with
    | nil =>
        rw [List.append_nil] at hrest
        exact absurd (congrArg FieldPath.mk hrest.symm) hne
    | cons key rest => exact ⟨key, rest, by simp [← hrest]⟩
  · rintro ⟨key, rest, hrest⟩
    refine ⟨⟨key :: rest, by simp [← hrest]⟩, fun heq => ?_⟩
    have hlength := congrArg List.length hrest
    simp [heq] at hlength

theorem isBelow_of_child {path own : FieldPath} {key : String}
    (h : (path.child key).isBelow own = true) : path.isBelow own = true := by
  obtain ⟨next, hnext⟩ := isBelow_iff.mp h
  exact isBelow_iff.mpr ⟨key, (List.prefix_append _ _).trans hnext⟩

/-- A path leads on from another through one key. -/
theorem key_unique {path own : FieldPath} {key other : String}
    (h : (path.child key).keys <+: own.keys) (h' : (path.child other).keys <+: own.keys) :
    key = other := by
  have hkeys := (List.prefix_of_prefix_length_le h h' (by simp)).eq_of_length (by simp)
  simpa using hkeys

theorem parent?_eq_some {path own : FieldPath} :
    own.parent? = some path ↔ ∃ key, own = path.child key := by
  constructor
  · intro h
    unfold parent? at h
    split at h
    · simp at h
    · rename_i hne
      obtain rfl := Option.some.inj h
      refine ⟨own.keys.getLast hne, ?_⟩
      rw [child, List.dropLast_append_getLast hne]
  · rintro ⟨key, rfl⟩
    exact parent?_child path key

end FieldPath

/-- The call of a placement. -/
def Placement.call : Placement → Nat
  | .field call _ _ => call
  | .fragments call _ => call

/-- Whether a placement is of a field that a call has somewhere below a path. -/
def Placement.isBelow (call : Nat) (path : FieldPath) (placement : Placement) : Bool :=
  (placement.own? call).any path.isBelow

theorem Placement.isBelow_iff {call : Nat} {path : FieldPath} {placement : Placement} :
    placement.isBelow call path = true ↔
      ∃ own merged, placement = .field call own merged ∧ path.isBelow own = true := by
  rw [isBelow, Option.any_eq_true]
  constructor
  · rintro ⟨own, hown, hbelow⟩
    obtain ⟨merged, rfl⟩ := Placement.own?_eq_some.mp hown
    exact ⟨own, merged, rfl, hbelow⟩
  · rintro ⟨own, merged, rfl, hbelow⟩
    exact ⟨own, Placement.own?_eq_some.mpr ⟨merged, rfl⟩, hbelow⟩

/-- Lists with the same placements below a path have the same below the paths that lead on. -/
theorem Placement.filter_isBelow_child {all some : List Placement} {call : Nat} {path : FieldPath}
    (h : all.filter (isBelow call path) = some.filter (isBelow call path)) (key : String) :
    all.filter (isBelow call (path.child key)) = some.filter (isBelow call (path.child key)) := by
  have hboth : ∀ placements : List Placement, placements.filter (isBelow call (path.child key)) =
      (placements.filter (isBelow call path)).filter (isBelow call (path.child key)) := by
    intro placements
    rw [List.filter_filter]
    refine List.filter_congr fun placement _ => ?_
    cases hchild : placement.isBelow call (path.child key) with
    | false => rfl
    | true =>
        obtain ⟨own, merged, rfl, hown⟩ := isBelow_iff.mp hchild
        rw [isBelow_iff.mpr ⟨own, merged, rfl, FieldPath.isBelow_of_child hown⟩]
        rfl
  rw [hboth all, hboth some, h]

/-- Placements that are the same below a path place the same there. -/
theorem Placement.mem_iff_of_filter_isBelow {all some : List Placement} {call : Nat}
    {path own place : FieldPath}
    (h : all.filter (isBelow call path) = some.filter (isBelow call path))
    (hbelow : path.isBelow own = true) :
    .field call own place ∈ all ↔ .field call own place ∈ some := by
  have hplacement : (Placement.field call own place).isBelow call path = true :=
    isBelow_iff.mpr ⟨own, place, rfl, hbelow⟩
  have hfilter := congrArg (.field call own place ∈ ·) h
  simpa [List.mem_filter, hplacement] using hfilter

/-- Placements that are the same below a path have the same fields there and further down. -/
theorem PathMapping.ownChildren_congr {all some : List Placement} {call : Nat}
    {path parent : FieldPath}
    (h : all.filter (Placement.isBelow call path) = some.filter (Placement.isBelow call path))
    (hfront : path.keys <+: parent.keys) :
    ownChildren call parent all = ownChildren call parent some := by
  have hfilter : ∀ placements : List Placement, ownChildren call parent placements =
      ownChildren call parent (placements.filter (Placement.isBelow call path)) := by
    intro placements
    unfold ownChildren
    rw [List.filterMap_filter]
    refine List.filterMap_congr fun placement _ => ?_
    split
    · rfl
    · rename_i hnot
      rw [Option.eq_none_iff_forall_ne_some]
      intro own hown
      obtain ⟨hparent, place, rfl⟩ := Placement.child?_eq_some.mp hown
      obtain ⟨key, rfl⟩ := FieldPath.parent?_eq_some.mp hparent
      obtain ⟨rest, hrest⟩ := hfront
      refine hnot (Placement.isBelow_iff.mpr ⟨_, _, rfl, ?_⟩)
      rw [FieldPath.isBelow, decide_eq_true_eq]
      refine ⟨⟨rest ++ [key], by simp [← hrest]⟩, fun heq => ?_⟩
      have hlength := congrArg (fun path => path.keys.length) heq
      simp [← hrest] at hlength
  rw [hfilter all, h, ← hfilter]

/-! ### One thing under each key -/

namespace Level

variable {merged : FieldPath} {occurrences : List Occurrence} {level : Level}

/-- A call selects the same under the same response key. -/
theorem Holds.signature_eq (h : Holds merged occurrences level) {a b : Occurrence}
    (ha : a ∈ occurrences) (hb : b ∈ occurrences) (hcall : a.call = b.call) {head other : Field}
    {nested? nested'? : Option (List Selection)} (hhead : a.selection = .field head nested?)
    (hother : b.selection = .field other nested'?) (hkey : head.responseKey = other.responseKey) :
    head.signature = other.signature := by
  have hfirst := h.selected a ha head nested? hhead
  rw [hcall, hkey, h.selected b hb other nested'? hother] at hfirst
  exact (Option.some.inj hfirst).symm

/-- A signature has one slot. -/
theorem Holds.slot_eq (h : Holds merged occurrences level) {slot other : Slot}
    {signature : FieldSignature} (hslot : slot ∈ level.slots) (hother : other ∈ level.slots)
    (hsignature : slot.signature? = some signature)
    (hsignature' : other.signature? = some signature) : slot = other :=
  Outcomes.eq_of_nodup_filterMap h.signatures hslot hother hsignature hsignature'

/-- A response key has one slot. -/
theorem Holds.slot_eq_of_key (h : Holds merged occurrences level) {slot other : Slot}
    {key : String} (hslot : slot ∈ level.slots) (hother : other ∈ level.slots)
    (hkey : slot.key? = some key) (hkey' : other.key? = some key) : slot = other :=
  Outcomes.eq_of_nodup_filterMap h.keys hslot hother hkey hkey'

/-- **A slot stands alone**: of all the others, none has its signature or its key. -/
theorem Holds.exists_alone (h : Holds merged occurrences level) {signature : FieldSignature}
    {target : Field} {below? : Option (List Contribution)}
    (hslot : .field signature target below? ∈ level.slots)
    {R : Slot → MergedSelections → Prop} {parts : List MergedSelections}
    (hparts : List.Forall₂ R level.slots parts) :
    ∃ front part back others, parts = front ++ part :: back ∧
      R (.field signature target below?) part ∧ List.Forall₂ R others (front ++ back) ∧
      ∀ other ∈ others, other ∈ level.slots ∧ other.signature? ≠ some signature ∧
        other.key? ≠ some target.responseKey := by
  obtain ⟨before, part, after, front, back, hslots, rfl, hfront, hpart, hback⟩ :=
    Outcomes.exists_split hparts hslot
  have hsignatures := h.signatures
  have hkeys := h.keys
  rw [hslots] at hsignatures
  rw [takenKeys, hslots] at hkeys
  refine ⟨front, part, back, before ++ after, rfl, hpart, List.rel_append hfront hback,
    fun other hmem => ⟨?_, Outcomes.ne_of_nodup_filterMap hsignatures rfl other hmem,
      Outcomes.ne_of_nodup_filterMap hkeys rfl other hmem⟩⟩
  rw [hslots]
  rcases List.mem_append.mp hmem with hmem | hmem
  · exact List.mem_append_left _ hmem
  · exact List.mem_append_right _ (List.mem_cons_of_mem _ hmem)

end Level

namespace MergedSelections

/-- All selection sets that a call contributes stand at one path of the call. -/
def AtPath (call : Nat) (path : FieldPath) (contributions : List Contribution) : Prop :=
  ∀ contribution ∈ contributions, contribution.call = call → contribution.path = path

variable {merged path : FieldPath} {contributions : List Contribution} {call : Nat}

theorem AtPath.below (h : AtPath call path contributions) {signature : FieldSignature}
    {below : List Contribution}
    (hbelow : contributionsBelow signature (contributions.flatMap Contribution.occurrences) =
      some below) : AtPath call (path.child signature.responseKey) below := by
  intro nested hmem hcall
  obtain ⟨contribution, hin, head, selections, -, rfl, rfl⟩ := mem_contributionsBelow hbelow hmem
  show contribution.path.child _ = _
  rw [h contribution hin hcall]
  rfl

/-! ### Where a merge places things -/

theorem Part.mono {P Q : FieldPath → List Contribution → MergedSelections → Prop} {slot : Slot}
    {part : MergedSelections} (h : Part P merged slot part)
    (hle : ∀ {path below nested}, P path below nested → Q path below nested) :
    Part Q merged slot part := by
  cases h with
  | fragment selection => exact .fragment selection
  | leaf signature head => exact .leaf signature head
  | field signature head below nested hnested =>
      exact .field signature head below nested (hle hnested)

/-- What the parts place is placed by the merges below their slots. -/
theorem exists_nested_of_placed {P : FieldPath → List Contribution → MergedSelections → Prop}
    {slots : List Slot} {parts : List MergedSelections}
    (hparts : List.Forall₂ (Part P merged) slots parts) {placement : Placement}
    (hmem : placement ∈ parts.flatMap placements) :
    ∃ signature head below nested, .field signature head (some below) ∈ slots ∧
      P (merged.child head.responseKey) below nested ∧ placement ∈ nested.placements := by
  obtain ⟨part, hpart, hplaced⟩ := List.mem_flatMap.mp hmem
  obtain ⟨slot, hslot, hbecomes⟩ := Outcomes.exists_left hparts hpart
  cases hbecomes with
  | fragment selection => exact absurd hplaced List.not_mem_nil
  | leaf signature head => exact absurd hplaced List.not_mem_nil
  | field signature head below nested hnested =>
      exact ⟨signature, head, below, nested, hslot, hnested, hplaced⟩

/-- The call selects a field of that signature. -/
def HasField (call : Nat) (contributions : List Contribution) (signature : FieldSignature) :
    Prop :=
  ∃ contribution ∈ contributions, contribution.call = call ∧
    ∃ head nested?, .field head nested? ∈ contribution.selections ∧ head.signature = signature

/-- What is placed for a call is below a field that the call selects. -/
def PlacesOwn (call : Nat) (contributions : List Contribution) (result : MergedSelections) :
    Prop :=
  ∀ path, AtPath call path contributions →
    ∀ {own target}, .field call own target ∈ result.placements →
      ∃ signature, HasField call contributions signature ∧
        (path.child signature.responseKey).keys <+: own.keys

theorem HasField.of_below {signature inner : FieldSignature} {below : List Contribution}
    (hbelow : contributionsBelow signature (contributions.flatMap Contribution.occurrences) =
      some below) (h : HasField call below inner) : HasField call contributions signature := by
  obtain ⟨nested, hmem, hcall, -⟩ := h
  obtain ⟨contribution, hin, head, selections, hselection, hsignature, rfl⟩ :=
    mem_contributionsBelow hbelow hmem
  exact ⟨contribution, hin, hcall, head, some selections, hselection, hsignature⟩

/-- A call has one field under each response key. -/
theorem HasField.unique {level : Level}
    (hholds : Level.Holds merged (contributions.flatMap Contribution.occurrences) level)
    {signature other : FieldSignature} (h : HasField call contributions signature)
    (h' : HasField call contributions other) (hkey : signature.responseKey = other.responseKey) :
    signature = other := by
  obtain ⟨contribution, hin, hcall, head, nested?, hselection, rfl⟩ := h
  obtain ⟨contribution', hin', hcall', head', nested'?, hselection', rfl⟩ := h'
  exact hholds.signature_eq (mem_occurrences.mpr ⟨contribution, hin, _, hselection, rfl⟩)
    (mem_occurrences.mpr ⟨contribution', hin', _, hselection', rfl⟩) (hcall.trans hcall'.symm) rfl
    rfl hkey

/-- What a part places for a call is below the field of its slot, and not at the field itself. -/
theorem Part.placed {level : Level}
    (hholds : Level.Holds merged (contributions.flatMap Contribution.occurrences) level)
    {slot : Slot} (hslot : slot ∈ level.slots) {part : MergedSelections}
    (h : Part (fun _ below nested => PlacesOwn call below nested) merged slot part)
    (hpath : AtPath call path contributions) {own target : FieldPath}
    (hmem : .field call own target ∈ part.placements) :
    ∃ signature, slot.signature? = some signature ∧ HasField call contributions signature ∧
      (path.child signature.responseKey).isBelow own = true := by
  cases h with
  | fragment selection => exact absurd hmem List.not_mem_nil
  | leaf signature head => exact absurd hmem List.not_mem_nil
  | field signature head below nested hnested =>
      have hbelow := (hholds.below hslot).symm
      obtain ⟨inner, hinner, hkeys⟩ := hnested _ (hpath.below hbelow) hmem
      exact ⟨signature, rfl, hinner.of_below hbelow, FieldPath.isBelow_iff.mpr ⟨_, hkeys⟩⟩

/-- What a level places for a call is one of the call's fields. -/
theorem exists_of_placed {level : Level}
    (hholds : Level.Holds merged (contributions.flatMap Contribution.occurrences) level)
    (hpath : AtPath call path contributions) {own place : FieldPath}
    (hmem : .field call own place ∈ level.placements) :
    ∃ signature target below?, HasField call contributions signature ∧
      .field signature target below? ∈ level.slots ∧ own = path.child signature.responseKey ∧
      place = merged.child target.responseKey := by
  obtain ⟨occurrence, hoccurrence, hplaced⟩ := Outcomes.exists_left hholds.placements hmem
  obtain ⟨contribution, hin, selection, hselection, rfl⟩ := mem_occurrences.mp hoccurrence
  unfold Level.Placed at hplaced
  split at hplaced
  · rename_i head nested? hfield
    obtain ⟨target, below?, hslot, heq⟩ := hplaced
    injection heq with hcall hown hplace
    obtain rfl : selection = .field head nested? := hfield
    refine ⟨head.signature, target, below?,
      ⟨contribution, hin, hcall.symm, head, nested?, hselection, rfl⟩, hslot, ?_, hplace⟩
    rw [hown, hpath contribution hin hcall.symm]
    rfl
  · obtain ⟨-, heq⟩ := hplaced
    simp at heq

theorem Merges.placesOwn {result : MergedSelections} (h : Merges merged contributions result)
    (call : Nat) : PlacesOwn call contributions result := by
  refine Merges.induction (P := fun _ contributions result => PlacesOwn call contributions result)
    ?_ h
  intro merged contributions level parts aliased hholds hparts path hpath own place hmem
  rcases List.mem_append.mp hmem with hmem | hmem
  · obtain ⟨signature, -, -, hfield, -, rfl, -⟩ := exists_of_placed hholds hpath hmem
    exact ⟨signature, hfield, List.prefix_rfl⟩
  · obtain ⟨part, hpart, hmem⟩ := List.mem_flatMap.mp hmem
    obtain ⟨slot, hslot, hbecomes⟩ := Outcomes.exists_left hparts hpart
    obtain ⟨signature, -, hfield, hbelow⟩ :=
      (hbecomes.mono And.right).placed hholds hslot hpath hmem
    obtain ⟨key, hkey⟩ := FieldPath.isBelow_iff.mp hbelow
    exact ⟨signature, hfield, (List.prefix_append _ _).trans hkey⟩

/-- Whatever is placed is placed for a call that contributes. -/
theorem Merges.exists_call {merged : FieldPath} {contributions : List Contribution}
    {result : MergedSelections} (h : Merges merged contributions result) {placement : Placement}
    (hmem : placement ∈ result.placements) :
    ∃ contribution ∈ contributions, contribution.call = placement.call := by
  refine Merges.induction (P := fun _ contributions result => ∀ placement ∈ result.placements,
    ∃ contribution ∈ contributions, contribution.call = placement.call) ?_ h placement hmem
  intro merged contributions level parts aliased hholds hparts placement hmem
  rcases List.mem_append.mp hmem with hmem | hmem
  · obtain ⟨occurrence, hoccurrence, hplaced⟩ := Outcomes.exists_left hholds.placements hmem
    obtain ⟨contribution, hin, selection, -, rfl⟩ := mem_occurrences.mp hoccurrence
    refine ⟨contribution, hin, ?_⟩
    unfold Level.Placed at hplaced
    split at hplaced
    · obtain ⟨target, below?, -, rfl⟩ := hplaced
      rfl
    · obtain ⟨-, rfl⟩ := hplaced
      rfl
  · obtain ⟨signature, head, below, nested, hslot, hnested, hplaced⟩ :=
      exists_nested_of_placed hparts hmem
    obtain ⟨inner, hinner, hcall⟩ := hnested.2 placement hplaced
    obtain ⟨contribution, hin, _, _, -, -, rfl⟩ :=
      mem_contributionsBelow (hholds.below hslot).symm hinner
    exact ⟨contribution, hin, hcall⟩

/-! ### One step down -/

section Step

variable {P : FieldPath → List Contribution → MergedSelections → Prop} {level : Level}
  {parts : List MergedSelections}
  (hholds : Level.Holds merged (contributions.flatMap Contribution.occurrences) level)
  (hparts : List.Forall₂
    (Part (fun path below nested => Merges path below nested ∧ P path below nested) merged)
    level.slots parts)
  (hpath : AtPath call path contributions)

include hholds hparts hpath

/-- What is placed below a slot is more than one key below the path. -/
theorem parent?_ne_of_mem {own place : FieldPath}
    (hmem : .field call own place ∈ parts.flatMap placements) : own.parent? ≠ some path := by
  intro hparent
  obtain ⟨part, hpart, hmem⟩ := List.mem_flatMap.mp hmem
  obtain ⟨slot, hslot, hbecomes⟩ := Outcomes.exists_left hparts hpart
  obtain ⟨signature, -, -, hbelow⟩ :=
    (hbecomes.mono fun h => h.1.placesOwn call).placed hholds hslot hpath hmem
  obtain ⟨key, rfl⟩ := FieldPath.parent?_eq_some.mp hparent
  obtain ⟨next, hnext⟩ := FieldPath.isBelow_iff.mp hbelow
  have hlength := hnext.length_le
  simp at hlength

/-- Where the fields of a signature are placed. -/
theorem place_eq {signature : FieldSignature} (hfield : HasField call contributions signature)
    {target : Field} {below? : Option (List Contribution)}
    (hslot : .field signature target below? ∈ level.slots) {place : FieldPath}
    (hmem : .field call (path.child signature.responseKey) place ∈
      level.placements ++ parts.flatMap placements) :
    place = merged.child target.responseKey := by
  have hmem := (List.mem_append.mp hmem).resolve_right fun hmem =>
    parent?_ne_of_mem hholds hparts hpath hmem (FieldPath.parent?_child _ _)
  obtain ⟨other, target', below'?, hother, hslot', hown, rfl⟩ :=
    exists_of_placed hholds hpath hmem
  have hkey : signature.responseKey = other.responseKey := by
    simpa [FieldPath.child] using hown
  obtain rfl := hfield.unique hholds hother hkey
  have hsame := hholds.slot_eq hslot hslot' rfl rfl
  injection hsame with _ htarget
  rw [htarget]

/-- The fields of a signature are placed where its slot is, and nowhere else. -/
theorem placed_iff {signature : FieldSignature} (hfield : HasField call contributions signature)
    {target : Field} {below? : Option (List Contribution)}
    (hslot : .field signature target below? ∈ level.slots) {place : FieldPath} :
    .field call (path.child signature.responseKey) place ∈
        level.placements ++ parts.flatMap placements ↔
      place = merged.child target.responseKey := by
  refine ⟨place_eq hholds hparts hpath hfield hslot, ?_⟩
  rintro rfl
  obtain ⟨contribution, hin, rfl, head, nested?, hselection, rfl⟩ := hfield
  obtain ⟨placement, hplacement, hplaced⟩ := Outcomes.exists_right hholds.placements
    (mem_occurrences.mpr ⟨contribution, hin, _, hselection, rfl⟩)
  obtain ⟨other, below'?, hslot', rfl⟩ := hplaced
  obtain ⟨-, rfl, -⟩ := Slot.field.inj (hholds.slot_eq hslot hslot' rfl rfl)
  refine List.mem_append_left _ ?_
  rw [← hpath contribution hin rfl]
  exact hplacement

/-- **A field is found at the place of its slot** in any mapping that knows the same below the
path. -/
theorem get?_field {all : List Placement}
    (hall : all.filter (Placement.isBelow call path) =
      (level.placements ++ parts.flatMap placements).filter (Placement.isBelow call path))
    {signature : FieldSignature} (hfield : HasField call contributions signature)
    {target : Field} {below? : Option (List Contribution)}
    (hslot : .field signature target below? ∈ level.slots) :
    (PathMapping.ofPlacements all).get? call (path.child signature.responseKey) =
      some (merged.child target.responseKey) := by
  have hmem : ∀ place, .field call (path.child signature.responseKey) place ∈ all ↔
      place = merged.child target.responseKey := by
    intro place
    rw [← placed_iff hholds hparts hpath hfield hslot]
    exact Placement.mem_iff_of_filter_isBelow hall
      (FieldPath.isBelow_iff.mpr ⟨_, List.prefix_rfl⟩)
  exact PathMapping.get?_ofPlacements (by simp) ((hmem _).mpr rfl) fun place => (hmem place).mp

omit hparts in
/-- A level places nothing below its fields. -/
theorem filter_level_eq_nil (key : String) :
    level.placements.filter (Placement.isBelow call (path.child key)) = [] := by
  rw [List.filter_eq_nil_iff]
  intro placement hmem hbelow
  obtain ⟨own, place, rfl, hown⟩ := Placement.isBelow_iff.mp hbelow
  obtain ⟨signature, -, -, -, -, rfl, -⟩ := exists_of_placed hholds hpath hmem
  obtain ⟨_, hkey⟩ := FieldPath.isBelow_iff.mp hown
  have hlength := hkey.length_le
  simp at hlength

omit hparts in
/-- Other slots place nothing below a field of the call. -/
theorem filter_parts_eq_nil {slots : List Slot} {others : List MergedSelections}
    (hothers : List.Forall₂
      (Part (fun path below nested => Merges path below nested ∧ P path below nested) merged)
      slots others) {signature : FieldSignature} (hfield : HasField call contributions signature)
    (hslots : ∀ slot ∈ slots, slot ∈ level.slots ∧ slot.signature? ≠ some signature) :
    (others.flatMap placements).filter
      (Placement.isBelow call (path.child signature.responseKey)) = [] := by
  rw [List.filter_eq_nil_iff]
  intro placement hmem hbelow
  obtain ⟨own, place, rfl, hown⟩ := Placement.isBelow_iff.mp hbelow
  obtain ⟨part, hpart, hplaced⟩ := List.mem_flatMap.mp hmem
  obtain ⟨slot, hin, hbecomes⟩ := Outcomes.exists_left hothers hpart
  obtain ⟨hslot, hne⟩ := hslots slot hin
  obtain ⟨other, hother, hhas, hkeys⟩ :=
    (hbecomes.mono fun h => h.1.placesOwn call).placed hholds hslot hpath hplaced
  obtain ⟨_, hkey⟩ := FieldPath.isBelow_iff.mp hkeys
  obtain ⟨_, hkey'⟩ := FieldPath.isBelow_iff.mp hown
  have hsame := FieldPath.key_unique ((List.prefix_append _ _).trans hkey)
    ((List.prefix_append _ _).trans hkey')
  exact hne (hother.trans (congrArg some (hhas.unique hholds hfield hsame)))

/-- **One step down.**  A field with selections below it has a slot, the merge below that slot
has the selections among its contributions, and it alone places what the call has below the
field. -/
theorem descend {contribution : Contribution} (hin : contribution ∈ contributions)
    (hcall : contribution.call = call) {head : Field} {nested : List Selection}
    (hselection : .field head (some nested) ∈ contribution.selections) :
    ∃ target below result, .field head.signature target (some below) ∈ level.slots ∧
      ⟨call, path.child head.responseKey, nested⟩ ∈ below ∧
      contributionsBelow head.signature (contributions.flatMap Contribution.occurrences) =
        some below ∧
      Merges (merged.child target.responseKey) below result ∧
      P (merged.child target.responseKey) below result ∧
      .field target (some result.selections) ∈ parts.flatMap selections ∧
      (level.placements ++ parts.flatMap placements).filter
          (Placement.isBelow call (path.child head.responseKey)) =
        result.placements.filter (Placement.isBelow call (path.child head.responseKey)) := by
  have hoccurrence : ⟨contribution.call, contribution.path, .field head (some nested)⟩ ∈
      contributions.flatMap Contribution.occurrences :=
    mem_occurrences.mpr ⟨contribution, hin, _, hselection, rfl⟩
  have hfield : HasField call contributions head.signature :=
    ⟨contribution, hin, hcall, head, some nested, hselection, rfl⟩
  obtain ⟨target, below, hslot, hbelow⟩ := hholds.exists_slot_below hoccurrence rfl
  have hmem : ⟨call, path.child head.responseKey, nested⟩ ∈ below := by
    rw [← hcall, ← hpath contribution hin hcall]
    exact mem_of_contributionsBelow hbelow hoccurrence
  obtain ⟨front, part, back, others, rfl, hbecomes, hothers, hne⟩ :=
    hholds.exists_alone hslot hparts
  have hnone := filter_parts_eq_nil hholds hpath hothers hfield fun slot hin =>
    ⟨(hne slot hin).1, (hne slot hin).2.1⟩
  rw [List.flatMap_append, List.filter_append, List.append_eq_nil_iff] at hnone
  obtain ⟨hfront, hback⟩ := hnone
  cases hbecomes with
  | field signature target below result hnested =>
      refine ⟨target, below, result, hslot, hmem, hbelow, hnested.1, hnested.2,
        List.mem_flatMap.mpr ⟨_, List.mem_append_right _ List.mem_cons_self,
          List.mem_cons_self⟩, ?_⟩
      change (front.flatMap placements).filter
        (Placement.isBelow call (path.child head.responseKey)) = [] at hfront
      change (back.flatMap placements).filter
        (Placement.isBelow call (path.child head.responseKey)) = [] at hback
      rw [List.filter_append, filter_level_eq_nil hholds hpath, List.nil_append,
        List.flatMap_append, List.flatMap_cons, List.filter_append, List.filter_append,
        hfront, hback, List.nil_append, List.append_nil]

end Step

end MergedSelections

end QueryBatching
