/-
What the addition of a selection does to a level.

It does one of three things: a spread or inline fragment gets a slot unless its text has one, a
field joins the slot of its signature, or it opens a new one.  `Adds` lists the three with all
that is known in each, so that nothing else has to look at the code of `Level.add`.
-/
import QueryBatching.Merge.Level
import QueryBatching.Proofs.Merge.Names

namespace QueryBatching

/-! ### Occurrences -/

namespace Occurrence

/-- What a call's field contributes below its slot. -/
def below (occurrence : Occurrence) (head : Field) (nested : List Selection) : Contribution :=
  ⟨occurrence.call, occurrence.path.child head.responseKey, nested⟩

/-- What an occurrence contributes below the slot of a signature, if it is in that slot. -/
def contribution? (signature : FieldSignature) (occurrence : Occurrence) : Option Contribution :=
  match occurrence.selection with
  | .field head (some nested) =>
    if head.signature = signature then some (occurrence.below head nested) else none
  | _ => none

theorem contribution?_field {occurrence : Occurrence} {head : Field}
    {nested? : Option (List Selection)} (h : occurrence.selection = .field head nested?)
    (signature : FieldSignature) :
    occurrence.contribution? signature =
      if head.signature = signature then nested?.map (occurrence.below head) else none := by
  unfold contribution?
  cases nested? with
  | none => simp [h]
  | some nested => simp [h]

theorem contribution?_fragment {occurrence : Occurrence}
    (h : ∀ head nested?, occurrence.selection ≠ .field head nested?) (signature : FieldSignature) :
    occurrence.contribution? signature = none := by
  unfold contribution?
  split
  · rename_i head nested hselection
    exact absurd hselection (h head (some nested))
  · rfl

end Occurrence

/-- What several occurrences contribute below the slot of a signature, if anything. -/
def contributionsBelow (signature : FieldSignature) (occurrences : List Occurrence) :
    Option (List Contribution) :=
  match occurrences.filterMap (Occurrence.contribution? signature) with
  | [] => none
  | contributions => some contributions

theorem filterMap_of_contributionsBelow {signature : FieldSignature}
    {occurrences : List Occurrence} {below : List Contribution}
    (h : contributionsBelow signature occurrences = some below) :
    occurrences.filterMap (Occurrence.contribution? signature) = below := by
  unfold contributionsBelow at h
  split at h
  · simp at h
  · exact Option.some.inj h

theorem flatMap_filterMap {α β γ : Type} (f : α → Option β) (g : β → List γ) (xs : List α) :
    (xs.filterMap f).flatMap g = xs.flatMap fun x => ((f x).map g).getD [] := by
  induction xs with
  | nil => rfl
  | cons x rest ih =>
      rw [List.filterMap_cons, List.flatMap_cons]
      cases hx : f x with
      | none => simp [ih]
      | some y => simp [ih]

/-- One more contribution, if there is one. -/
def addBelow (below? : Option (List Contribution)) :
    Option Contribution → Option (List Contribution)
  | none => below?
  | some contribution => some (below?.getD [] ++ [contribution])

theorem contributionsBelow_append (signature : FieldSignature) (occurrences : List Occurrence)
    (occurrence : Occurrence) :
    contributionsBelow signature (occurrences ++ [occurrence]) =
      addBelow (contributionsBelow signature occurrences) (occurrence.contribution? signature) := by
  unfold contributionsBelow
  rw [List.filterMap_append]
  cases h : occurrence.contribution? signature with
  | none => simp [h, addBelow]
  | some contribution =>
      cases hfront : occurrences.filterMap (Occurrence.contribution? signature) with
      | nil => simp [h, addBelow]
      | cons first rest => simp [h, addBelow]

/-! ### Slots -/

namespace Slot

/-- The signature of a slot that is a field. -/
def signature? : Slot → Option FieldSignature
  | field signature _ _ => some signature
  | fragment _ => none

variable {signature own : FieldSignature} {contribution : Contribution} {slot : Slot}

@[simp] theorem signature?_extend (signature : FieldSignature) (contribution : Contribution)
    (slot : Slot) : (slot.extend signature contribution).signature? = slot.signature? := by
  cases slot with
  | field own head below? =>
      rw [extend]
      split <;> rfl
  | fragment selection => rfl

@[simp] theorem key?_extend (signature : FieldSignature) (contribution : Contribution)
    (slot : Slot) : (slot.extend signature contribution).key? = slot.key? := by
  cases slot with
  | field own head below? =>
      rw [extend]
      split <;> rfl
  | fragment selection => rfl

theorem extend_of_ne (h : slot.signature? ≠ some signature) :
    slot.extend signature contribution = slot := by
  cases slot with
  | field own head below? =>
      rw [extend, if_neg]
      rintro rfl
      exact h rfl
  | fragment selection => rfl

theorem target?_eq_some {head : Field} {hasBelow : Bool} :
    slot.target? signature = some (head, hasBelow) ↔
      ∃ below?, slot = .field signature head below? ∧ below?.isSome = hasBelow := by
  cases slot with
  | field own target below? =>
      rw [target?]
      split
      · rename_i h
        subst h
        simp only [Option.some.injEq, Prod.mk.injEq, Slot.field.injEq, true_and]
        constructor
        · rintro ⟨rfl, rfl⟩
          exact ⟨below?, ⟨rfl, rfl⟩, rfl⟩
        · rintro ⟨found?, ⟨rfl, rfl⟩, rfl⟩
          exact ⟨rfl, rfl⟩
      · rename_i h
        simp [h]
  | fragment selection => simp [target?]

theorem target?_eq_none : slot.target? signature = none ↔ slot.signature? ≠ some signature := by
  cases slot with
  | field own head below? =>
      rw [target?, signature?]
      split <;> simp_all
  | fragment selection => simp [target?, signature?]

/-- A slot after contributions to the slot of a signature. -/
theorem field_mem_map_extend {slots : List Slot} {head : Field}
    {below? : Option (List Contribution)} :
    Slot.field own head below? ∈ slots.map (extend signature contribution) ↔
      ∃ before?, Slot.field own head before? ∈ slots ∧
        below? = if own = signature then before?.map (· ++ [contribution]) else before? := by
  rw [List.mem_map]
  constructor
  · rintro ⟨slot, hmem, heq⟩
    cases slot with
    | field found target before? =>
        rw [extend] at heq
        split at heq
        · rename_i hsame
          obtain ⟨rfl, rfl, rfl⟩ := Slot.field.inj heq
          exact ⟨before?, hmem, by rw [if_pos hsame]⟩
        · rename_i hne
          obtain ⟨rfl, rfl, rfl⟩ := Slot.field.inj heq
          exact ⟨before?, hmem, by rw [if_neg hne]⟩
    | fragment selection => simp [extend] at heq
  · rintro ⟨before?, hmem, rfl⟩
    refine ⟨_, hmem, ?_⟩
    rw [extend]
    split <;> rfl

theorem fragment_mem_map_extend {slots : List Slot} {selection : Selection} :
    Slot.fragment selection ∈ slots.map (extend signature contribution) ↔
      Slot.fragment selection ∈ slots := by
  rw [List.mem_map]
  constructor
  · rintro ⟨slot, hmem, heq⟩
    cases slot with
    | field found target before? =>
        rw [extend] at heq
        split at heq <;> simp at heq
    | fragment found => exact heq ▸ hmem
  · exact fun hmem => ⟨_, hmem, rfl⟩

end Slot

namespace Level

/-! ### What an addition does -/

@[simp] theorem slots_select (level : Level) (call : Nat) (signature : FieldSignature) :
    (level.select call signature).slots = level.slots := by
  unfold select
  split <;> rfl

@[simp] theorem placements_select (level : Level) (call : Nat) (signature : FieldSignature) :
    (level.select call signature).placements = level.placements := by
  unfold select
  split <;> rfl

@[simp] theorem newHead_select (level : Level) (call : Nat) (signature : FieldSignature)
    (other : Nat) (head : Field) :
    (level.select call signature).newHead other head = level.newHead other head := by
  unfold newHead freeKey takenKeys
  rw [slots_select]

/-- A note is added where there is none, and no note changes. -/
theorem selectedAs?_select (level : Level) (call other : Nat) (signature : FieldSignature)
    (key : String) :
    (level.select call signature).selectedAs? other key =
      (level.selectedAs? other key).or
        (if call = other ∧ signature.responseKey = key then some signature else none) := by
  unfold select
  split
  · rename_i hsome
    split
    · rename_i hsame
      obtain ⟨rfl, rfl⟩ := hsame
      rw [Option.or_of_isSome hsome]
    · rw [Option.or_none]
  · simp only [selectedAs?, List.find?_append, Option.map_or]
    congr 1
    by_cases hsame : call = other ∧ signature.responseKey = key
    · simp [hsame]
    · rw [if_neg hsame]
      simp [hsame]

/-- The slots after a field has joined one of them. -/
def joined (slots : List Slot) (occurrence : Occurrence) (head : Field) :
    Option (List Selection) → List Slot
  | none => slots
  | some nested =>
    slots.map (Slot.extend head.signature (occurrence.below head nested))

/-- What the addition of a call's field does, whichever slot it finds. -/
structure AddsField (merged : FieldPath) (level : Level) (occurrence : Occurrence) (head : Field)
    (nested? : Option (List Selection)) (target : Field) (result : Level) : Prop where
  selection : occurrence.selection = .field head nested?
  /-- The call has selected nothing else under the response key. -/
  consistent : ∀ signature,
    level.selectedAs? occurrence.call head.responseKey = some signature →
      signature = head.signature
  selected : ∀ call key, result.selectedAs? call key =
    (level.selectedAs? call key).or
      (if occurrence.call = call ∧ head.responseKey = key then some head.signature else none)
  placements : result.placements = level.placements ++
    [.field occurrence.call (occurrence.path.child head.responseKey)
      (merged.child target.responseKey)]

/-- The three things an addition can do. -/
inductive Adds (merged : FieldPath) (level : Level) (occurrence : Occurrence) (result : Level) :
    Prop
  /-- A spread or inline fragment has a slot or gets one. -/
  | fragment (hfragment : ∀ head nested?, occurrence.selection ≠ .field head nested?)
      (h : result = level.addFragment occurrence.call occurrence.path occurrence.selection)
  /-- A field opens the first slot of its signature. -/
  | opens (head : Field) (nested? : Option (List Selection))
      (h : AddsField merged level occurrence head nested? (level.newHead occurrence.call head)
        result)
      (hnew : ∀ slot ∈ level.slots, slot.signature? ≠ some head.signature)
      (hslots : result.slots = level.slots ++
        [.field head.signature (level.newHead occurrence.call head)
          (nested?.map fun nested => [occurrence.below head nested])])
  /-- A field joins the slot of its signature. -/
  | joins (head : Field) (nested? : Option (List Selection)) (target : Field)
      (below? : Option (List Contribution))
      (h : AddsField merged level occurrence head nested? target result)
      (hslot : .field head.signature target below? ∈ level.slots)
      (hshape : below?.isSome = nested?.isSome)
      (hslots : result.slots = joined level.slots occurrence head nested?)

/-- What is below the slot of a signature after a field has joined the slot of its own. -/
def joinedBelow (signature : FieldSignature) (occurrence : Occurrence) (head : Field)
    (nested? : Option (List Selection)) (before? : Option (List Contribution)) :
    Option (List Contribution) :=
  match nested? with
  | none => before?
  | some nested =>
    if signature = head.signature then before?.map (· ++ [occurrence.below head nested])
    else before?

/-- Joining puts something below a slot only where something is. -/
theorem isSome_joinedBelow (signature : FieldSignature) (occurrence : Occurrence) (head : Field)
    (nested? : Option (List Selection)) (before? : Option (List Contribution)) :
    (joinedBelow signature occurrence head nested? before?).isSome = before?.isSome := by
  unfold joinedBelow
  cases nested? with
  | none => rfl
  | some nested =>
      dsimp only
      split
      · exact Option.isSome_map
      · rfl

theorem field_mem_joined {slots : List Slot} {occurrence : Occurrence} {head target : Field}
    {signature : FieldSignature} {nested? : Option (List Selection)}
    {below? : Option (List Contribution)} :
    Slot.field signature target below? ∈ joined slots occurrence head nested? ↔
      ∃ before?, Slot.field signature target before? ∈ slots ∧
        below? = joinedBelow signature occurrence head nested? before? := by
  cases nested? with
  | none => simp [joined, joinedBelow]
  | some nested => exact Slot.field_mem_map_extend

theorem fragment_mem_joined {slots : List Slot} {occurrence : Occurrence} {head : Field}
    {nested? : Option (List Selection)} {selection : Selection} :
    Slot.fragment selection ∈ joined slots occurrence head nested? ↔
      Slot.fragment selection ∈ slots := by
  cases nested? with
  | none => rfl
  | some nested => exact Slot.fragment_mem_map_extend

theorem filterMap_joined (slots : List Slot) (occurrence : Occurrence) (head : Field)
    (nested? : Option (List Selection)) :
    (joined slots occurrence head nested?).filterMap Slot.signature? =
        slots.filterMap Slot.signature? ∧
      (joined slots occurrence head nested?).filterMap Slot.key? = slots.filterMap Slot.key? := by
  cases nested? with
  | none => exact ⟨rfl, rfl⟩
  | some nested =>
      simp only [joined, List.filterMap_map]
      exact ⟨List.filterMap_congr fun slot _ => Slot.signature?_extend _ _ slot,
        List.filterMap_congr fun slot _ => Slot.key?_extend _ _ slot⟩

/-- A fragment's text has a slot, or gets one behind the others. -/
theorem slots_addFragment (level : Level) (call : Nat) (path : FieldPath)
    (selection : Selection) :
    ∃ more, (level.addFragment call path selection).slots = level.slots ++ more ∧
      (more = [] ∧ level.slots.any (Slot.hasText selection.text) = true ∨
        more = [.fragment selection]) := by
  unfold addFragment
  dsimp only
  split
  · exact ⟨[], (List.append_nil _).symm, .inl ⟨rfl, by assumption⟩⟩
  · exact ⟨_, rfl, .inr rfl⟩

theorem joined_of_new {slots : List Slot} {occurrence : Occurrence} {head : Field}
    {nested? : Option (List Selection)}
    (hnew : ∀ slot ∈ slots, slot.signature? ≠ some head.signature) :
    joined slots occurrence head nested? = slots := by
  cases nested? with
  | none => rfl
  | some nested =>
      rw [joined]
      conv => rhs; rw [← List.map_id slots]
      exact List.map_congr_left fun slot hmem => Slot.extend_of_ne (hnew slot hmem)

/-- Every addition is one of the three. -/
theorem adds_of_add {merged : FieldPath} {level result : Level} {occurrence : Occurrence}
    (h : add merged level occurrence = .ok result) : Adds merged level occurrence result := by
  unfold add at h
  split at h
  · rename_i head nested? hselection
    unfold addField at h
    dsimp only at h
    split at h
    · simp at h
    · rename_i hconsistent
      have hsame : ∀ signature,
          level.selectedAs? occurrence.call head.responseKey = some signature →
            signature = head.signature := by
        intro signature hsignature
        by_contra hne
        refine hconsistent ?_
        rw [show head.signature.responseKey = head.responseKey from rfl, hsignature]
        simpa using hne
      split at h
      · rename_i hnone
        rw [slots_select, List.findSome?_eq_none_iff] at hnone
        have hnew : ∀ slot ∈ level.slots, slot.signature? ≠ some head.signature :=
          fun slot hmem => Slot.target?_eq_none.mp (hnone slot hmem)
        simp only [Except.ok.injEq] at h
        subst h
        refine .opens head nested? ⟨hselection, hsame, ?_, ?_⟩ hnew ?_
        · exact fun call key => selectedAs?_select level occurrence.call call head.signature key
        · simp only [fillSlot, openSlot, placements_select, newHead_select]
        · cases nested? with
          | none => simp [fillSlot, openSlot]
          | some nested =>
              have hold : level.slots.map (Slot.extend head.signature
                  (occurrence.below head nested)) = level.slots :=
                @joined_of_new _ _ _ (some nested) hnew
              simp only [fillSlot, openSlot, slots_select, newHead_select, List.map_append,
                List.map_cons, List.map_nil, Option.isSome_some, if_true]
              rw [← Occurrence.below, hold]
              simp [Slot.extend]
      · rename_i target hasBelow hsome
        split at h
        · rename_i hshape
          simp only [Except.ok.injEq] at h
          subst h
          rw [slots_select] at hsome
          obtain ⟨slot, hmem, hslot⟩ := List.exists_of_findSome?_eq_some hsome
          obtain ⟨below?, rfl, hbelow⟩ := Slot.target?_eq_some.mp hslot
          refine .joins head nested? target below? ⟨hselection, hsame, ?_, ?_⟩ hmem
            (hbelow.trans hshape) ?_
          · exact fun call key => selectedAs?_select level occurrence.call call head.signature key
          · simp only [fillSlot, placements_select]
          · cases nested? with
            | none => simp only [fillSlot, slots_select, joined]
            | some nested => simp only [fillSlot, slots_select, joined, Occurrence.below]
        · simp at h
  · rename_i hnot
    simp only [Except.ok.injEq] at h
    exact .fragment (fun head nested? hselection => hnot head nested? hselection) h.symm

/-- An addition fails where the call has selected something else under the response key, or where
the slot of the signature has the other shape. -/
theorem exists_of_add_eq_error {merged : FieldPath} {level : Level} {occurrence : Occurrence}
    {error : MergeError} (h : add merged level occurrence = .error error) :
    ∃ head nested?, occurrence.selection = .field head nested? ∧
      ((∃ signature, level.selectedAs? occurrence.call head.responseKey = some signature ∧
          signature ≠ head.signature ∧
          error = .conflictingField occurrence.call head.responseKey) ∨
        ∃ target below?, .field head.signature target below? ∈ level.slots ∧
          below?.isSome ≠ nested?.isSome ∧
          error = .selectionShapeMismatch head.responseKey) := by
  unfold add at h
  split at h
  · rename_i head nested? hselection
    refine ⟨head, nested?, hselection, ?_⟩
    unfold addField at h
    dsimp only at h
    split at h
    · rename_i hany
      rw [show head.signature.responseKey = head.responseKey from rfl] at hany h
      cases hselected : level.selectedAs? occurrence.call head.responseKey with
      | none => simp [hselected] at hany
      | some signature =>
          rw [hselected, Option.any_some, decide_eq_true_eq] at hany
          exact .inl ⟨signature, rfl, hany, (Except.error.inj h).symm⟩
    · split at h
      · simp at h
      · rename_i target hasBelow hsome
        split at h
        · simp at h
        · rename_i hshape
          rw [slots_select] at hsome
          obtain ⟨slot, hmem, hslot⟩ := List.exists_of_findSome?_eq_some hsome
          obtain ⟨below?, rfl, hbelow⟩ := Slot.target?_eq_some.mp hslot
          exact .inr ⟨target, below?, hmem, hbelow.trans_ne hshape, (Except.error.inj h).symm⟩
  · simp at h

end Level

end QueryBatching
