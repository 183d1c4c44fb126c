/-
What a path mapping says about the placements it was made from.

A mapping is written by recording placements one after another, and read by asking for the
merged path of a call's field or for the fields below a path.  Here each question is answered
from the list of placements alone: a field is found where its placements put it, if they agree,
and the fields below a path are those that were placed there, each once, in the order in which
they first came.
-/
import QueryBatching.Merge.Batch
import QueryBatching.Proofs.Assoc
import QueryBatching.Proofs.FirstAppearances

namespace QueryBatching

/-! ### Placements -/

namespace Placement

/-- The call's own path, if the placement is of one of its fields. -/
def own? (call : Nat) : Placement → Option FieldPath
  | .field other own _ => if other = call then some own else none
  | .fragments _ _ => none

/-- The call's own path, if a mapping has an entry for it: the root is no field. -/
def entered? (call : Nat) (placement : Placement) : Option FieldPath :=
  (placement.own? call).filter fun own => own.parent? ≠ none

/-- The call's own path, if it is one key below `parent`. -/
def child? (call : Nat) (parent : FieldPath) (placement : Placement) : Option FieldPath :=
  (placement.own? call).filter fun own => own.parent? = some parent

theorem own?_eq_some {call : Nat} {own : FieldPath} {placement : Placement} :
    placement.own? call = some own ↔ ∃ merged, placement = .field call own merged := by
  cases placement with
  | field other path merged =>
      rw [own?]
      split
      · rename_i heq
        simp [heq]
      · rename_i hne
        simp [hne]
  | fragments other level => simp [own?]

theorem entered?_field (other call : Nat) (own merged : FieldPath) :
    (Placement.field other own merged).entered? call =
      if other = call ∧ own.parent? ≠ none then some own else none := by
  rw [entered?, own?]
  by_cases hcall : other = call
  · rw [if_pos hcall, Option.filter_some]
    simp [hcall]
  · rw [if_neg hcall, if_neg fun h => hcall h.1]
    rfl

theorem entered?_eq_some {call : Nat} {own : FieldPath} {placement : Placement} :
    placement.entered? call = some own ↔
      own.parent? ≠ none ∧ ∃ merged, placement = .field call own merged := by
  rw [entered?, Option.filter_eq_some_iff, own?_eq_some, and_comm, decide_eq_true_eq]

theorem child?_field (other call : Nat) (own parent merged : FieldPath) :
    (Placement.field other own merged).child? call parent =
      if other = call ∧ own.parent? = some parent then some own else none := by
  rw [child?, own?]
  by_cases hcall : other = call
  · rw [if_pos hcall, Option.filter_some]
    simp [hcall]
  · rw [if_neg hcall, if_neg fun h => hcall h.1]
    rfl

theorem child?_eq_some {call : Nat} {parent own : FieldPath} {placement : Placement} :
    placement.child? call parent = some own ↔
      own.parent? = some parent ∧ ∃ merged, placement = .field call own merged := by
  rw [child?, Option.filter_eq_some_iff, own?_eq_some, and_comm, decide_eq_true_eq]

end Placement

namespace PathMapping

variable {mapping : PathMapping} {placements : List Placement}

/-! ### One placement -/

theorem entries_insert {call : Nat} {own merged : FieldPath} (hroot : own.parent? ≠ none)
    (other : Nat) : (mapping.insert call own merged).entries other =
      if call = other then Assoc.insert (mapping.entries call) own merged
      else mapping.entries other := by
  unfold insert
  split
  · rename_i hnone
    exact absurd hnone hroot
  · unfold entries
    dsimp only
    rw [Assoc.get?_insert]
    split
    · rw [Option.getD_some]
    · rfl

/-- Recording a field adds it to the entries of its call and of no other. -/
theorem entries_record_field (other : Nat) (own merged : FieldPath) (call : Nat) :
    (mapping.record (.field other own merged)).entries call =
      if other = call ∧ own.parent? ≠ none then Assoc.insert (mapping.entries call) own merged
      else mapping.entries call := by
  rw [record]
  by_cases hroot : own.parent? = none
  · rw [if_neg fun h => h.2 hroot]
    simp only [insert, hroot]
  · rw [entries_insert hroot]
    by_cases hcall : other = call
    · rw [if_pos hcall, if_pos ⟨hcall, hroot⟩, hcall]
    · rw [if_neg hcall, if_neg fun h => hcall h.1]

/-- Recording fragments adds no entries. -/
theorem entries_record_fragments (other : Nat) (level : FieldPath) (call : Nat) :
    (mapping.record (.fragments other level)).entries call = mapping.entries call := by
  rw [record, markFragments]
  split
  · rfl
  · rfl

/-- Recording a field changes what is known of that field and of nothing else. -/
theorem get?_record (placement : Placement) (call : Nat) {own : FieldPath}
    (hroot : own.parent? ≠ none) :
    (mapping.record placement).get? call own =
      match placement with
      | .field other path merged =>
        if other = call ∧ path = own then some merged else mapping.get? call own
      | .fragments _ _ => mapping.get? call own := by
  cases placement with
  | fragments other level =>
      rw [record, markFragments]
      split <;> rfl
  | field other path merged =>
      rw [record]
      dsimp only
      by_cases hpath : path.parent? = none
      · have hne : path ≠ own := fun heq => hroot (heq ▸ hpath)
        rw [if_neg fun h => hne h.2, insert]
        split
        · rfl
        · rename_i hsome
          simp [hpath] at hsome
      · unfold get?
        rw [entries_insert hpath]
        split
        · rename_i heq
          rw [Assoc.get?_insert, heq]
          simp
        · rename_i hne
          rw [if_neg fun h => hne h.1]

theorem ofPlacements_append (placements : List Placement) (placement : Placement) :
    ofPlacements (placements ++ [placement]) = (ofPlacements placements).record placement := by
  unfold ofPlacements
  rw [List.foldl_append, List.foldl_cons, List.foldl_nil]

/-! ### All placements -/

/-- A field is found exactly if it was placed. -/
theorem get?_ofPlacements_isSome (call : Nat) {own : FieldPath} (hroot : own.parent? ≠ none) :
    ((ofPlacements placements).get? call own).isSome = true ↔
      ∃ merged, .field call own merged ∈ placements := by
  induction placements using List.reverseRecOn with
  | nil => simp [ofPlacements, get?, entries, Assoc.get?]
  | append_singleton front last ih =>
      rw [ofPlacements_append, get?_record last call hroot]
      cases last with
      | fragments other level => simp [ih]
      | field other path merged =>
          dsimp only
          split
          · rename_i heq
            obtain ⟨rfl, rfl⟩ := heq
            simp
          · rename_i hne
            rw [ih]
            refine exists_congr fun target => ?_
            rw [List.mem_append, List.mem_singleton]
            refine (or_iff_left fun heq => hne ?_).symm
            injection heq with hcall hown
            exact ⟨hcall.symm, hown.symm⟩

/-- What is found is one of the places where the field was placed. -/
theorem mem_of_get?_ofPlacements {call : Nat} {own found : FieldPath} (hroot : own.parent? ≠ none)
    (hfound : (ofPlacements placements).get? call own = some found) :
    .field call own found ∈ placements := by
  induction placements using List.reverseRecOn with
  | nil => simp [ofPlacements, get?, entries, Assoc.get?] at hfound
  | append_singleton front last ih =>
      rw [ofPlacements_append, get?_record last call hroot] at hfound
      cases last with
      | fragments other level => exact List.mem_append_left _ (ih hfound)
      | field other path target =>
          dsimp only at hfound
          split at hfound
          · rename_i heq
            obtain ⟨rfl, rfl⟩ := heq
            obtain rfl := Option.some.inj hfound
            simp
          · exact List.mem_append_left _ (ih hfound)

/-- **A field is found where it was placed**, if all its placements agree. -/
theorem get?_ofPlacements {call : Nat} {own merged : FieldPath} (hroot : own.parent? ≠ none)
    (hmem : .field call own merged ∈ placements)
    (hsame : ∀ other, .field call own other ∈ placements → other = merged) :
    (ofPlacements placements).get? call own = some merged := by
  obtain ⟨found, hfound⟩ := Option.isSome_iff_exists.mp
    ((get?_ofPlacements_isSome call hroot).mpr ⟨merged, hmem⟩)
  rw [hfound, hsame found (mem_of_get?_ofPlacements hroot hfound)]

theorem contains_entries (call : Nat) (own : FieldPath) :
    Assoc.contains (mapping.entries call) own = (mapping.get? call own).isSome := rfl

/-- The fields of a call one key below a path. -/
def ownChildren (call : Nat) (parent : FieldPath) (placements : List Placement) :
    List FieldPath :=
  placements.filterMap (Placement.child? call parent)

/-- Recording a field adds it to those below its parent, unless it is known. -/
theorem get?_children_record (placement : Placement) (call : Nat) (parent : FieldPath) :
    Assoc.get? (mapping.record placement).children (call, parent) =
      match placement.child? call parent with
      | some own =>
        if (mapping.get? call own).isSome then Assoc.get? mapping.children (call, parent)
        else some ((Assoc.get? mapping.children (call, parent)).getD [] ++ [own])
      | none => Assoc.get? mapping.children (call, parent) := by
  cases placement with
  | fragments other level =>
      rw [record, markFragments]
      split <;> rfl
  | field other path merged =>
      rw [record, insert, Placement.child?_field]
      split
      · rename_i hnone
        rw [if_neg]
        intro hhere
        exact absurd (hnone.symm.trans hhere.2) (Option.some_ne_none parent).symm
      · rename_i above habove
        dsimp only
        rw [contains_entries, habove]
        by_cases hhere : other = call ∧ above = parent
        · have hchild : other = call ∧ some above = some parent :=
            ⟨hhere.1, congrArg some hhere.2⟩
          rw [if_pos hchild]
          obtain ⟨rfl, rfl⟩ := hhere
          dsimp only
          split
          · rfl
          · rw [Assoc.push, Assoc.get?_insert, if_pos rfl]
        · have hnot : ¬(other = call ∧ some above = some parent) := fun h =>
            hhere ⟨h.1, Option.some.inj h.2⟩
          rw [if_neg hnot]
          dsimp only
          split
          · rfl
          · rw [Assoc.push, Assoc.get?_insert, if_neg]
            intro heq
            exact hhere (Prod.mk.inj heq)

/-- **The fields below a path** are those that were placed there, each once. -/
theorem get?_children_ofPlacements (call : Nat) (parent : FieldPath) :
    Assoc.get? (ofPlacements placements).children (call, parent) =
      if ownChildren call parent placements = [] then none
      else some (ownChildren call parent placements).eraseDups := by
  induction placements using List.reverseRecOn with
  | nil => rfl
  | append_singleton front last ih =>
      rw [ofPlacements_append, get?_children_record, ih]
      cases hchild : last.child? call parent with
      | none => simp [ownChildren, hchild]
      | some own =>
          obtain ⟨hparent, -⟩ := Placement.child?_eq_some.mp hchild
          have hroot : own.parent? ≠ none := by simp [hparent]
          have hmem : ((ofPlacements front).get? call own).isSome = true ↔
              own ∈ ownChildren call parent front := by
            rw [get?_ofPlacements_isSome call hroot, ownChildren, List.mem_filterMap]
            constructor
            · rintro ⟨merged, hplaced⟩
              exact ⟨_, hplaced, Placement.child?_eq_some.mpr ⟨hparent, merged, rfl⟩⟩
            · rintro ⟨placement, hplaced, hown⟩
              obtain ⟨-, merged, rfl⟩ := Placement.child?_eq_some.mp hown
              exact ⟨merged, hplaced⟩
          have hall : ownChildren call parent (front ++ [last]) =
              ownChildren call parent front ++ [own] := by
            simp [ownChildren, hchild]
          rw [hall, eraseDups_concat, if_neg (List.append_ne_nil_of_right_ne_nil _ (by simp))]
          simp only [hmem]
          split
          · rename_i hthere
            rw [if_neg (List.ne_nil_of_mem hthere)]
          · split
            · rename_i hnone
              rw [hnone]
              rfl
            · rfl

/-- The mapping says that there are fields below a path exactly if one was recorded. -/
theorem hasChildren_ofPlacements (call : Nat) (parent : FieldPath) :
    (ofPlacements placements).hasChildren call parent = true ↔
      ownChildren call parent placements ≠ [] := by
  rw [hasChildren, Assoc.contains, get?_children_ofPlacements]
  split
  · rename_i hnone
    simp [hnone]
  · rename_i hsome
    simp [hsome]

/-- The fields below a path are those recorded, each once and with its place. -/
theorem childrenOf_ofPlacements (call : Nat) (parent : FieldPath) :
    (ofPlacements placements).childrenOf call parent =
      (ownChildren call parent placements).eraseDups.filterMap fun own =>
        ((ofPlacements placements).get? call own).map fun merged => (own, merged) := by
  rw [childrenOf, get?_children_ofPlacements]
  split
  · rename_i hnone
    rw [hnone]
    rfl
  · rfl

/-- **The entries of a call** are its fields that were placed, each once and in their order. -/
theorem keys_entries_ofPlacements (call : Nat) :
    Assoc.keys ((ofPlacements placements).entries call) =
      (placements.filterMap (Placement.entered? call)).eraseDups := by
  induction placements using List.reverseRecOn with
  | nil => rfl
  | append_singleton front last ih =>
      rw [ofPlacements_append, List.filterMap_append]
      cases last with
      | fragments other level =>
          rw [entries_record_fragments, ih]
          exact congrArg List.eraseDups (List.append_nil _).symm
      | field other own merged =>
          rw [entries_record_field, List.filterMap_cons, Placement.entered?_field]
          split
          · rw [Assoc.keys_insert, ih, List.filterMap_nil, eraseDups_concat]
            simp only [List.mem_eraseDups]
          · rw [ih, List.filterMap_nil, List.append_nil]

/-- The entries one key below a path are the fields recorded below it. -/
theorem filter_keys_entries_ofPlacements (call : Nat) (parent : FieldPath) :
    (Assoc.keys ((ofPlacements placements).entries call)).filter
        (fun own => own.parent? = some parent) =
      (ownChildren call parent placements).eraseDups := by
  rw [keys_entries_ofPlacements, filter_eraseDups, List.filter_filterMap]
  refine congrArg List.eraseDups (List.filterMap_congr fun placement _ => ?_)
  rw [Placement.entered?, Placement.child?, Option.filter_filter]
  refine congrArg (Option.filter · _) (funext fun own => ?_)
  cases own.parent? <;> simp

/-- A call selects fragments at the levels where they were placed. -/
theorem selectsFragments_ofPlacements (call : Nat) (level : FieldPath) :
    (ofPlacements placements).selectsFragments call level = true ↔
      .fragments call level ∈ placements := by
  unfold selectsFragments
  rw [decide_eq_true_eq]
  induction placements using List.reverseRecOn with
  | nil => simp [ofPlacements]
  | append_singleton front last ih =>
      rw [ofPlacements_append, List.mem_append, List.mem_singleton, ← ih]
      cases last with
      | field other own merged =>
          rw [record, insert]
          split <;> simp
      | fragments other path =>
          rw [record, markFragments]
          split
          · rename_i hthere
            refine ⟨.inl, fun h => h.elim id fun heq => ?_⟩
            injection heq with hcall hlevel
            rwa [hcall, hlevel]
          · simp

end PathMapping

end QueryBatching
