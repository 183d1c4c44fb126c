/-
What a registry holds after the fragments of a call have been registered.

Registering a call only ever adds to a registry: what was emitted before stays as it is and
where it is.  What is added are the call's fragments under their emitted names, and every one
of them has a definition under its emitted name afterwards, added now or there before.

From that, a registry is always closed: whatever one of its definitions spreads is defined in
it, because the call it came from defines it and all of the call's fragments are emitted.
-/
import QueryBatching.Merge.FragmentRegistry
import QueryBatching.Proofs.Assoc
import QueryBatching.Proofs.Document.Renaming
import QueryBatching.Proofs.Merge.Names

namespace QueryBatching

namespace FragmentRegistry

/-! ### What is emitted -/

/-- What emitting some fragments adds to a registry. -/
structure Extends (renames : FragmentRenames) (fragments : List Fragment)
    (registry later : FragmentRegistry) : Prop where
  /-- Whatever is added is one of the fragments as it is emitted, and what was there stays. -/
  added : ∃ added, later.fragments = registry.fragments ++ added ∧
    ∀ entry ∈ added, entry.1 ∉ Assoc.keys registry.fragments ∧
      ∃ fragment ∈ fragments, entry = (renames.apply fragment.name, fragment.emitted renames)
  /-- Every one of the fragments has a definition under its emitted name. -/
  emitted : ∀ fragment ∈ fragments, renames.apply fragment.name ∈ Assoc.keys later.fragments
  nodup : (Assoc.keys registry.fragments).Nodup → (Assoc.keys later.fragments).Nodup

theorem extends_nil (renames : FragmentRenames) (registry : FragmentRegistry) :
    Extends renames [] registry registry where
  added := ⟨[], (List.append_nil _).symm, fun _ h => absurd h List.not_mem_nil⟩
  emitted := fun _ h => absurd h List.not_mem_nil
  nodup := id

/-- Emitting one more fragment adds it under its emitted name, unless that name is there. -/
theorem Extends.emit {renames : FragmentRenames} {front : List Fragment}
    {registry middle : FragmentRegistry} (h : Extends renames front registry middle)
    (fragment : Fragment) :
    Extends renames (front ++ [fragment]) registry (middle.emit renames fragment) := by
  obtain ⟨⟨added, hadded, hentries⟩, hemitted, hnodup⟩ := h
  have hentries' : ∀ entry ∈ added, entry.1 ∉ Assoc.keys registry.fragments ∧
      ∃ fragment' ∈ front ++ [fragment],
        entry = (renames.apply fragment'.name, fragment'.emitted renames) := by
    intro entry hmem
    obtain ⟨hnew, other, hother, heq⟩ := hentries entry hmem
    exact ⟨hnew, other, List.mem_append_left _ hother, heq⟩
  have hname : (fragment.emitted renames).name = renames.apply fragment.name := rfl
  unfold FragmentRegistry.emit Assoc.insertNew
  dsimp only
  rw [hname]
  split
  · rename_i hthere
    rw [Assoc.contains_iff_mem_keys] at hthere
    refine ⟨⟨added, hadded, hentries'⟩, fun other hother => ?_, hnodup⟩
    rcases List.mem_append.mp hother with hother | hother
    · exact hemitted other hother
    · exact List.mem_singleton.mp hother ▸ hthere
  · rename_i hnew
    rw [Assoc.contains_iff_mem_keys] at hnew
    have hkeys : Assoc.keys (middle.fragments ++
        [(renames.apply fragment.name, fragment.emitted renames)]) =
          Assoc.keys middle.fragments ++ [renames.apply fragment.name] := by
      simp [Assoc.keys]
    refine ⟨⟨added ++ [_], by rw [hadded, List.append_assoc], ?_⟩, ?_, ?_⟩
    · intro entry hmem
      rcases List.mem_append.mp hmem with hmem | hmem
      · exact hentries' entry hmem
      · obtain rfl := List.mem_singleton.mp hmem
        refine ⟨fun hold => hnew ?_, fragment, by simp, rfl⟩
        rw [hadded, Assoc.keys, List.map_append]
        exact List.mem_append_left _ hold
    · intro other hother
      rw [hkeys]
      rcases List.mem_append.mp hother with hother | hother
      · exact List.mem_append_left _ (hemitted other hother)
      · exact List.mem_append_right _ (List.mem_singleton.mp hother ▸ List.mem_cons_self)
    · intro hbefore
      rw [hkeys]
      refine List.nodup_append.mpr ⟨hnodup hbefore, List.nodup_singleton _, ?_⟩
      intro name hmem other hother heq
      obtain rfl := List.mem_singleton.mp hother
      exact hnew (heq ▸ hmem)

/-- Emitting some fragments one after another. -/
theorem extends_emit (renames : FragmentRenames) (registry : FragmentRegistry)
    (fragments : List Fragment) :
    Extends renames fragments registry (fragments.foldl (emit renames) registry) := by
  induction fragments using List.reverseRecOn with
  | nil => exact extends_nil renames registry
  | append_singleton front fragment ih =>
      rw [List.foldl_append, List.foldl_cons, List.foldl_nil]
      exact ih.emit fragment

/-! ### The names that are assigned -/

/-- A fragment is emitted under its own name or under one made from it and the call's number. -/
def Spelled (call : Nat) (name emitted : String) : Prop :=
  emitted = name ∨ ∃ count, emitted = FreshName.spelling (name ++ "_" ++ toString call) count

theorem Spelled.isFragmentName {call : Nat} {name emitted : String}
    (h : Spelled call name emitted) (hname : IsFragmentName name) : IsFragmentName emitted := by
  rcases h with rfl | ⟨count, rfl⟩
  · exact hname
  · exact FreshName.isFragmentName_spelling (hname.name.numbered call) count

theorem spelled_freeName (registry : FragmentRegistry) (call : Nat) (fragment : Fragment)
    (claimed : List String) :
    Spelled call fragment.name (registry.freeName call fragment claimed) := by
  unfold freeName
  dsimp only
  split
  · exact .inl rfl
  · exact .inr (FreshName.exists_search_eq _ _ _ _)

theorem apply_insert (renames : FragmentRenames) (name emitted other : String) :
    FragmentRenames.apply (Assoc.insert renames name emitted) other =
      if name = other then emitted else renames.apply other := by
  unfold FragmentRenames.apply
  rw [Assoc.get?_insert]
  split
  · rw [Option.getD_some]
  · rfl

theorem spelled_assignFrom (registry : FragmentRegistry) (call : Nat) (renames : FragmentRenames)
    {claimed : List String} {assigned : FragmentRenames} {fragments : List Fragment}
    (h : ∀ name, Spelled call name (assigned.apply name)) (name : String) :
    Spelled call name
      ((registry.assignFrom call renames claimed assigned fragments).apply name) := by
  induction fragments generalizing claimed assigned with
  | nil => exact h name
  | cons fragment rest ih =>
      rw [assignFrom]
      refine ih fun other => ?_
      rw [apply_insert]
      split
      · rename_i heq
        exact heq ▸ spelled_freeName registry call (fragment.renameSpreads renames) claimed
      · exact h other

/-- What holds of no names and is kept by each round of names holds of the names a call is
given. -/
theorem renamesFor_of_assign {P : FragmentRenames → Prop} {registry : FragmentRegistry}
    {call : Nat} {fragments : List Fragment} (hnone : P [])
    (hassign : ∀ renames, P renames → P (registry.assign call fragments renames)) :
    P (registry.renamesFor call fragments) := by
  have hsettle : ∀ rounds renames, P renames →
      P (registry.settle call fragments rounds renames) := by
    intro rounds
    induction rounds with
    | zero => exact fun renames h => h
    | succ rounds ih =>
        intro renames h
        rw [settle]
        split
        · exact h
        · exact ih _ (hassign renames h)
  exact hsettle _ _ hnone

theorem spelled_renamesFor (registry : FragmentRegistry) (call : Nat) (fragments : List Fragment)
    (name : String) : Spelled call name ((registry.renamesFor call fragments).apply name) :=
  renamesFor_of_assign (P := fun renames => Spelled call name (renames.apply name)) (.inl rfl)
    fun renames _ => spelled_assignFrom registry call renames (fun _ => .inl rfl) name

/-! ### Closed registries -/

/-- A registry whose definitions can be written down, each once, and spread only each other. -/
structure Valid (room : Nat) (registry : FragmentRegistry) : Prop where
  names : ∀ entry ∈ registry.fragments, entry.2.name = entry.1
  nodup : (Assoc.keys registry.fragments).Nodup
  legal : ∀ entry ∈ registry.fragments, entry.2.Legal room
  closed : ∀ entry ∈ registry.fragments, ∀ name ∈ Selection.spreadsOfAll entry.2.selections,
    name ∈ Assoc.keys registry.fragments

theorem valid_empty (room : Nat) : Valid room {} where
  names := fun _ h => absurd h List.not_mem_nil
  nodup := List.nodup_nil
  legal := fun _ h => absurd h List.not_mem_nil
  closed := fun _ h => absurd h List.not_mem_nil

theorem legal_emitted {room : Nat} {fragment : Fragment} (h : fragment.Legal room)
    {renames : FragmentRenames}
    (hrenames : ∀ name, IsFragmentName name → IsFragmentName (renames.apply name)) :
    (fragment.emitted renames).Legal room :=
  ⟨hrenames _ h.name, h.condition, h.directives, h.selections.mapSpreads hrenames⟩

/-- **Registering a closed call keeps a registry closed.** -/
theorem Valid.register {room : Nat} {registry : FragmentRegistry} (h : Valid room registry)
    {call : Nat} {fragments : List Fragment}
    (hlegal : ∀ fragment ∈ fragments, fragment.Legal room)
    (hclosed : ∀ fragment ∈ fragments, ∀ name ∈ Selection.spreadsOfAll fragment.selections,
      name ∈ fragments.map Fragment.name) :
    Valid room (registry.register call fragments).1 := by
  have hextends := extends_emit (registry.renamesFor call fragments) registry fragments
  have hrenames : ∀ name, IsFragmentName name →
      IsFragmentName ((registry.renamesFor call fragments).apply name) :=
    fun name hname => (spelled_renamesFor registry call fragments name).isFragmentName hname
  show Valid room (fragments.foldl (emit (registry.renamesFor call fragments)) registry)
  generalize fragments.foldl (emit (registry.renamesFor call fragments)) registry = later
    at hextends
  generalize registry.renamesFor call fragments = renames at hextends hrenames
  obtain ⟨⟨added, hadded, hentries⟩, hemitted, hnodup⟩ := hextends
  refine ⟨fun entry hmem => ?_, hnodup h.nodup, fun entry hmem => ?_,
    fun entry hmem name hname => ?_⟩
  · rw [hadded] at hmem
    rcases List.mem_append.mp hmem with hmem | hmem
    · exact h.names entry hmem
    · obtain ⟨-, fragment, -, rfl⟩ := hentries entry hmem
      rfl
  · rw [hadded] at hmem
    rcases List.mem_append.mp hmem with hmem | hmem
    · exact h.legal entry hmem
    · obtain ⟨-, fragment, hfragment, rfl⟩ := hentries entry hmem
      exact legal_emitted (hlegal fragment hfragment) hrenames
  · rw [hadded] at hmem
    rcases List.mem_append.mp hmem with hmem | hmem
    · rw [hadded, Assoc.keys, List.map_append]
      exact List.mem_append_left _ (h.closed entry hmem name hname)
    · obtain ⟨-, fragment, hfragment, rfl⟩ := hentries entry hmem
      have hspread : name ∈ (Selection.spreadsOfAll fragment.selections).map renames.apply := by
        rw [← Selection.spreadsOfAll_mapSpreadsAll]
        exact hname
      obtain ⟨own, hown, rfl⟩ := List.mem_map.mp hspread
      obtain ⟨target, htarget, rfl⟩ := List.mem_map.mp (hclosed fragment hfragment own hown)
      exact hemitted target htarget

end FragmentRegistry

end QueryBatching
