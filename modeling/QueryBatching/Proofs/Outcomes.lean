/-
Taking computations that can fail apart.

Parsing and merging answer with an `Except`.  What they do where they succeed is read off
their steps, and these lemmas say which steps there are: a success of a composite comes
from a success of each part, and a failure from the failure of one.  A pass over a list in which
an item may have no value is taken apart the same way.
-/
import Mathlib.Data.List.Forall2
import Mathlib.Data.List.Induction
import Mathlib.Data.List.Pairwise

namespace QueryBatching.Outcomes

variable {ε α β : Type}

theorem map_eq_ok {f : α → β} {x : Except ε α} {b : β} :
    x.map f = .ok b ↔ ∃ a, x = .ok a ∧ f a = b := by
  cases x with
  | error e => simp [Except.map]
  | ok a => simp [Except.map]

theorem bind_eq_ok {x : Except ε α} {f : α → Except ε β} {b : β} :
    (x >>= f) = .ok b ↔ ∃ a, x = .ok a ∧ f a = .ok b := by
  cases x with
  | error e => simp [bind, Except.bind]
  | ok a => simp [bind, Except.bind]

theorem exists_of_isOk {x : Except ε α} (h : x.isOk = true) : ∃ a, x = .ok a := by
  cases x with
  | error e => exact absurd h Bool.false_ne_true
  | ok a => exact ⟨a, rfl⟩

theorem exists_error_of_isOk {x : Except ε α} (h : x.isOk = false) : ∃ e, x = .error e := by
  cases x with
  | error e => exact ⟨e, rfl⟩
  | ok a => exact absurd h.symm Bool.false_ne_true

/-- A successful fold over one more item is a successful fold and a successful step. -/
theorem foldlM_concat_eq_ok {f : β → α → Except ε β} {start final : β} {xs : List α} {x : α} :
    (xs ++ [x]).foldlM f start = .ok final ↔
      ∃ middle, xs.foldlM f start = .ok middle ∧ f middle x = .ok final := by
  rw [List.foldlM_append, bind_eq_ok]
  refine exists_congr fun middle => and_congr_right fun _ => ?_
  rw [List.foldlM_cons, bind_eq_ok]
  constructor
  · rintro ⟨a, hstep, hdone⟩
    rw [List.foldlM_nil] at hdone
    exact hstep.trans hdone
  · intro hstep
    exact ⟨final, hstep, rfl⟩

/-- A successful pass over a list has one success for each item, in order. -/
theorem mapM_eq_ok {f : α → Except ε β} {xs : List α} {ys : List β} :
    xs.mapM f = .ok ys ↔ List.Forall₂ (fun x y => f x = .ok y) xs ys := by
  induction xs generalizing ys with
  | nil =>
      rw [List.mapM_nil, List.forall₂_nil_left_iff]
      constructor
      · intro h
        exact (Except.ok.inj h).symm
      · rintro rfl
        rfl
  | cons x xs ih =>
      rw [List.mapM_cons, bind_eq_ok, List.forall₂_cons_left_iff]
      constructor
      · rintro ⟨y, hy, hrest⟩
        obtain ⟨zs, hzs, hdone⟩ := bind_eq_ok.mp hrest
        exact ⟨y, zs, hy, ih.mp hzs, (Except.ok.inj hdone).symm⟩
      · rintro ⟨y, zs, hy, hzs, rfl⟩
        exact ⟨y, hy, bind_eq_ok.mpr ⟨zs, ih.mpr hzs, rfl⟩⟩

theorem bind_eq_error {x : Except ε α} {f : α → Except ε β} {e : ε} :
    (x >>= f) = .error e ↔ x = .error e ∨ ∃ a, x = .ok a ∧ f a = .error e := by
  cases x with
  | error e' => simp [bind, Except.bind]
  | ok a => simp [bind, Except.bind]

/-- A pass over a list fails at one of the items. -/
theorem exists_of_mapM_eq_error {f : α → Except ε β} {xs : List α} {e : ε}
    (h : xs.mapM f = .error e) : ∃ x ∈ xs, f x = .error e := by
  induction xs with
  | nil => simp [pure, Except.pure] at h
  | cons x rest ih =>
      rw [List.mapM_cons] at h
      rcases bind_eq_error.mp h with hx | ⟨y, -, h⟩
      · exact ⟨x, List.mem_cons_self, hx⟩
      · rcases bind_eq_error.mp h with hrest | ⟨ys, -, hdone⟩
        · obtain ⟨other, hother, hfails⟩ := ih hrest
          exact ⟨other, List.mem_cons_of_mem _ hother, hfails⟩
        · simp [pure, Except.pure] at hdone

/-- A pass over a list in which every item has a value has these values, in order. -/
theorem forall₂_of_mapM_eq_some {f : α → Option β} {xs : List α} {ys : List β}
    (h : xs.mapM f = some ys) : List.Forall₂ (fun x y => f x = some y) xs ys := by
  induction xs generalizing ys with
  | nil =>
      obtain rfl := Option.some.inj h
      exact .nil
  | cons x xs ih =>
      rw [List.mapM_cons, Option.bind_eq_bind, Option.bind_eq_some_iff] at h
      obtain ⟨y, hy, hrest⟩ := h
      obtain ⟨zs, hzs, hdone⟩ := Option.bind_eq_some_iff.mp hrest
      obtain rfl := Option.some.inj hdone
      exact .cons hy (ih hzs)

/-- A pass over a list has no value exactly if one of the items has none. -/
theorem mapM_eq_none_iff {f : α → Option β} {xs : List α} :
    xs.mapM f = none ↔ ∃ x ∈ xs, f x = none := by
  induction xs with
  | nil => simp
  | cons x xs ih =>
      rw [List.mapM_cons, List.exists_mem_cons_iff, ← ih]
      cases f x with
      | none => simp
      | some y => cases xs.mapM f <;> simp

/-- A fold fails at the first item whose step fails. -/
theorem exists_of_foldlM_eq_error {f : β → α → Except ε β} {start : β} {xs : List α} {e : ε}
    (h : xs.foldlM f start = .error e) :
    ∃ front x back middle, xs = front ++ x :: back ∧ front.foldlM f start = .ok middle ∧
      f middle x = .error e := by
  induction xs using List.reverseRecOn with
  | nil => simp [pure, Except.pure] at h
  | append_singleton front last ih =>
      rw [List.foldlM_append] at h
      rcases bind_eq_error.mp h with hfront | ⟨middle, hmiddle, hlast⟩
      · obtain ⟨before, x, back, start', rfl, hbefore, hfails⟩ := ih hfront
        exact ⟨before, x, back ++ [last], start', by simp, hbefore, hfails⟩
      · refine ⟨front, last, [], middle, rfl, hmiddle, ?_⟩
        simpa using hlast

/-! What stands in one of two lists in step has something beside it in the other. -/

theorem exists_right {R : α → β → Prop} {xs : List α} {ys : List β} (h : List.Forall₂ R xs ys)
    {x : α} (hx : x ∈ xs) : ∃ y ∈ ys, R x y := by
  induction h with
  | nil => exact absurd hx List.not_mem_nil
  | cons hxy _ ih =>
      rcases List.mem_cons.mp hx with rfl | hx
      · exact ⟨_, List.mem_cons_self, hxy⟩
      · obtain ⟨y, hy, hr⟩ := ih hx
        exact ⟨y, List.mem_cons_of_mem _ hy, hr⟩

theorem exists_left {R : α → β → Prop} {xs : List α} {ys : List β} (h : List.Forall₂ R xs ys)
    {y : β} (hy : y ∈ ys) : ∃ x ∈ xs, R x y := by
  obtain ⟨x, hx, hr⟩ := exists_right h.flip hy
  exact ⟨x, hx, hr⟩

/-- The two lists around a pair. -/
theorem exists_split {R : α → β → Prop} {xs : List α} {ys : List β} (h : List.Forall₂ R xs ys)
    {x : α} (hx : x ∈ xs) : ∃ front y back front' back', xs = front ++ x :: back ∧
      ys = front' ++ y :: back' ∧ List.Forall₂ R front front' ∧ R x y ∧
      List.Forall₂ R back back' := by
  induction h with
  | nil => exact absurd hx List.not_mem_nil
  | @cons first first' rest rest' hxy hrest ih =>
      rcases List.mem_cons.mp hx with rfl | hx
      · exact ⟨[], first', rest, [], rest', rfl, rfl, .nil, hxy, hrest⟩
      · obtain ⟨front, y, back, front', back', rfl, rfl, hfront, hr, hback⟩ := ih hx
        exact ⟨first :: front, y, back, first' :: front', back', rfl, rfl, .cons hxy hfront, hr,
          hback⟩

/-- The two lists that a list in step with two consists of. -/
theorem exists_append {R : α → β → Prop} {xs ys : List α} {zs : List β}
    (h : List.Forall₂ R (xs ++ ys) zs) :
    ∃ us vs, zs = us ++ vs ∧ List.Forall₂ R xs us ∧ List.Forall₂ R ys vs :=
  ⟨_, _, (List.take_append_drop xs.length zs).symm,
    (List.forall₂_take_append _ _ _ h.flip).flip, (List.forall₂_drop_append _ _ _ h.flip).flip⟩

/-- Around an item that alone has its value, no other has that value. -/
theorem ne_of_nodup_filterMap {f : α → Option β} {front back : List α} {x : α} {y : β}
    (h : ((front ++ x :: back).filterMap f).Nodup) (hx : f x = some y) :
    ∀ other ∈ front ++ back, f other ≠ some y := by
  rw [List.filterMap_append, List.filterMap_cons_some hx, List.nodup_append, List.nodup_cons] at h
  obtain ⟨-, ⟨hback, -⟩, hfront⟩ := h
  intro other hmem hother
  rcases List.mem_append.mp hmem with hmem | hmem
  · exact hfront y (List.mem_filterMap.mpr ⟨other, hmem, hother⟩) y List.mem_cons_self rfl
  · exact hback (List.mem_filterMap.mpr ⟨other, hmem, hother⟩)

/-- Items with the same value are the same, if each value is had once. -/
theorem eq_of_nodup_filterMap {f : α → Option β} {xs : List α} (h : (xs.filterMap f).Nodup)
    {x other : α} (hx : x ∈ xs) (hother : other ∈ xs) {y : β} (hy : f x = some y)
    (hy' : f other = some y) : x = other := by
  by_contra hne
  have hpairs := List.pairwise_filterMap.mp h
  have hsymm : Std.Symm fun a b : α => ∀ y, f a = some y → ∀ y', f b = some y' → y ≠ y' :=
    ⟨fun _ _ hab y hy y' hy' heq => hab y' hy' y hy heq.symm⟩
  exact hpairs.forall hx hother hne y hy y hy' rfl

theorem imp_of_mem {R S : α → β → Prop} {xs : List α} {ys : List β} (h : List.Forall₂ R xs ys)
    (himp : ∀ x ∈ xs, ∀ y, R x y → S x y) : List.Forall₂ S xs ys := by
  induction h with
  | nil => exact .nil
  | cons hxy _ ih =>
      exact .cons (himp _ List.mem_cons_self _ hxy)
        (ih fun x hx => himp x (List.mem_cons_of_mem _ hx))

end QueryBatching.Outcomes
