/-
Association lists that keep the order in which keys were first written.

Responses, variables, fragment definitions and path entries are all read back in
the order they were written, and a key written twice keeps its first place and its
last value.  A plain list of pairs says exactly that: its order is the order a
reader sees, so nothing has to be stated about an order hidden behind it.

`get?_insert` and `keys_insert` are the two facts the rest of the library uses.
Everything else about `insert` follows from them.
-/

namespace QueryBatching

/-- Pairs of a key and a value, in the order in which the keys were first written. -/
abbrev Assoc (κ ν : Type) := List (κ × ν)

namespace Assoc

variable {κ ν : Type} [DecidableEq κ]

/-- The value stored under `key`, if there is one. -/
def get? : Assoc κ ν → κ → Option ν
  | [], _ => none
  | (k, v) :: rest, key => if k = key then some v else get? rest key

/-- Whether a value is stored under `key`. -/
def contains (entries : Assoc κ ν) (key : κ) : Bool := (get? entries key).isSome

/-- The keys, in the order in which they were first written. -/
def keys (entries : Assoc κ ν) : List κ := entries.map Prod.fst

/-- The values, in the order of their keys. -/
def values (entries : Assoc κ ν) : List ν := entries.map Prod.snd

/-- Writes `value` under `key`: in place if the key is there already, else at the end. -/
def insert : Assoc κ ν → κ → ν → Assoc κ ν
  | [], key, value => [(key, value)]
  | (k, v) :: rest, key, value =>
    if k = key then (k, value) :: rest else (k, v) :: insert rest key value

/-- Writes `value` under `key` unless the key is there already. -/
def insertNew (entries : Assoc κ ν) (key : κ) (value : ν) : Assoc κ ν :=
  if contains entries key then entries else entries ++ [(key, value)]

/-- Adds `value` at the end of the list stored under `key`, which starts out empty. -/
def push (entries : Assoc κ (List ν)) (key : κ) (value : ν) : Assoc κ (List ν) :=
  insert entries key ((get? entries key).getD [] ++ [value])

/-- A write is seen under its own key and nowhere else. -/
theorem get?_insert (entries : Assoc κ ν) (key other : κ) (value : ν) :
    get? (insert entries key value) other =
      if key = other then some value else get? entries other := by
  induction entries with
  | nil => rfl
  | cons entry rest ih =>
    obtain ⟨k, v⟩ := entry
    by_cases hk : k = key
    · subst hk
      by_cases ho : k = other <;> simp [insert, get?, ho]
    · have hi : insert ((k, v) :: rest) key value = (k, v) :: insert rest key value := by
        simp [insert, hk]
      by_cases hko : k = other
      · have ho : ¬ key = other := fun h => hk (hko.trans h.symm)
        rw [hi]
        simp [get?, hko, ho]
      · simp [hi, get?, hko, ih]

/-- A key is stored exactly when it is among the keys. -/
theorem contains_iff_mem_keys (entries : Assoc κ ν) (key : κ) :
    contains entries key = true ↔ key ∈ keys entries := by
  induction entries with
  | nil => simp [contains, get?, keys]
  | cons entry rest ih =>
    obtain ⟨k, v⟩ := entry
    by_cases hk : k = key
    · simp [contains, get?, keys, hk]
    · have hk' : ¬ key = k := fun h => hk h.symm
      simpa [contains, get?, keys, hk, hk'] using ih

/-- A write adds its key at the end when it is new, and moves no key. -/
theorem keys_insert (entries : Assoc κ ν) (key : κ) (value : ν) :
    keys (insert entries key value) =
      if key ∈ keys entries then keys entries else keys entries ++ [key] := by
  induction entries with
  | nil => simp [insert, keys]
  | cons entry rest ih =>
    obtain ⟨k, v⟩ := entry
    by_cases hk : k = key
    · simp [insert, keys, hk]
    · have hk' : ¬ key = k := fun h => hk h.symm
      have ih' : List.map Prod.fst (insert rest key value) =
          if key ∈ List.map Prod.fst rest then List.map Prod.fst rest
          else List.map Prod.fst rest ++ [key] := ih
      by_cases hm : key ∈ List.map Prod.fst rest
      · rw [if_pos hm] at ih'
        have hmem : key ∈ keys ((k, v) :: rest) := List.mem_cons_of_mem _ hm
        rw [if_pos hmem]
        simp only [insert, if_neg hk, keys, List.map_cons, ih']
      · rw [if_neg hm] at ih'
        have hmem : key ∉ keys ((k, v) :: rest) := by
          intro h
          rcases List.mem_cons.mp h with h | h
          · exact hk' h
          · exact hm h
        rw [if_neg hmem]
        simp only [insert, if_neg hk, keys, List.map_cons, ih', List.cons_append]

end Assoc

end QueryBatching
