/-
The names a merge makes up.

Variables get the number of their call in front, and keys and fragments that are taken get
a number behind.  Both ways a name stays a name, and it has an underscore in it, so it is
none of the words that mean something.  The numbers in front keep the variables of different
calls apart, and the search for a free name ends: the spellings it goes through are all
different, so one of them is free after as many as there are names in the way.
-/
import QueryBatching.Merge.Batch
import QueryBatching.Proofs.Document.Legal

namespace QueryBatching

open Lexeme (isNameStart isNamePart isDigit)
open Token (IsLexeme Kind)

/-! ### Characters of names -/

/-- The characters of a name, whether or not it is one of the constants. -/
def IsWord (text : String) : Prop :=
  ∃ c tail, text.toList = c :: tail ∧ isNameStart c = true ∧ ∀ d ∈ tail, isNamePart d = true

theorem ofSign?_ne_name (c : Char) : Kind.ofSign? c ≠ some .name := by
  unfold Kind.ofSign?
  split <;> simp

/-- A name is a word that is none of the constants. -/
theorem isName_iff {text : String} : IsName text ↔ IsWord text ∧ Kind.ofWord text = .name := by
  constructor
  · rintro ⟨c, tail, htext, hread⟩
    unfold Lexeme.read at hread
    split at hread
    · rename_i kind hsign
      simp only [Except.ok.injEq, Prod.mk.injEq] at hread
      exact absurd (hread.1 ▸ hsign) (ofSign?_ne_name c)
    · split at hread
      · obtain ⟨found, -, hpair⟩ := Outcomes.map_eq_ok.mp hread
        simp at hpair
      · split at hread
        · obtain ⟨found, -, hpair⟩ := Outcomes.map_eq_ok.mp hread
          simp at hpair
        · split at hread
          · rename_i hstart
            simp only [Except.ok.injEq, Prod.mk.injEq] at hread
            obtain ⟨hword, htail⟩ := hread
            refine ⟨⟨c, tail, htext, hstart, fun d hd => ?_⟩, ?_⟩
            · rw [← htail] at hd
              exact Lexeme.of_mem_takeWhile hd
            · rw [htail, ← htext, String.ofList_toList] at hword
              exact hword
          · split at hread
            · obtain ⟨⟨kind, found⟩, hnumber, hpair⟩ := Outcomes.map_eq_ok.mp hread
              obtain ⟨rfl, -⟩ := Prod.mk.inj hpair
              obtain ⟨_, _, part, power, -, -, -, hkind⟩ := Lexeme.numeral_of_number hnumber
              unfold Lexeme.numeralKind at hkind
              split at hkind <;> simp at hkind
            · simp at hread
  · rintro ⟨⟨c, tail, htext, hstart, htail⟩, hword⟩
    refine ⟨c, tail, htext, ?_⟩
    rw [Lexeme.read_word hstart htail, ← htext, String.ofList_toList, hword]

theorem isNamePart_of_isDigit {c : Char} (h : c.isDigit = true) : isNamePart c = true := by
  have hd : isDigit c = true := by
    simp only [Char.isDigit, ge_iff_le, Bool.and_eq_true, decide_eq_true_eq] at h
    simp only [isDigit, Bool.and_eq_true, decide_eq_true_eq]
    exact h
  simp [isNamePart, hd]

theorem toList_toString (n : Nat) : (toString n).toList = Nat.toDigits 10 n := Nat.toList_repr

theorem toString_nat_injective {m n : Nat} (h : toString m = toString n) : m = n := by
  have hdigits : Nat.toDigits 10 m = Nat.toDigits 10 n := by
    rw [← toList_toString, h, toList_toString]
  rw [← Nat.ofDigitChars_ten_toDigits (n := m), hdigits, Nat.ofDigitChars_ten_toDigits]

theorem isNamePart_of_mem_toString {n : Nat} {c : Char} (h : c ∈ (toString n).toList) :
    isNamePart c = true := by
  rw [toList_toString] at h
  exact isNamePart_of_isDigit (Nat.isDigit_of_mem_toDigits (by decide) (by decide) h)

theorem IsWord.isNamePart {text : String} (h : IsWord text) {c : Char} (hc : c ∈ text.toList) :
    isNamePart c = true := by
  obtain ⟨first, tail, htext, hstart, htail⟩ := h
  rw [htext] at hc
  rcases List.mem_cons.mp hc with rfl | hc
  · simp [Lexeme.isNamePart, hstart]
  · exact htail c hc

/-- A word with an underscore in it is a name that a fragment can have. -/
theorem IsWord.isFragmentName {text : String} (h : IsWord text) (hmark : '_' ∈ text.toList) :
    IsFragmentName text := by
  have hne : ∀ other : String, '_' ∉ other.toList → text ≠ other := by
    rintro other hother rfl
    exact hother hmark
  refine ⟨isName_iff.mpr ⟨h, ?_⟩, hne "on" (by decide)⟩
  rw [Kind.ofWord, if_neg (hne "true" (by decide)), if_neg (hne "false" (by decide)),
    if_neg (hne "null" (by decide))]

/-- A name with something behind it that has an underscore. -/
theorem IsName.append {name : String} (h : IsName name) {behind : String}
    (hparts : ∀ c ∈ behind.toList, isNamePart c = true) (hmark : '_' ∈ behind.toList) :
    IsFragmentName (name ++ behind) := by
  obtain ⟨⟨c, tail, htext, hstart, htail⟩, -⟩ := isName_iff.mp h
  refine IsWord.isFragmentName ⟨c, tail ++ behind.toList, ?_, hstart, ?_⟩ ?_
  · rw [String.toList_append, htext, List.cons_append]
  · intro d hd
    rcases List.mem_append.mp hd with hd | hd
    · exact htail d hd
    · exact hparts d hd
  · rw [String.toList_append]
    exact List.mem_append_right _ hmark

/-! ### Numbers behind a name -/

/-- A number with an underscore in front is something a name can go on with. -/
theorem isNamePart_of_mem_numbered {n : Nat} {c : Char} (h : c ∈ ("_" ++ toString n).toList) :
    isNamePart c = true := by
  rw [String.toList_append] at h
  rcases List.mem_append.mp h with hc | hc
  · obtain rfl : c = '_' := by simpa using hc
    decide
  · exact isNamePart_of_mem_toString hc

theorem mark_mem_numbered (n : Nat) : '_' ∈ ("_" ++ toString n).toList := by
  rw [String.toList_append]
  exact List.mem_append_left _ (by decide)

/-- A name with a number behind it. -/
theorem IsName.numbered {name : String} (h : IsName name) (n : Nat) :
    IsFragmentName (name ++ "_" ++ toString n) := by
  rw [String.append_assoc]
  exact h.append (fun _ => isNamePart_of_mem_numbered) (mark_mem_numbered n)

/-- What stands behind the last underscore is the number. -/
theorem numbered_injective {a b : String} {m n : Nat}
    (h : a ++ "_" ++ toString m = b ++ "_" ++ toString n) : a = b ∧ m = n := by
  have hlist : (Nat.toDigits 10 m).reverse ++ '_' :: a.toList.reverse =
      (Nat.toDigits 10 n).reverse ++ '_' :: b.toList.reverse := by
    have hchars := congrArg (fun text : String => text.toList.reverse) h
    simp only [String.toList_append, toList_toString] at hchars
    simpa using hchars
  have hsplit : ∀ (n : Nat) (rest : List Char),
      ((Nat.toDigits 10 n).reverse ++ '_' :: rest).takeWhile Char.isDigit =
        (Nat.toDigits 10 n).reverse := by
    intro n rest
    rw [List.takeWhile_append_of_pos fun c hc =>
      Nat.isDigit_of_mem_toDigits (by decide) (by decide) (List.mem_reverse.mp hc)]
    simp
  have hdigits : (Nat.toDigits 10 m).reverse = (Nat.toDigits 10 n).reverse := by
    rw [← hsplit m a.toList.reverse, hlist, hsplit]
  refine ⟨?_, toString_nat_injective (String.toList_inj.mp ?_)⟩
  · rw [hdigits] at hlist
    exact String.toList_inj.mp
      (List.reverse_inj.mp (List.cons.inj (List.append_cancel_left hlist)).2)
  · rw [toList_toString, toList_toString, List.reverse_inj.mp hdigits]

/-- A text is not itself with an underscore, and whatever else, behind it. -/
theorem ne_marked (text behind : String) : text ≠ text ++ "_" ++ behind := by
  intro h
  have hlength := congrArg (fun text : String => text.toList.length) h
  simp only [String.toList_append, List.length_append] at hlength
  have hmark : "_".toList.length = 1 := by decide
  omega

theorem ne_numbered (name : String) (n : Nat) : name ≠ name ++ "_" ++ toString n :=
  ne_marked name (toString n)

/-! ### Variables -/

theorem isName_variableName (call : Nat) {name : String} (h : IsName name) :
    IsName (variableName call name) := by
  refine (IsWord.isFragmentName ⟨'c', (toString call ++ "_" ++ name).toList, ?_, by decide, ?_⟩
    ?_).name
  · rw [variableName, String.append_assoc, String.append_assoc, String.toList_append,
      ← String.append_assoc]
    rfl
  · intro c hc
    rw [String.toList_append, String.toList_append] at hc
    rcases List.mem_append.mp hc with hc | hc
    · rcases List.mem_append.mp hc with hc | hc
      · exact isNamePart_of_mem_toString hc
      · obtain rfl : c = '_' := by simpa using hc
        decide
    · exact (isName_iff.mp h).1.isNamePart hc
  · rw [variableName, String.toList_append, String.toList_append]
    exact List.mem_append_left _ (List.mem_append_right _ (by decide))

/-- What stands in front of the first underscore of a merged variable says whose it is. -/
theorem variableName_injective {call other : Nat} {name name' : String}
    (h : variableName call name = variableName other name') : call = other ∧ name = name' := by
  have hlist : Nat.toDigits 10 call ++ '_' :: name.toList =
      Nat.toDigits 10 other ++ '_' :: name'.toList := by
    have hchars := congrArg String.toList h
    simp only [variableName, String.toList_append, toList_toString] at hchars
    simpa using hchars
  have hsplit : ∀ (n : Nat) (rest : List Char),
      (Nat.toDigits 10 n ++ '_' :: rest).takeWhile Char.isDigit = Nat.toDigits 10 n := by
    intro n rest
    rw [List.takeWhile_append_of_pos fun c hc =>
      Nat.isDigit_of_mem_toDigits (by decide) (by decide) hc]
    simp
  have hdigits : Nat.toDigits 10 call = Nat.toDigits 10 other := by
    rw [← hsplit call name.toList, hlist, hsplit]
  refine ⟨?_, ?_⟩
  · refine toString_nat_injective (String.toList_inj.mp ?_)
    rw [toList_toString, hdigits, toList_toString]
  · rw [hdigits] at hlist
    exact String.toList_inj.mp (List.cons.inj (List.append_cancel_left hlist)).2

/-! ### Free names -/

namespace FreshName

/-- Different numbers make different spellings. -/
theorem spelling_injective {base : String} {count other : Nat}
    (h : spelling base count = spelling base other) : count = other := by
  cases count with
  | zero =>
      cases other with
      | zero => rfl
      | succ other => exact absurd h (ne_numbered base (other + 2))
  | succ count =>
      cases other with
      | zero => exact absurd h.symm (ne_numbered base (count + 2))
      | succ other =>
          simp only [spelling] at h
          have hnumbers : toString (count + 2) = toString (other + 2) := by
            have hchars := congrArg String.toList h
            simp only [String.toList_append] at hchars
            exact String.toList_inj.mp (List.append_cancel_left hchars)
          have := toString_nat_injective hnumbers
          omega

/-- A name is none of the spellings with a number behind it. -/
theorem ne_spelling (name : String) (n count : Nat) :
    name ≠ spelling (name ++ "_" ++ toString n) count := by
  cases count with
  | zero => exact ne_numbered name n
  | succ count =>
      have hbehind : spelling (name ++ "_" ++ toString n) (count + 1) =
          name ++ "_" ++ (toString n ++ ("_" ++ toString (count + 2))) := by
        simp only [spelling, String.append_assoc]
      rw [hbehind]
      exact ne_marked name _

/-- Spellings of numbered names are the same only if the names and the numbers are, or one of the
names is the other one with its number. -/
theorem cases_of_spelling_eq {a b : String} {m n count other : Nat}
    (h : spelling (a ++ "_" ++ toString m) count = spelling (b ++ "_" ++ toString n) other) :
    (a = b ∧ m = n) ∨ a = b ++ "_" ++ toString n ∨ b = a ++ "_" ++ toString m := by
  cases count with
  | zero =>
      cases other with
      | zero => exact .inl (numbered_injective h)
      | succ other => exact .inr (.inl (numbered_injective h).1)
  | succ count =>
      cases other with
      | zero => exact .inr (.inr (numbered_injective h).1.symm)
      | succ other => exact .inl (numbered_injective (numbered_injective h).1)

theorem isFragmentName_spelling {base : String} (h : IsFragmentName base) (count : Nat) :
    IsFragmentName (spelling base count) := by
  cases count with
  | zero => exact h
  | succ count => exact h.name.numbered (count + 2)

/-- A search gives one of the spellings, and those that it passes over do not fit. -/
theorem exists_search_first (fits : String → Bool) (base : String) (attempts first : Nat) :
    ∃ count, first ≤ count ∧ search fits base attempts first = spelling base count ∧
      ∀ other, first ≤ other → other < count → fits (spelling base other) = false := by
  induction attempts generalizing first with
  | zero => exact ⟨first, le_rfl, rfl, fun other hle hlt => absurd hlt (Nat.not_lt.mpr hle)⟩
  | succ attempts ih =>
      rw [search]
      split
      · exact ⟨first, le_rfl, rfl, fun other hle hlt => absurd hlt (Nat.not_lt.mpr hle)⟩
      · rename_i hno
        obtain ⟨count, hle, hcount, hpassed⟩ := ih (first + 1)
        refine ⟨count, by omega, hcount, fun other hfrom hlt => ?_⟩
        by_cases hfirst : other = first
        · subst hfirst
          simpa using hno
        · exact hpassed other (by omega) hlt

/-- A search gives one of the spellings. -/
theorem exists_search_eq (fits : String → Bool) (base : String) (attempts first : Nat) :
    ∃ count, search fits base attempts first = spelling base count := by
  obtain ⟨count, -, hcount, -⟩ := exists_search_first fits base attempts first
  exact ⟨count, hcount⟩

/-- Searches that find names that fit find the same one where the same spellings fit. -/
theorem search_congr {fits fits' : String → Bool} {base : String} {attempts attempts' first : Nat}
    (hsame : ∀ count, fits (spelling base count) = fits' (spelling base count))
    (h : fits (search fits base attempts first) = true)
    (h' : fits' (search fits' base attempts' first) = true) :
    search fits base attempts first = search fits' base attempts' first := by
  obtain ⟨count, hle, hcount, hpassed⟩ := exists_search_first fits base attempts first
  obtain ⟨count', hle', hcount', hpassed'⟩ := exists_search_first fits' base attempts' first
  rw [hcount] at h ⊢
  rw [hcount'] at h' ⊢
  rcases Nat.lt_trichotomy count count' with hlt | rfl | hlt
  · rw [hsame, hpassed' count hle hlt] at h
    exact absurd h Bool.false_ne_true
  · rfl
  · rw [← hsame, hpassed count' hle' hlt] at h'
    exact absurd h' Bool.false_ne_true

/-- **A search finds a name that fits** where no more names do not fit than it has attempts. -/
theorem fits_search {fits : String → Bool} {base : String} {attempts first : Nat}
    {taken : List String} (hlen : taken.length ≤ attempts)
    (htaken : ∀ count, first ≤ count → fits (spelling base count) = false →
      spelling base count ∈ taken) : fits (search fits base attempts first) = true := by
  induction attempts generalizing first taken with
  | zero =>
      obtain rfl : taken = [] := List.length_eq_zero_iff.mp (Nat.le_zero.mp hlen)
      rw [search]
      by_contra hno
      exact List.not_mem_nil (htaken first le_rfl (by simpa using hno))
  | succ attempts ih =>
      rw [search]
      split
      · assumption
      · rename_i hno
        have hmem := htaken first le_rfl (by simpa using hno)
        -- The spelling that does not fit is in the way only once.
        refine @ih (first + 1) (taken.erase (spelling base first)) ?_ fun count hcount hbad => ?_
        · rw [List.length_erase_of_mem hmem]
          omega
        · refine (List.mem_erase_of_ne fun heq => ?_).mpr (htaken count (by omega) hbad)
          have := spelling_injective heq
          omega

/-- **The name that is found is not taken.** -/
theorem find_notMem (base : String) (taken : List String) : find base taken ∉ taken := by
  have hfits := @fits_search (fun name => decide (name ∉ taken)) base taken.length 0 taken le_rfl
    fun count _ hno => by simpa using hno
  simpa [find] using hfits

/-- All spellings before the one that is found are taken. -/
theorem exists_find_first (base : String) (taken : List String) :
    ∃ count, find base taken = spelling base count ∧
      ∀ other < count, spelling base other ∈ taken := by
  obtain ⟨count, -, hcount, hpassed⟩ :=
    exists_search_first (fun name => name ∉ taken) base taken.length 0
  refine ⟨count, hcount, fun other hlt => ?_⟩
  simpa using hpassed other (Nat.zero_le other) hlt

theorem isName_find {base : String} (h : IsFragmentName base) (taken : List String) :
    IsName (find base taken) := by
  obtain ⟨count, hcount⟩ := exists_search_eq (fun name => name ∉ taken) base taken.length 0
  rw [find, hcount]
  exact (isFragmentName_spelling h count).name

end FreshName

end QueryBatching
