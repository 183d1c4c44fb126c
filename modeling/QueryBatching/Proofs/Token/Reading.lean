/-
A scan as a relation.

A scan that meets no fault passes over blanks and comments and emits lexemes until nothing is left.
`Reads` has one rule for each of these steps and `reads_iff` says that there is nothing else to a
scan.  A comment takes its line along in one step, and so does a lexeme its characters, so an
induction over `Reads` never stops inside of either.
-/
import QueryBatching.Proofs.Outcomes
import QueryBatching.Proofs.Token.Writing

namespace QueryBatching.Token

open Lexeme (isIgnored isTerminator)

/-- From the location on, the characters are read as the tokens. -/
inductive Reads : Location → List Char → List Token → Prop
  | ended (here : Location) : Reads here [] [⟨.endOfInput, "", here.position⟩]
  | ignored {here : Location} {c : Char} {cs : List Char} {tokens : List Token}
      (hc : isIgnored c = true) (h : Reads (here.advance c) cs tokens) :
    Reads here (c :: cs) tokens
  | comment {here : Location} {text rest : List Char} {tokens : List Token}
      (htext : ∀ c ∈ text, isTerminator c = false)
      (hend : ∀ c ∈ rest.head?, isTerminator c = true)
      (h : Reads (here.advanceAll ('#' :: text)) rest tokens) :
    Reads here ('#' :: (text ++ rest)) tokens
  | lexeme {here : Location} {c : Char} {tail rest : List Char} {kind : Kind}
      {tokens : List Token} (hread : Lexeme.read c (tail ++ rest) = .ok (kind, tail))
      (h : Reads (here.advanceAll (c :: tail)) rest tokens) :
    Reads here (c :: (tail ++ rest)) (⟨kind, String.ofList (c :: tail), here.position⟩ :: tokens)

theorem isIgnored_of_isTerminator {c : Char} (h : isTerminator c = true) : isIgnored c = true := by
  simp only [isTerminator, Bool.or_eq_true, decide_eq_true_eq] at h
  rcases h with rfl | rfl <;> rfl

/-- A comment takes its line along and leaves the terminator. -/
theorem comment_spec (cs : List Char) :
    ∃ rest, cs = Lexeme.comment cs ++ rest ∧
      (∀ c ∈ Lexeme.comment cs, isTerminator c = false) ∧
      ∀ c ∈ rest.head?, isTerminator c = true := by
  refine ⟨cs.dropWhile fun c => !isTerminator c, List.takeWhile_append_dropWhile.symm, ?_, ?_⟩
  · intro c hc
    simpa using Lexeme.of_mem_takeWhile hc
  · intro c hc
    have hhead := List.head?_dropWhile_not (fun c => !isTerminator c) cs
    rw [Option.mem_def.mp hc] at hhead
    simpa using hhead

/-- A comment is all characters up to the end of its line. -/
theorem comment_append {text rest : List Char} (htext : ∀ c ∈ text, isTerminator c = false)
    (hend : ∀ c ∈ rest.head?, isTerminator c = true) : Lexeme.comment (text ++ rest) = text := by
  rw [Lexeme.comment, Lexeme.takeWhile_append_stop fun c hc => by rw [hend c hc]; rfl,
    Lexeme.takeWhile_eq_self fun c hc => by rw [htext c hc]; rfl]

/-- A comment is passed over. -/
theorem scanFrom_comment {text rest : List Char} (htext : ∀ c ∈ text, isTerminator c = false)
    (hend : ∀ c ∈ rest.head?, isTerminator c = true) (here : Location) :
    scanFrom 0 here ('#' :: (text ++ rest)) =
      scanFrom 0 (here.advanceAll ('#' :: text)) rest := by
  have hignored : isIgnored '#' = false := rfl
  rw [scanFrom, hignored, if_neg Bool.false_ne_true, if_pos rfl, comment_append htext hend,
    scanFrom_append, Location.advanceAll_cons]

theorem Reads.collect {here : Location} {cs : List Char} {tokens : List Token}
    (h : Reads here cs tokens) : Token.collect (scanFrom 0 here cs) = .ok tokens := by
  induction h with
  | ended here => rfl
  | ignored hc h ih => rw [scanFrom_ignored hc, ih]
  | comment htext hend h ih => rw [scanFrom_comment htext hend, ih]
  | lexeme hread h ih =>
      rw [scanFrom_lexeme hread, Token.collect, ih]
      rfl

/-- **A scan without a fault reads**, by one rule after another. -/
theorem reads_of_collect {here : Location} {cs : List Char} {tokens : List Token}
    (h : collect (scanFrom 0 here cs) = .ok tokens) : Reads here cs tokens := by
  -- What a step passes over may be long, so the induction is on how much there is to scan.
  induction hlength : cs.length using Nat.strong_induction_on generalizing here cs tokens with
  | _ length ih =>
    subst hlength
    cases cs with
    | nil =>
        obtain rfl := Except.ok.inj h
        exact .ended here
    | cons c cs =>
        have hshorter : ∀ {front rest : List Char}, cs = front ++ rest →
            rest.length < (c :: cs).length := by
          intro front rest heq
          rw [heq, List.length_cons, List.length_append]
          omega
        rw [scanFrom] at h
        split at h
        · rename_i hignored
          exact .ignored hignored (ih cs.length (hshorter (List.nil_append cs).symm) h rfl)
        · split at h
          · rename_i hhash
            subst hhash
            obtain ⟨rest, hcs, htext, hend⟩ := comment_spec cs
            generalize Lexeme.comment cs = text at h hcs htext
            subst hcs
            rw [scanFrom_append] at h
            exact .comment htext hend (ih rest.length (hshorter rfl) h rfl)
          · split at h
            · rename_i kind tail hread
              obtain ⟨rest, rfl⟩ := (Lexeme.read_stable hread).1
              rw [scanFrom_append, collect] at h
              obtain ⟨tokens, htokens, rfl⟩ := Outcomes.map_eq_ok.mp h
              exact .lexeme hread (ih rest.length (hshorter rfl) htokens rfl)
            · simp [collect] at h

/-- **Reading is what a scan does.** -/
theorem reads_iff {here : Location} {cs : List Char} {tokens : List Token} :
    Reads here cs tokens ↔ collect (scanFrom 0 here cs) = .ok tokens :=
  ⟨Reads.collect, reads_of_collect⟩

theorem tokenize_eq_ok_iff {source : String} {tokens : List Token} :
    tokenize source = .ok tokens ↔ Reads {} source.toList tokens := reads_iff.symm

end QueryBatching.Token
