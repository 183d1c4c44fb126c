/-
Merging files is merging queries.

There are two ways from sources to a merged query.  One reads the queries one after another and
stops at the first that is no call; the other reads every file, and either has all the calls or
reports on each file that is none.  Both number the calls alike, so they merge the same calls, and
the first error of the one is the first report of the other.

The files' output is trimmed at its end.  A canonical text ends in a brace, so of the query
nothing is taken away, and of what follows the query there is always something left that keeps the
blanks before it.

In one thing they are apart.  A report shows where in its line a parse error stands, and if that
is further out than widths go, there is no report and no answer for any of the files; merging the
queries shows no lines and answers all the same.
-/
import Mathlib.Data.List.DropRight
import QueryBatching.CommandLine.QueryFiles
import QueryBatching.Proofs.Document.Trees
import QueryBatching.Proofs.Merge.WellFormed
import QueryBatching.Proofs.Token.Carets

namespace QueryBatching

/-! ### Trimming -/

namespace Text

/-- The text ends in a character that can be seen. -/
def EndsVisibly (text : String) : Prop :=
  ∃ front c, text.toList = front ++ [c] ∧ isBlank c = false

theorem EndsVisibly.append {text : String} (h : EndsVisibly text) (before : String) :
    EndsVisibly (before ++ text) := by
  obtain ⟨front, c, hlist, hc⟩ := h
  exact ⟨before.toList ++ front, c, by rw [String.toList_append, hlist, List.append_assoc], hc⟩

theorem EndsVisibly.intercalate {separator : String} {texts : List String} (hne : texts ≠ [])
    (h : ∀ text ∈ texts, EndsVisibly text) : EndsVisibly (separator.intercalate texts) := by
  induction texts with
  | nil => exact absurd rfl hne
  | cons first rest ih =>
      rw [List.forall_mem_cons] at h
      cases rest with
      | nil =>
          rw [String.intercalate_singleton]
          exact h.1
      | cons next rest =>
          rw [String.intercalate_cons_cons, String.append_assoc]
          exact ((ih (by simp) h.2).append _).append _

theorem trimEnd_eq_rdropWhile (text : String) :
    trimEnd text = String.ofList (text.toList.rdropWhile isBlank) := rfl

theorem trimEnd_of_endsVisibly {text : String} (h : EndsVisibly text) : trimEnd text = text := by
  obtain ⟨front, c, hlist, hc⟩ := h
  rw [trimEnd_eq_rdropWhile, hlist, List.rdropWhile_concat_neg _ _ _ (by simp [hc]), ← hlist,
    String.ofList_toList]

/-- What stands before something visible is not trimmed. -/
theorem trimEnd_append (text : String) {more : String} (h : ∃ c ∈ more.toList, isBlank c = false) :
    trimEnd (text ++ more) = text ++ trimEnd more := by
  obtain ⟨c, hmem, hc⟩ := h
  have hrest : more.toList.reverse.dropWhile isBlank ≠ [] := by
    intro hnil
    have := List.dropWhile_eq_nil_iff.mp hnil c (by simpa using hmem)
    simp [hc] at this
  unfold trimEnd
  rw [String.toList_append, List.reverse_append, List.dropWhile_append,
    if_neg (by simpa using hrest), List.reverse_append, List.reverse_reverse, String.ofList_append,
    String.ofList_toList]

end Text

open Text (EndsVisibly)

/-! ### How canonical texts end -/

theorem Selection.endsVisibly_setText (selections : List Selection) :
    EndsVisibly (Selection.setText selections) := by
  have hbrace : EndsVisibly " \x7d" := ⟨[' '], '\x7d', by decide, by decide⟩
  unfold Selection.setText Selection.braced
  split
  · exact ⟨['\x7b', ' '], '\x7d', by decide, by decide⟩
  · exact hbrace.append _

theorem Operation.endsVisibly_text (operation : Operation) : EndsVisibly operation.text :=
  (Selection.endsVisibly_setText operation.selections).append _

theorem Fragment.endsVisibly_text (fragment : Fragment) : EndsVisibly fragment.text :=
  (Selection.endsVisibly_setText fragment.selections).append _

theorem MergedBatch.endsVisibly_text (batch : MergedBatch) : EndsVisibly batch.text := by
  refine .intercalate (List.cons_ne_nil _ _) (List.forall_mem_cons.mpr ⟨?_, ?_⟩)
  · exact batch.operation.endsVisibly_text
  · exact List.forall_mem_map.mpr fun fragment _ => fragment.endsVisibly_text

/-! ### Files that are no calls -/

namespace QueryFile

/-- The files that are no calls, in order and each with what is wrong with it, where they are
numbered from `index` on. -/
def failuresFrom (index : Nat) (files : List QueryFile) : List (QueryFile × SyntaxError) :=
  (files.zipIdx index).filterMap fun (file, index) =>
    match CallDocument.parse index file.source with
    | .ok _ => none
    | .error error => some (file, error)

theorem failuresFrom_cons_of_ok {index : Nat} {file : QueryFile} {call : CallDocument}
    (h : CallDocument.parse index file.source = .ok call) (rest : List QueryFile) :
    failuresFrom index (file :: rest) = failuresFrom (index + 1) rest := by
  simp only [failuresFrom, List.zipIdx_cons, List.filterMap_cons, h]

theorem failuresFrom_cons_of_error {index : Nat} {file : QueryFile} {error : SyntaxError}
    (h : CallDocument.parse index file.source = .error error) (rest : List QueryFile) :
    failuresFrom index (file :: rest) = (file, error) :: failuresFrom (index + 1) rest := by
  simp only [failuresFrom, List.zipIdx_cons, List.filterMap_cons, h]

/-- Reading every file finds all those that are no calls. -/
theorem readFrom_snd (index : Nat) (files : List QueryFile) :
    (readFrom index files).2 = failuresFrom index files := by
  induction files generalizing index with
  | nil => rfl
  | cons file rest ih =>
      rw [readFrom]
      cases h : CallDocument.parse index file.source with
      | ok call => rw [failuresFrom_cons_of_ok h, ← ih]
      | error error => rw [failuresFrom_cons_of_error h, ← ih]

/-- Reading the sources one after another stops at the first of them. -/
theorem callsFrom_sources (index : Nat) (files : List QueryFile) :
    callsFrom index (files.map source) =
      match failuresFrom index files with
      | [] => .ok (readFrom index files).1
      | (_, error) :: _ => .error (.ofSyntax error) := by
  induction files generalizing index with
  | nil => rfl
  | cons file rest ih =>
      rw [List.map_cons, callsFrom, readFrom]
      cases h : CallDocument.parse index file.source with
      | error error => rw [failuresFrom_cons_of_error h]
      | ok call =>
          rw [failuresFrom_cons_of_ok h]
          dsimp only
          rw [ih]
          cases failuresFrom (index + 1) rest <;> rfl

/-! ### Reports -/

/-- The file is no call because of a parse error, which stands in a line of it, and further out in
that line than widths go. -/
def FarOut (file : QueryFile) : SyntaxError → Prop
  | .lex _ => False
  | .parse error => (Source.line? file.source error.position.line).isSome ∧
      Text.maxWidth < error.position.column

instance decidableFarOut (file : QueryFile) : (error : SyntaxError) → Decidable (file.FarOut error)
  | .lex _ => isFalse id
  | .parse _ => inferInstanceAs (Decidable (_ ∧ _))

theorem report?_eq_none_iff {file : QueryFile} {error : SyntaxError} :
    file.report? error = none ↔ file.FarOut error := by
  cases error with
  | lex error => simp [report?, FarOut]
  | parse error =>
      rw [report?, Option.map_eq_none_iff, Diagnostic.detailed?_eq_none_iff]
      rfl

theorem answer?_eq_ok_iff {files : List QueryFile} {showMapping : Bool} {output : String} :
    answer? files showMapping = some (.ok output) ↔ merge files showMapping = .ok output := by
  unfold answer?
  cases merge files showMapping <;> simp

theorem answer?_of_error {files : List QueryFile} {showMapping : Bool} {error : QueryFilesError}
    (h : merge files showMapping = .error error) :
    answer? files showMapping = error.message?.map .error := by
  rw [answer?, h]

/-! ### The two drivers -/

variable {files : List QueryFile} {failure : QueryFile × SyntaxError}
  {rest : List (QueryFile × SyntaxError)} {reason : MergeError} {merged : MergedBatch}

theorem merge_of_failures (h : failuresFrom 0 files = failure :: rest) (showMapping : Bool) :
    merge files showMapping = .error (.unreadable (failure :: rest)) := by
  rw [← readFrom_snd] at h
  unfold merge batch
  rcases hread : readFrom 0 files with ⟨calls, failures⟩
  obtain rfl : failures = failure :: rest := by simpa only [hread] using h
  rfl

theorem mergeQueries_of_failures (h : failuresFrom 0 files = failure :: rest) :
    mergeQueries (files.map source) = .error (.ofSyntax failure.2) := by
  rw [mergeQueries, callsFrom_sources, h]

theorem batch_of_calls (h : failuresFrom 0 files = []) :
    batch files = (MergedBatch.ofCalls (readFrom 0 files).1).mapError .unmerged := by
  rw [← readFrom_snd] at h
  unfold batch
  rcases hread : readFrom 0 files with ⟨calls, failures⟩
  obtain rfl : failures = [] := by simpa only [hread] using h
  rfl

theorem merge_of_unmerged (h : failuresFrom 0 files = [])
    (hmerged : MergedBatch.ofCalls (readFrom 0 files).1 = .error reason) (showMapping : Bool) :
    merge files showMapping = .error (.unmerged reason) := by
  rw [merge, batch_of_calls h, hmerged]
  rfl

theorem mergeQueries_of_unmerged (h : failuresFrom 0 files = [])
    (hmerged : MergedBatch.ofCalls (readFrom 0 files).1 = .error reason) :
    mergeQueries (files.map source) = .error (.merge reason) := by
  rw [mergeQueries, callsFrom_sources, h]
  dsimp only
  rw [hmerged]

theorem merge_of_merged (h : failuresFrom 0 files = [])
    (hmerged : MergedBatch.ofCalls (readFrom 0 files).1 = .ok merged) (showMapping : Bool) :
    merge files showMapping = .ok (output files showMapping merged) := by
  rw [merge, batch_of_calls h, hmerged]
  rfl

theorem mergeQueries_of_merged (h : failuresFrom 0 files = [])
    (hmerged : MergedBatch.ofCalls (readFrom 0 files).1 = .ok merged) :
    mergeQueries (files.map source) = .ok merged.text :=
  MergedBatch.mergeQueries_eq_ok.mpr ⟨_, merged, by rw [callsFrom_sources, h], hmerged, rfl⟩

/-- No calls are never merged. -/
theorem ne_nil_of_merged (h : MergedBatch.ofCalls (readFrom 0 files).1 = .ok merged) :
    files ≠ [] := by
  intro hnil
  subst hnil
  cases h

theorem output_false : output files false merged = merged.text := by
  show Text.trimEnd (merged.text ++ "") = merged.text
  rw [String.append_empty, Text.trimEnd_of_endsVisibly merged.endsVisibly_text]

/-- Of the table of files something is always left. -/
theorem output_true (hne : files ≠ []) :
    output files true merged =
      merged.text ++ "\n\n" ++ Text.trimEnd (mappingText files merged.mapping) := by
  have hvisible : ∃ c ∈ (mappingText files merged.mapping).toList, Text.isBlank c = false := by
    obtain ⟨first, rest, rfl⟩ := List.exists_cons_of_ne_nil hne
    refine ⟨'#', ?_, by decide⟩
    simp [mappingText, List.zipIdx_cons, String.join_cons]
  show Text.trimEnd (merged.text ++ ("\n\n" ++ mappingText files merged.mapping)) = _
  rw [← String.append_assoc, Text.trimEnd_append _ hvisible]

/-- **The answer is one report for each file that is no call**, unless one of the errors is too far
out to be shown. -/
theorem answer?_of_failures (h : failuresFrom 0 files = failure :: rest) (showMapping : Bool) :
    ((∃ reports, List.Forall₂ (fun failed report => failed.1.report? failed.2 = some report)
        (failuresFrom 0 files) reports ∧
      answer? files showMapping = some (.error ("\n".intercalate reports))) ↔
        ∀ failed ∈ failuresFrom 0 files, ¬ failed.1.FarOut failed.2) ∧
    (answer? files showMapping = none ↔
      ∃ failed ∈ failuresFrom 0 files, failed.1.FarOut failed.2) := by
  have hanswer := answer?_of_error (merge_of_failures h showMapping)
  rw [QueryFilesError.message?, ← h] at hanswer
  have hnone : answer? files showMapping = none ↔
      ∃ failed ∈ failuresFrom 0 files, failed.1.FarOut failed.2 := by
    rw [hanswer, Option.map_eq_none_iff, Option.map_eq_none_iff, Outcomes.mapM_eq_none_iff]
    simp only [report?_eq_none_iff]
  refine ⟨⟨?_, fun hnear => ?_⟩, hnone⟩
  · rintro ⟨reports, -, hreports⟩ failed hmem hfar
    rw [hnone.mpr ⟨failed, hmem, hfar⟩] at hreports
    exact Option.some_ne_none _ hreports.symm
  · have hsome : answer? files showMapping ≠ none := by
      rw [Ne, hnone]
      rintro ⟨failed, hmem, hfar⟩
      exact hnear failed hmem hfar
    rw [hanswer, Ne, Option.map_eq_none_iff, Option.map_eq_none_iff] at hsome
    obtain ⟨reports, hreports⟩ := Option.ne_none_iff_exists'.mp hsome
    refine ⟨reports, Outcomes.forall₂_of_mapM_eq_some hreports, ?_⟩
    rw [hanswer, hreports]
    rfl

theorem answer?_of_unmerged (h : failuresFrom 0 files = [])
    (hmerged : MergedBatch.ofCalls (readFrom 0 files).1 = .error reason) (showMapping : Bool) :
    answer? files showMapping = some (.error ("Failed to merge queries: " ++ reason.message)) :=
  answer?_of_error (merge_of_unmerged h hmerged showMapping)

/--
**Merging files agrees with merging queries**, if the errors can be shown.  Without the mapping they
give the same text for the same inputs, and with it that text and behind it the table.  If files
are no calls, merging the queries fails with the error of the first; merging the files answers with
one report on each of them, exactly if none of the errors is further out in its line than widths
go, and with nothing otherwise.  If all files are calls, both succeed or fail with the same error
of the merge.
-/
theorem merge_agrees_iff (files : List QueryFile) :
    (∀ text, answer? files false = some (.ok text) ↔
      mergeQueries (files.map source) = .ok text) ∧
    (∀ text, mergeQueries (files.map source) = .ok text → ∃ mapping,
      answer? files true =
        some (.ok (text ++ "\n\n" ++ Text.trimEnd (mappingText files mapping)))) ∧
    ((∃ text, answer? files true = some (.ok text)) ↔
      ∃ text, mergeQueries (files.map source) = .ok text) ∧
    (∀ file error rest, failuresFrom 0 files = (file, error) :: rest →
      mergeQueries (files.map source) = .error (.ofSyntax error) ∧
      ∀ showMapping,
        ((∃ reports, List.Forall₂ (fun failed report => failed.1.report? failed.2 = some report)
            (failuresFrom 0 files) reports ∧
          answer? files showMapping = some (.error ("\n".intercalate reports))) ↔
            ∀ failed ∈ failuresFrom 0 files, ¬ failed.1.FarOut failed.2) ∧
        (answer? files showMapping = none ↔
          ∃ failed ∈ failuresFrom 0 files, failed.1.FarOut failed.2)) ∧
    (failuresFrom 0 files = [] →
      (∃ reason, mergeQueries (files.map source) = .error (.merge reason) ∧
        ∀ showMapping, merge files showMapping = .error (.unmerged reason) ∧
          answer? files showMapping =
            some (.error ("Failed to merge queries: " ++ reason.message))) ∨
      ((∃ text, mergeQueries (files.map source) = .ok text) ∧
        ∀ showMapping, ∃ text, answer? files showMapping = some (.ok text))) := by
  simp only [answer?_eq_ok_iff]
  cases hfailures : failuresFrom 0 files with
  | cons failure rest =>
      rw [mergeQueries_of_failures hfailures, merge_of_failures hfailures,
        merge_of_failures hfailures, ← hfailures]
      refine ⟨by simp, by simp, by simp, ?_, fun hnil => ?_⟩
      · intro file error others hcons
        obtain ⟨rfl, rfl⟩ := List.cons.inj (hfailures.symm.trans hcons)
        exact ⟨rfl, answer?_of_failures hfailures⟩
      · rw [hfailures] at hnil
        cases hnil
  | nil =>
      cases hmerged : MergedBatch.ofCalls (readFrom 0 files).1 with
      | error reason =>
          rw [mergeQueries_of_unmerged hfailures hmerged, merge_of_unmerged hfailures hmerged,
            merge_of_unmerged hfailures hmerged]
          refine ⟨by simp, by simp, by simp, by simp, fun _ => .inl ⟨reason, rfl, ?_⟩⟩
          exact fun showMapping => ⟨merge_of_unmerged hfailures hmerged showMapping,
            answer?_of_unmerged hfailures hmerged showMapping⟩
      | ok merged =>
          rw [mergeQueries_of_merged hfailures hmerged, merge_of_merged hfailures hmerged,
            merge_of_merged hfailures hmerged, output_false,
            output_true (ne_nil_of_merged hmerged)]
          refine ⟨by simp, ?_, by simp, by simp, fun _ => .inr ⟨⟨_, rfl⟩, fun showMapping => ?_⟩⟩
          · intro text htext
            obtain rfl := Except.ok.inj htext
            exact ⟨merged.mapping, rfl⟩
          · exact ⟨_, merge_of_merged hfailures hmerged showMapping⟩

/-- A call, a file that ends too early and one with a character that begins no token. -/
def mixedFiles : List QueryFile :=
  [⟨"a.graphql", "\x7b a \x7d"⟩, ⟨"b.graphql", "query \x7b"⟩, ⟨"c.graphql", "\x7b c % \x7d"⟩]

/-- Two calls, the second in a file whose path ends in a blank. -/
def goodFiles : List QueryFile :=
  [⟨"a.graphql", "\x7b a \x7d"⟩, ⟨"b ", "query \x7b b a \x7d"⟩]

theorem merge_agrees_iff_mixedFiles :
    (∃ file error rest reports, failuresFrom 0 mixedFiles = (file, error) :: rest ∧
      file.path = "b.graphql" ∧ rest.length = 1 ∧
      List.Forall₂ (fun failed report => failed.1.report? failed.2 = some report)
        (failuresFrom 0 mixedFiles) reports ∧
      answer? mixedFiles false = some (.error ("\n".intercalate reports)) ∧
      mergeQueries (mixedFiles.map source) = .error (.ofSyntax error)) ∧
    failuresFrom 0 goodFiles = [] ∧
      answer? goodFiles false = some (.ok "query \x7b a b \x7d") ∧
      (∃ mapping, answer? goodFiles true = some (.ok ("query \x7b a b \x7d" ++ "\n\n" ++
        Text.trimEnd (mappingText goodFiles mapping)))) := by
  refine ⟨?_, ?_⟩
  · have hpaths : (failuresFrom 0 mixedFiles).map (fun failure => failure.1.path) =
        ["b.graphql", "c.graphql"] := by decide +kernel
    have hnear : ∀ failed ∈ failuresFrom 0 mixedFiles, ¬ failed.1.FarOut failed.2 := by
      decide +kernel
    obtain ⟨⟨file, error⟩, rest, hfailures, hpath, hrest⟩ := List.map_eq_cons_iff.mp hpaths
    obtain ⟨-, -, -, hfails, -⟩ := merge_agrees_iff mixedFiles
    obtain ⟨hqueries, hfiles⟩ := hfails file error rest hfailures
    obtain ⟨reports, hreports, hanswer⟩ := (hfiles false).1.mpr hnear
    exact ⟨file, error, rest, reports, hfailures, hpath,
      by simpa using congrArg List.length hrest, hreports, hanswer, hqueries⟩
  · have hnone : failuresFrom 0 goodFiles = [] := by decide +kernel
    have hqueries : mergeQueries (goodFiles.map source) = .ok "query \x7b a b \x7d" := by
      decide +kernel
    obtain ⟨hiff, hmapping, -⟩ := merge_agrees_iff goodFiles
    exact ⟨hnone, (hiff _).mpr hqueries, hmapping _ hqueries⟩

/-! ### An error far out -/

/-- A brace that closes nothing is an error where it stands. -/
theorem ofTokens_braceClose (place stop : Position) :
    Document.ofTokens [⟨.braceClose, "\x7d", place⟩, ⟨.endOfInput, "", stop⟩] =
      .error ⟨.unexpected [.name, .braceOpen] .braceClose "\x7d", place⟩ := by
  with_unfolding_all rfl

theorem parse_braceBehind (index count : Nat) :
    CallDocument.parse index (Token.braceBehind count) =
      .error (.parse ⟨.unexpected [.name, .braceOpen] .braceClose "\x7d",
        ⟨0, count, count, count⟩⟩) := by
  rw [CallDocument.parse, Document.parse, Token.tokenize_braceBehind]
  dsimp only
  rw [ofTokens_braceClose]
  rfl

/-- A file with such a brace further out than widths go is not reported on. -/
theorem answer?_braceBehind {count : Nat} (h : Text.maxWidth < count) (path : String) :
    ∃ error, failuresFrom 0 [⟨path, Token.braceBehind count⟩] =
        [(⟨path, Token.braceBehind count⟩, .parse error)] ∧
      error.position = ⟨0, count, count, count⟩ ∧
      (∀ showMapping, answer? [⟨path, Token.braceBehind count⟩] showMapping = none) ∧
      mergeQueries [Token.braceBehind count] = .error (.parse error) := by
  have hparse : CallDocument.parse 0 (mk path (Token.braceBehind count)).source = _ :=
    parse_braceBehind 0 count
  have hfailures := failuresFrom_cons_of_error hparse []
  obtain ⟨before, done, left, after, hline⟩ :=
    Token.exists_inLine (Token.tokenize_braceBehind count) List.mem_cons_self
  refine ⟨_, hfailures, rfl, fun showMapping => ?_, mergeQueries_of_failures hfailures⟩
  refine (answer?_of_failures hfailures showMapping).2.mpr ⟨_, hfailures ▸ List.mem_cons_self, ?_⟩
  exact ⟨Option.isSome_of_eq_some hline.line?_eq, h⟩

/-- The least column that is too wide. -/
theorem no_answer_braceBehind :
    ∃ error, failuresFrom 0 [⟨"a.graphql", Token.braceBehind 65536⟩] =
        [(⟨"a.graphql", Token.braceBehind 65536⟩, .parse error)] ∧
      error.position = ⟨0, 65536, 65536, 65536⟩ ∧
      (∀ showMapping, answer? [⟨"a.graphql", Token.braceBehind 65536⟩] showMapping = none) ∧
      mergeQueries [Token.braceBehind 65536] = .error (.parse error) :=
  answer?_braceBehind (by decide) "a.graphql"

end QueryFile

end QueryBatching
