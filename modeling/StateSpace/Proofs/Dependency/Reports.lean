import StateSpace.Dependency.Report
import StateSpace.Proofs.Dependency.Queries
import StateSpace.Text

/-!
# The rows of a report

A question about an input has an answer if the input is valid, the character names a matrix, and there is a row of the
given number (`DependencyInput.answers_iff`). The answer is the listing and the heading, followed by the rows that are
wanted, one line for each; a single row is the line that stands in its place among all of them (`View.prints_view`).

The text of a row can be read back: the numbers in it (`Text.numbers`) are the index of the row and then the indices
that it is related to (`numbers_rowText`). So the transposition of the two directions of a matrix is seen in what is
printed (`report_exact`).
-/

namespace StateSpace

/-! ## Numbers in a text -/

namespace Text

/-- The numbers that stand in a text: its longest runs of digits. -/
def numbers (cs : List Char) : List Nat := (cs.splitOnP fun c => !c.isDigit).filterMap digits?

theorem digits?_toDigits (n : Nat) : digits? (Nat.toDigits 10 n) = some n := by
  have hdigits : (Nat.toDigits 10 n).all Char.isDigit = true :=
    List.all_eq_true.2 fun c hc => Nat.isDigit_of_mem_toDigits (by decide) (by decide) hc
  have hvalue : (Nat.toDigits 10 n).foldl (fun n c => 10 * n + digit c) 0 = n :=
    Nat.ofDigitChars_eq_foldl.symm.trans Nat.ofDigitChars_ten_toDigits
  unfold digits?
  rw [hvalue, if_neg]
  simp [Nat.toDigits_ne_nil, hdigits]

/-- What is not a digit ends a number. -/
theorem numbers_toDigits (n : Nat) {c : Char} (hc : c.isDigit = false) (rest : List Char) :
    numbers (Nat.toDigits 10 n ++ c :: rest) = n :: numbers rest := by
  have hdigits : ∀ d ∈ Nat.toDigits 10 n, (!d.isDigit) = false := fun d hd => by
    rw [Nat.isDigit_of_mem_toDigits (by decide) (by decide) hd, Bool.not_true]
  unfold numbers
  rw [List.splitOnP_append_cons_of_forall_mem hdigits c (by rw [hc, Bool.not_false]), List.filterMap_cons,
    digits?_toDigits]

theorem numbers_cons {c : Char} (hc : c.isDigit = false) (rest : List Char) : numbers (c :: rest) = numbers rest := by
  unfold numbers
  rw [List.splitOnP_cons_eq_if_modifyHead, if_pos (by rw [hc, Bool.not_false])]
  rfl

/-- Numbers that are separated by commas, in front of a line break. -/
theorem numbers_intercalate (targets : List Nat) :
    numbers ([',', ' '].intercalate (targets.map (Nat.toDigits 10)) ++ ['\n']) = targets := by
  have hend : numbers ['\n'] = [] := by decide
  induction targets with
  | nil => exact hend
  | cons n rest ih =>
    cases rest with
    | nil =>
      have hnone : numbers [] = [] := by decide
      rw [List.map_singleton, List.intercalate_singleton, numbers_toDigits n rfl, hnone]
    | cons m rest =>
      rw [List.map_cons, List.map_cons, List.intercalate_cons_cons, ← List.map_cons, List.append_assoc,
        List.append_assoc]
      refine (numbers_toDigits n rfl _).trans (congrArg (n :: ·) ?_)
      exact (numbers_cons rfl _).trans ih

end Text

/-! ## Lines -/

/-- The line of a row: its index, and the indices that it is related to. -/
def rowText (i : Nat) (targets : List Nat) : String :=
  s!"{i}: " ++ ", ".intercalate (targets.map toString) ++ "\n"

/-- What is in a row can be read off its line. -/
theorem numbers_rowText (i : Nat) (targets : List Nat) :
    Text.numbers (rowText i targets).toList = i :: targets := by
  have htext : (rowText i targets).toList = Nat.toDigits 10 i ++
      ':' :: ' ' :: ([',', ' '].intercalate (targets.map (Nat.toDigits 10)) ++ ['\n']) := by
    simp [rowText, String.toList_intercalate, Function.comp_def]
    rfl
  rw [htext, Text.numbers_toDigits i rfl, Text.numbers_cons rfl, Text.numbers_intercalate]

namespace View

/-- The line of a row has its image. -/
theorem rowLine_eq {v : View} {i : Nat} {targets : List Nat} (h : v.image i = some targets) :
    v.rowLine i = rowText i targets := by
  rw [rowLine, h]
  rfl

/-- What stands above the rows of a view. -/
def above (v : View) (input : DependencyInput) (listing : Bool) : String :=
  (if listing then input.listing else "") ++ v.heading

end View

/-- The indices that a printed row says its own is related to. -/
def rowTargets (row : String) : List Nat := (Text.numbers row.toList).tail

theorem rowTargets_rowText (i : Nat) (targets : List Nat) : rowTargets (rowText i targets) = targets := by
  rw [rowTargets, numbers_rowText, List.tail_cons]

/-! ## Questions -/

namespace DependencyInput

/-- What the rows of a matrix are about, or its columns. -/
def sources (input : DependencyInput) (kind : MatrixKind) (inverted : Bool) : Nat :=
  input.extent (if inverted then kind.dimensions.swap else kind.dimensions).1

/-- A question has an answer if the input is valid, the character names a matrix, and there is a row of the index. -/
def Answers (input : DependencyInput) (q : DependencyQuestion) : Prop :=
  input.Valid ∧ ∀ c, q.matrix = some c →
    ∃ kind : MatrixKind, kind.char = c ∧ ∀ n, q.index = some n → n < input.sources kind q.invert

end DependencyInput

/-! ## Answers -/

namespace DependencyMatrices

variable {input : DependencyInput} {m : DependencyMatrices} {kind : MatrixKind} {inverted : Bool}

/-- The matrix of a kind, read in one of the two directions. -/
def view (m : DependencyMatrices) (kind : MatrixKind) (inverted : Bool) : View := ⟨kind, m.matrix kind, inverted⟩

theorem inDim_view (hm : build input = .ok m) : (m.view kind inverted).inDim = input.sources kind inverted := by
  have hmatrix := (describes_of_build hm).represents_matrix kind
  unfold View.inDim DependencyInput.sources view
  rw [hmatrix.rows_eq, hmatrix.cols_eq]
  cases inverted <;> rfl

theorem report_of_none (hm : build input = .ok m) {q : DependencyQuestion} (hq : q.matrix = none) :
    input.report q = .ok input.listing := by
  unfold DependencyInput.report
  rw [hm, hq]
  simp [Except.mapError, DependencyInput.listingFor, hq]

theorem report_of_unknown (hm : build input = .ok m) {q : DependencyQuestion} {c : Char} (hq : q.matrix = some c)
    (hc : m.view? c q.invert = none) : input.report q = .error (.unknownMatrix c) := by
  unfold DependencyInput.report
  rw [hm, hq]
  simp only [Except.mapError, bind, Except.bind, hc]
  rfl

theorem report_of_char (hm : build input = .ok m) (kind : MatrixKind) (listing inverted : Bool) (index : Option Nat) :
    input.report ⟨listing, some kind.char, inverted, index⟩ =
      ((m.view kind inverted).rowsFor index).map fun rows =>
        (m.view kind inverted).above input listing ++ String.join (rows.map (m.view kind inverted).rowLine) := by
  unfold DependencyInput.report
  rw [hm]
  simp only [Except.mapError, view?_char]
  cases listing <;> rfl

/-- A question about a matrix fails only at its index. -/
theorem exists_report_iff (hm : build input = .ok m) {listing : Bool} {index : Option Nat} :
    (∃ text, input.report ⟨listing, some kind.char, inverted, index⟩ = .ok text) ↔
      ∀ n, index = some n → n < input.sources kind inverted := by
  rw [report_of_char hm, ← inDim_view hm]
  cases index with
  | none => exact iff_of_true ⟨_, rfl⟩ fun n hn => nomatch hn
  | some n =>
    rw [View.rowsFor]
    split
    · rename_i hn
      exact iff_of_true ⟨_, rfl⟩ fun n' hn' => Option.some.inj hn' ▸ hn
    · rename_i hn
      exact iff_of_false (fun ⟨_, h⟩ => nomatch h) fun h => hn (h n rfl)

end DependencyMatrices

namespace View

variable {input : DependencyInput} {m : DependencyMatrices}

/-- The rows of a view, as they are printed: all of them in order, or the one in the place that is asked for. -/
structure Prints (v : View) (input : DependencyInput) (rows : List String) : Prop where
  /-- There is a row for each index. -/
  length_eq : rows.length = input.sources v.kind v.inverted
  whole : ∀ listing, input.report ⟨listing, some v.kind.char, v.inverted, none⟩ =
    .ok (v.above input listing ++ String.join rows)
  single : ∀ (listing : Bool) (n : Nat) (row : String), rows[n]? = some row →
    input.report ⟨listing, some v.kind.char, v.inverted, some n⟩ = .ok (v.above input listing ++ row)
  /-- Each row is its index, followed by those that it is related to. -/
  row_eq : ∀ (n : Nat) (row : String), rows[n]? = some row → row = rowText n (rowTargets row) ∧
    (rowTargets row).Pairwise (· < ·) ∧ ∀ j, j ∈ rowTargets row ↔ v.relates n j = true

theorem exists_image {v : View} {n : Nat} (hn : n < v.inDim) : ∃ targets, v.image n = some targets :=
  ⟨_, if_pos hn⟩

theorem lt_of_image {v : View} {n : Nat} {targets : List Nat} (h : v.image n = some targets) : n < v.inDim := by
  unfold image at h
  split at h
  · assumption
  · contradiction

/-- All rows of a view. -/
def rows (v : View) : List String := (List.range v.inDim).map v.rowLine

theorem getElem?_rows {v : View} {n : Nat} {row : String} :
    v.rows[n]? = some row ↔ n < v.inDim ∧ row = v.rowLine n := by
  rw [List.getElem?_eq_some_iff]
  simp [rows, eq_comm]

/-- What is printed in a row is what the view relates to it. -/
theorem exists_row_iff {v : View} {i j : Nat} :
    (∃ row, v.rows[i]? = some row ∧ j ∈ rowTargets row) ↔ v.relates i j = true := by
  rw [relates_iff_image]
  constructor
  · rintro ⟨row, hrow, hj⟩
    obtain ⟨hi, rfl⟩ := getElem?_rows.1 hrow
    obtain ⟨targets, himage⟩ := exists_image hi
    rw [rowLine_eq himage, rowTargets_rowText] at hj
    exact ⟨targets, himage, hj⟩
  · rintro ⟨targets, himage, hj⟩
    refine ⟨v.rowLine i, getElem?_rows.2 ⟨lt_of_image himage, rfl⟩, ?_⟩
    rwa [rowLine_eq himage, rowTargets_rowText]

theorem rowsFor_some {v : View} {n : Nat} (hn : n < v.inDim) : v.rowsFor (some n) = .ok [n] := if_pos hn

/-- The view of a matrix prints its rows. -/
theorem prints_view (hm : DependencyMatrices.build input = .ok m) (kind : MatrixKind) (inverted : Bool) :
    (m.view kind inverted).Prints input (m.view kind inverted).rows := by
  refine ⟨?_, fun listing => ?_, fun listing n row hrow => ?_, fun n row hrow => ?_⟩
  · rw [rows, List.length_map, List.length_range]
    exact DependencyMatrices.inDim_view hm
  · exact DependencyMatrices.report_of_char hm kind listing inverted none
  · obtain ⟨hn, rfl⟩ := getElem?_rows.1 hrow
    refine (DependencyMatrices.report_of_char hm kind listing inverted (some n)).trans ?_
    rw [rowsFor_some hn]
    have hsingle : String.join [(m.view kind inverted).rowLine n] = (m.view kind inverted).rowLine n := by simp
    exact congrArg (fun text => Except.ok (_ ++ text)) hsingle
  · obtain ⟨hn, rfl⟩ := getElem?_rows.1 hrow
    obtain ⟨targets, himage⟩ := exists_image hn
    rw [rowLine_eq himage, rowTargets_rowText]
    exact ⟨rfl, pairwise_of_image himage, fun j => mem_of_image himage⟩

end View

theorem MatrixKind.char_injective {k k' : MatrixKind} (h : k.char = k'.char) : k = k' := by
  have hsome : some k = some k' := by rw [← ofChar?_char k, h, ofChar?_char]
  exact Option.some.inj hsome

namespace DependencyInput

/-- A question is answered exactly if it can be. -/
theorem answers_iff (input : DependencyInput) (q : DependencyQuestion) :
    (∃ text, input.report q = .ok text) ↔ input.Answers q := by
  cases hvalidate : input.validate with
  | error e =>
    have hfails : input.report q = .error (.input (.malformed e)) := by
      simp [report, DependencyMatrices.build, hvalidate, Except.mapError, bind, Except.bind]
    refine iff_of_false (by simp [hfails]) fun h => ?_
    simp [validate_eq_ok_iff.2 h.1] at hvalidate
  | ok =>
    have hvalid := validate_eq_ok_iff.1 hvalidate
    obtain ⟨m, hm, -⟩ := DependencyMatrices.describes_of_valid hvalid
    obtain ⟨listing, matrix, inverted, index⟩ := q
    cases matrix with
    | none => exact iff_of_true ⟨_, DependencyMatrices.report_of_none hm rfl⟩ ⟨hvalid, fun c hc => by cases hc⟩
    | some c =>
      cases hview : m.view? c inverted with
      | none =>
        have hfails := DependencyMatrices.report_of_unknown hm (q := ⟨listing, some c, inverted, index⟩) rfl hview
        refine iff_of_false (by simp [hfails]) fun h => ?_
        obtain ⟨kind, rfl, -⟩ := h.2 c rfl
        simp [DependencyMatrices.view?_char] at hview
      | some v =>
        obtain ⟨rfl, -⟩ := DependencyMatrices.view?_eq_some hview
        rw [DependencyMatrices.exists_report_iff hm]
        constructor
        · intro hindex
          exact ⟨hvalid, fun c hc => ⟨v.kind, Option.some.inj hc, hindex⟩⟩
        · rintro ⟨-, hchars⟩
          obtain ⟨kind, hkind, hindex⟩ := hchars _ rfl
          obtain rfl := MatrixKind.char_injective hkind
          exact hindex

end DependencyInput

namespace DependencyMatrices

/-- **One row is the same whether it is asked for alone or with all others, and inverting a matrix transposes its
rows.** A question has an answer if the input is valid, the character names a matrix and the index has a row. Without a
character it is the listing. With one, the rows of the matrix stand in order below the listing, if that is asked for,
and the heading; the row of a single index stands there alone. The rows of the two directions are ascending lists that
mention each other's indices. -/
theorem report_exact (input : DependencyInput) :
    (∀ q, (∃ text, input.report q = .ok text) ↔ input.Answers q) ∧
    ∀ m, build input = .ok m →
      (∀ q, q.matrix = none → input.report q = .ok input.listing) ∧
      ∀ kind, ∃ rows columns,
        (m.view kind false).Prints input rows ∧ (m.view kind true).Prints input columns ∧
        ∀ i j, (∃ row, rows[i]? = some row ∧ j ∈ rowTargets row) ↔
          ∃ column, columns[j]? = some column ∧ i ∈ rowTargets column := by
  refine ⟨input.answers_iff, fun m hm => ⟨fun q => report_of_none hm, fun kind => ?_⟩⟩
  refine ⟨_, _, View.prints_view hm kind false, View.prints_view hm kind true, fun i j => ?_⟩
  rw [View.exists_row_iff, View.exists_row_iff]
  exact ((m.view kind false).relates_converse i j).symm ▸ Iff.rfl

/-- The second group reads both slots, and so the first slot is read by the first two groups. -/
theorem report_exact_meter : ∃ m columns, build meter = .ok m ∧ (m.view .read true).Prints meter columns ∧
    meter.Answers ⟨false, some 'R', true, some 0⟩ ∧ ¬ meter.Answers ⟨false, some 'R', true, some 2⟩ ∧
    meter.report ⟨false, some 'R', true, some 0⟩ =
      .ok "matrix-1(R): T2R (transition read set) (slots -> transitions)\n0: 0, 1\n" ∧
    ∃ column, columns[0]? = some column ∧ 1 ∈ rowTargets column := by
  obtain ⟨m, hm, -⟩ := describes_of_valid (DependencyInput.validate_eq_ok_iff.1 (by decide : meter.validate = .ok ()))
  obtain ⟨hanswers, hprints⟩ := report_exact meter
  obtain ⟨-, hkinds⟩ := hprints m hm
  obtain ⟨rows, columns, hrows, hcolumns, htransposed⟩ := hkinds .read
  have htext : meter.report ⟨false, some 'R', true, some 0⟩ =
      .ok "matrix-1(R): T2R (transition read set) (slots -> transitions)\n0: 0, 1\n" := by decide +kernel
  have hrow : 1 < rows.length := lt_of_lt_of_eq (by decide : 1 < meter.sources .read false) hrows.length_eq.symm
  have hrelates : (m.view .read false).relates 1 0 = true :=
    eq_of_map_build (f := fun m => (m.view .read false).relates 1 0) hm (by decide +kernel)
  have hmem := ((hrows.row_eq 1 _ (List.getElem?_eq_getElem hrow)).2.2 0).2 hrelates
  refine ⟨m, columns, hm, hcolumns, (hanswers _).1 ⟨_, htext⟩, fun h => ?_, htext,
    (htransposed 1 0).1 ⟨_, List.getElem?_eq_getElem hrow, hmem⟩⟩
  -- there are two slots
  obtain ⟨kind, hkind, hindex⟩ := h.2 'R' rfl
  obtain rfl : kind = .read := MatrixKind.char_injective hkind
  exact absurd (hindex 2 rfl) (by decide : ¬ 2 < meter.sources .read true)

end DependencyMatrices

end StateSpace
