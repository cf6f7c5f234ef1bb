import Mathlib.Data.List.GetD
import Mathlib.Data.List.Range
import StateSpace.Dependency.BitMatrix

/-!
# A bit matrix is a relation

The words of a matrix hold the entries of its columns and nothing else (`test_word`), so two matrices are equal if their
entries are (`eq_of_entry_eq`), and a row is the list of its columns in ascending order (`rowList_eq`).

`ofFn` makes the matrix of a relation, which is read back by `entry` (`entry_ofFn`). Writing an entry gives the matrix
of the relation with one pair changed (`set_ofFn`), so a matrix that is filled from lists of columns is that of
membership in the lists (`ofSets_map`).

`Represents` says that a matrix is that of a given relation; rows are then compared and listed by what they are related
to (`Represents.meets_iff`, `Represents.mem_rowList`).
-/

namespace StateSpace.BitMatrix

/-! ## Words and entries -/

section

variable {m m' : BitMatrix} {r r' w w' i c : Nat}

theorem add_div_stride {cols : Nat} (hw : w < stride cols) : (r * stride cols + w) / stride cols = r := by
  rw [Nat.mul_comm, Nat.mul_add_div (Nat.zero_lt_of_lt hw), Nat.div_eq_of_lt hw, Nat.add_zero]

/-- Different words have different places. -/
theorem place_eq_iff {cols : Nat} (hw : w < stride cols) (hw' : w' < stride cols) :
    r * stride cols + w = r' * stride cols + w' ↔ r = r' ∧ w = w' := by
  constructor
  · intro heq
    have hdiv := congrArg (· / stride cols) heq
    have hmod := congrArg (· % stride cols) heq
    simp only [add_div_stride hw, add_div_stride hw', add_mod_stride hw, add_mod_stride hw'] at hdiv hmod
    exact ⟨hdiv, hmod⟩
  · rintro ⟨rfl, rfl⟩
    rfl

theorem place_lt {rows cols : Nat} (hr : r < rows) (hw : w < stride cols) :
    r * stride cols + w < rows * stride cols := by
  have hle : (r + 1) * stride cols ≤ rows * stride cols := Nat.mul_le_mul_right _ hr
  rw [Nat.succ_mul] at hle
  omega

theorem word_of_le (hr : m.rows ≤ r) : m.word r w = 0 := by
  have hsize : m.bits.size ≤ r * stride m.cols + w := by
    rw [m.size_eq]
    exact (Nat.mul_le_mul_right _ hr).trans (Nat.le_add_right _ w)
  rw [word, Array.getD_eq_getD_getElem?, Array.getElem?_eq_none hsize, Option.getD_none]

/-- A word holds the entries of its columns. -/
theorem test_word (m : BitMatrix) (r : Nat) (hw : w < stride m.cols) (hi : i < 64) :
    Bits.test (m.word r w) i = m.entry r (64 * w + i) := by
  unfold entry
  by_cases hr : r < m.rows
  · by_cases hc : 64 * w + i < m.cols
    · have hdiv : (64 * w + i) / 64 = w := by omega
      have hmod : (64 * w + i) % 64 = i := by omega
      rw [decide_eq_true ⟨hr, hc⟩, Bool.true_and, hdiv, hmod]
    · rw [decide_eq_false fun h => hc h.2, Bool.false_and]
      refine m.packed _ i hi ?_
      rw [add_mod_stride hw]
      exact Nat.not_lt.1 hc
  · rw [decide_eq_false fun h => hr h.1, Bool.false_and, word_of_le (Nat.not_lt.1 hr), Bits.test_zero]

/-- Matrices of the same dimensions are equal if their words are. -/
theorem eq_of_word_eq (hrows : m.rows = m'.rows) (hcols : m.cols = m'.cols)
    (h : ∀ r, ∀ w < stride m.cols, m.word r w = m'.word r w) : m = m' := by
  have hsize : m.bits.size = m'.bits.size := by rw [m.size_eq, m'.size_eq, hrows, hcols]
  have hbits : m.bits = m'.bits := by
    refine Array.ext hsize fun k hk hk' => ?_
    have hstride : 0 < stride m.cols := Nat.pos_of_mul_pos_left (Nat.zero_lt_of_lt (m.size_eq ▸ hk))
    have hword := h (k / stride m.cols) (k % stride m.cols) (Nat.mod_lt k hstride)
    unfold word at hword
    rw [← hcols, Nat.div_add_mod', Array.getD_eq_getD_getElem?, Array.getD_eq_getD_getElem?,
      Array.getElem?_eq_getElem hk, Array.getElem?_eq_getElem hk'] at hword
    exact hword
  cases m
  cases m'
  subst hrows hcols hbits
  rfl

/-- Matrices of the same dimensions are equal if their entries are. -/
theorem eq_of_entry_eq (hrows : m.rows = m'.rows) (hcols : m.cols = m'.cols)
    (h : ∀ r < m.rows, ∀ c < m.cols, m.entry r c = m'.entry r c) : m = m' := by
  refine eq_of_word_eq hrows hcols fun r w hw => Bits.eq_of_test_eq fun i hi => ?_
  rw [test_word m r hw hi, test_word m' r (hcols ▸ hw) hi]
  by_cases hin : r < m.rows ∧ 64 * w + i < m.cols
  · exact h r hin.1 _ hin.2
  · -- neither matrix relates anything outside
    rw [entry, entry, ← hrows, ← hcols, decide_eq_false hin, Bool.false_and, Bool.false_and]

end

/-! ## Matrices of relations -/

variable {rows cols : Nat}

/-- Only the pairs of the relation that are inside the matrix are related. -/
theorem entry_ofFn (related : Nat → Nat → Bool) (r c : Nat) :
    (ofFn rows cols related).entry r c = (decide (r < rows ∧ c < cols) && related r c) := by
  by_cases hrc : r < rows ∧ c < cols
  · have hw : c / 64 < stride cols := div_lt_stride hrc.2
    have hword : (ofFn rows cols related).word r (c / 64) = wordOf cols related r (c / 64) := by
      unfold word ofFn wordsOf
      rw [Array.getD_eq_getD_getElem?, Array.getElem?_ofFn, dif_pos (place_lt hrc.1 hw), Option.getD_some]
      dsimp only
      rw [add_div_stride hw, add_mod_stride hw]
    have hcol : 64 * (c / 64) + c % 64 = c := Nat.div_add_mod c 64
    rw [entry, hword, test_wordOf _ _ _ _ (Nat.mod_lt c (by decide)), hcol, decide_eq_true hrc.2, Bool.true_and]
    rfl
  · have hout : ¬ (r < (ofFn rows cols related).rows ∧ c < (ofFn rows cols related).cols) := hrc
    rw [entry, decide_eq_false hout, decide_eq_false hrc, Bool.false_and, Bool.false_and]

theorem entry_ofFn_of_lt (related : Nat → Nat → Bool) {r c : Nat} (hr : r < rows) (hc : c < cols) :
    (ofFn rows cols related).entry r c = related r c := by
  rw [entry_ofFn, decide_eq_true ⟨hr, hc⟩, Bool.true_and]

/-- What a relation says outside the matrix does not matter. -/
theorem ofFn_congr {related related' : Nat → Nat → Bool} (h : ∀ r < rows, ∀ c < cols, related r c = related' r c) :
    ofFn rows cols related = ofFn rows cols related' := by
  refine eq_of_entry_eq rfl rfl fun r (hr : r < rows) c (hc : c < cols) => ?_
  rw [entry_ofFn_of_lt related hr hc, entry_ofFn_of_lt related' hr hc, h r hr c hc]

theorem zero_eq_ofFn : zero rows cols = ofFn rows cols fun _ _ => false := by
  refine eq_of_entry_eq rfl rfl fun r _ c _ => ?_
  have hword : (zero rows cols).word r (c / 64) = 0 := by
    unfold word zero
    rw [Array.getD_eq_getD_getElem?, Array.getElem?_replicate]
    split <;> rfl
  rw [entry_ofFn, Bool.and_false, entry, hword, Bits.test_zero, Bool.and_false]

/-! ## Writing -/

/-- Writing an entry changes one word. -/
theorem word_put {m : BitMatrix} {r i c w : Nat} (hr : r < m.rows) (hc : c < m.cols) (hw : w < stride m.cols)
    (value : Bool) : (m.put r hc value).word i w =
      if i = r ∧ w = c / 64 then Bits.put (m.word i w) (c % 64) value else m.word i w := by
  have hplace : i * stride m.cols + w = r * stride m.cols + c / 64 ↔ i = r ∧ w = c / 64 :=
    place_eq_iff hw (div_lt_stride hc)
  unfold word put
  dsimp only
  rw [Array.getD_eq_getD_getElem?, Array.getD_eq_getD_getElem?, Array.getElem?_modify]
  by_cases hiw : i = r ∧ w = c / 64
  · have hlt : r * stride m.cols + c / 64 < m.bits.size := m.size_eq ▸ place_lt hr (div_lt_stride hc)
    rw [if_pos (hplace.2 hiw).symm, if_pos hiw, hplace.2 hiw, Array.getElem?_eq_getElem hlt]
    rfl
  · rw [if_neg fun h => hiw (hplace.1 h.symm), if_neg hiw]

theorem entry_put {m : BitMatrix} {r c : Nat} (hr : r < m.rows) (hc : c < m.cols) (value : Bool) {i j : Nat}
    (hi : i < m.rows) (hj : j < m.cols) :
    (m.put r hc value).entry i j = if i = r ∧ j = c then value else m.entry i j := by
  have hbound : j % 64 < 64 := Nat.mod_lt j (by decide)
  have hcol : j = c ↔ j / 64 = c / 64 ∧ j % 64 = c % 64 := by omega
  have hin : i < (m.put r hc value).rows ∧ j < (m.put r hc value).cols := ⟨hi, hj⟩
  rw [entry, entry, decide_eq_true hin, decide_eq_true ⟨hi, hj⟩, Bool.true_and, Bool.true_and,
    word_put hr hc (div_lt_stride hj)]
  by_cases hword : i = r ∧ j / 64 = c / 64
  · rw [if_pos hword, Bits.test_put (Nat.mod_lt c (by decide)) hbound]
    simp only [hcol, hword, true_and]
  · rw [if_neg hword, if_neg fun h => hword ⟨h.1, (hcol.1 h.2).1⟩]

/-- Writing an entry inside the matrix changes one pair of the relation. -/
theorem set_ofFn (related : Nat → Nat → Bool) {r c : Nat} (hr : r < rows) (hc : c < cols) (value : Bool) :
    (ofFn rows cols related).set r c value =
      .ok (ofFn rows cols fun i j => if i = r ∧ j = c then value else related i j) := by
  have hcheck : (ofFn rows cols related).checkEntry r c = .ok ⟨hr, hc⟩ := dif_pos ⟨hr, hc⟩
  have hset : (ofFn rows cols related).set r c value = .ok ((ofFn rows cols related).put r hc value) := by
    unfold set
    rw [hcheck]
    rfl
  refine hset.trans (congrArg Except.ok (eq_of_entry_eq rfl rfl fun i (hi : i < rows) j (hj : j < cols) => ?_))
  refine (entry_put (m := ofFn rows cols related) hr hc value hi hj).trans ?_
  rw [entry_ofFn_of_lt related hi hj, entry_ofFn_of_lt _ hi hj]

/-- Setting columns of a row adds them to what the row is related to. -/
theorem setAll_ofFn (columns : List Nat) (related : Nat → Nat → Bool) {r : Nat} (hr : r < rows)
    (hc : ∀ c ∈ columns, c < cols) :
    (ofFn rows cols related).setAll r columns =
      .ok (ofFn rows cols fun i j => related i j || (decide (i = r) && columns.contains j)) := by
  induction columns generalizing related with
  | nil => simp [setAll, pure, Except.pure]
  | cons c rest ih =>
    have ih := ih (fun i j => if i = r ∧ j = c then true else related i j) fun j hj => hc j (List.mem_cons_of_mem c hj)
    unfold setAll at ih ⊢
    rw [List.foldlM_cons, set_ofFn related hr (hc c List.mem_cons_self)]
    refine ih.trans (congrArg Except.ok (ofFn_congr fun i _ j _ => ?_))
    by_cases hi : i = r <;> by_cases hj : j = c <;> simp [hi, hj]

theorem foldlM_setAll (sets : List (List Nat)) (k : Nat) (related : Nat → Nat → Bool) (hk : k + sets.length ≤ rows)
    (hc : ∀ set ∈ sets, ∀ c ∈ set, c < cols) :
    (sets.zipIdx k).foldlM (fun m (set, r) => m.setAll r set) (ofFn rows cols related) =
      .ok (ofFn rows cols fun i j => related i j || (decide (k ≤ i) && (sets.getD (i - k) []).contains j)) := by
  induction sets generalizing k related with
  | nil => simp [pure, Except.pure]
  | cons set rest ih =>
    rw [List.length_cons] at hk
    have hr : k < rows := by omega
    rw [List.zipIdx_cons, List.foldlM_cons]
    dsimp only
    rw [setAll_ofFn set related hr (hc set List.mem_cons_self)]
    refine (ih (k + 1) _ (by omega) fun s hs => hc s (List.mem_cons_of_mem set hs)).trans ?_
    refine congrArg Except.ok (ofFn_congr fun i _ j _ => ?_)
    rcases Nat.lt_trichotomy i k with hi | rfl | hi
    · simp [Nat.ne_of_lt hi, Nat.not_le.2 hi, show ¬ k + 1 ≤ i by omega]
    · simp
    · obtain ⟨d, rfl⟩ := Nat.exists_eq_add_of_lt hi
      have hd : k + d + 1 - (k + 1) = d := by omega
      have hd' : k + d + 1 - k = d + 1 := by omega
      simp [hd, hd', show ¬ k + d + 1 = k by omega, show k ≤ k + d + 1 by omega, show k + 1 ≤ k + d + 1 by omega]

/-- Filling a matrix from the lists that `f` gives for the members of a list, if they have no other columns. -/
theorem ofSets_map {α : Type} (default : α) (f : α → List Nat) (l : List α) (h : ∀ a ∈ l, ∀ c ∈ f a, c < cols) :
    ofSets cols (l.map f) = .ok (ofFn l.length cols fun r c => (f (l.getD r default)).contains c) := by
  have hc : ∀ set ∈ l.map f, ∀ c ∈ set, c < cols := by
    intro set hset
    obtain ⟨a, ha, rfl⟩ := List.mem_map.1 hset
    exact h a ha
  unfold ofSets
  rw [zero_eq_ofFn, foldlM_setAll _ 0 _ (Nat.le_of_eq (Nat.zero_add _)) hc, List.length_map]
  refine congrArg Except.ok (ofFn_congr fun r hr c _ => ?_)
  simp [List.getD_eq_getElem?_getD, List.getElem?_map, List.getElem?_eq_getElem hr]

/-! ## Reading -/

/-- The matrix has the given shape, and its entries are the related pairs inside it. -/
structure Represents (m : BitMatrix) (rows cols : Nat) (related : Nat → Nat → Prop) : Prop where
  rows_eq : m.rows = rows
  cols_eq : m.cols = cols
  entry_iff : ∀ r c, m.entry r c = true ↔ r < rows ∧ c < cols ∧ related r c

theorem represents_ofFn {test : Nat → Nat → Bool} {related : Nat → Nat → Prop}
    (h : ∀ r < rows, ∀ c < cols, (test r c = true ↔ related r c)) :
    (ofFn rows cols test).Represents rows cols related where
  rows_eq := rfl
  cols_eq := rfl
  entry_iff := fun r c => by
    rw [entry_ofFn, Bool.and_eq_true, decide_eq_true_iff, and_assoc]
    exact and_congr_right fun hr => and_congr_right fun hc => h r hr c hc

/-- A row is listed in ascending order. -/
theorem rowList_eq (m : BitMatrix) (r : Nat) : m.rowList r = (List.range m.cols).filter (m.entry r) := by
  have hword (w : Nat) (hw : w ∈ List.range (stride m.cols)) : (Bits.positions (m.word r w)).map (64 * w + ·) =
      ((List.range 64).filter fun i => m.entry r (64 * w + i)).map (64 * w + ·) := by
    rw [Bits.positions_eq]
    refine congrArg (List.map _) (List.filter_congr fun i hi => ?_)
    exact test_word m r (List.mem_range.1 hw) (List.mem_range.1 hi)
  have hpadding (c : Nat) (hc : m.cols ≤ c) : m.entry r c = false := by
    rw [entry, decide_eq_false fun h => Nat.not_lt.2 hc h.2, Bool.false_and]
  obtain ⟨d, hd⟩ : ∃ d, 64 * stride m.cols = m.cols + d := by
    refine Nat.exists_eq_add_of_le ?_
    unfold stride
    omega
  rw [rowList, List.flatMap_congr hword, Bits.flatMap_words, hd, Bits.filter_range_add _ _ _ hpadding]

/-- Two rows overlap if some column is set in both. -/
theorem meets_iff {m m' : BitMatrix} {i j : Nat} (hcols : m.cols = m'.cols) :
    m.meets i m' j = true ↔ ∃ c, m.entry i c = true ∧ m'.entry j c = true := by
  rw [meets, List.any_eq_true]
  constructor
  · rintro ⟨w, hw, hmeet⟩
    have hw := List.mem_range.1 hw
    obtain ⟨k, hk, hboth⟩ := Bits.exists_test_of_ne_zero (bne_iff_ne.1 hmeet)
    rw [Bits.test_and hk, Bool.and_eq_true, test_word m i hw hk, test_word m' j (hcols ▸ hw) hk] at hboth
    exact ⟨64 * w + k, hboth⟩
  · rintro ⟨c, hc, hc'⟩
    have hlt : c < m.cols := (of_decide_eq_true (Bool.and_eq_true_iff.1 hc).1).2
    have hw : c / 64 < stride m.cols := div_lt_stride hlt
    have hbit : c % 64 < 64 := Nat.mod_lt c (by decide)
    have hboth : Bits.test (m.word i (c / 64) &&& m'.word j (c / 64)) (c % 64) = true := by
      rw [Bits.test_and hbit, test_word m i hw hbit, test_word m' j (hcols ▸ hw) hbit, Nat.div_add_mod, hc, hc',
        Bool.and_self]
    refine ⟨c / 64, List.mem_range.2 hw, bne_iff_ne.2 fun hzero => ?_⟩
    rw [hzero, Bits.test_zero] at hboth
    contradiction

section

variable {m m' : BitMatrix} {rows' : Nat} {related related' : Nat → Nat → Prop}

theorem Represents.entry_iff_of_lt (h : m.Represents rows cols related) {r c : Nat} (hr : r < rows) (hc : c < cols) :
    m.entry r c = true ↔ related r c := by
  rw [h.entry_iff]
  exact ⟨fun h => h.2.2, fun h => ⟨hr, hc, h⟩⟩

theorem Represents.entry_eq_false_iff (h : m.Represents rows cols related) {r c : Nat} (hr : r < rows) (hc : c < cols) :
    m.entry r c = false ↔ ¬ related r c := by
  rw [← Bool.not_eq_true, h.entry_iff_of_lt hr hc]

/-- A relation on a given shape has one matrix. -/
theorem Represents.unique (h : m.Represents rows cols related) (h' : m'.Represents rows cols related) : m = m' := by
  refine eq_of_entry_eq (h.rows_eq.trans h'.rows_eq.symm) (h.cols_eq.trans h'.cols_eq.symm) fun r _ c _ => ?_
  rw [Bool.eq_iff_iff, h.entry_iff, h'.entry_iff]

theorem Represents.meets_iff (h : m.Represents rows cols related) (h' : m'.Represents rows' cols related') {i j : Nat}
    (hi : i < rows) (hj : j < rows') : m.meets i m' j = true ↔ ∃ c < cols, related i c ∧ related' j c := by
  rw [BitMatrix.meets_iff (h.cols_eq.trans h'.cols_eq.symm)]
  refine exists_congr fun c => ?_
  rw [h.entry_iff, h'.entry_iff]
  exact ⟨fun ⟨h, h'⟩ => ⟨h.2.1, h.2.2, h'.2.2⟩, fun ⟨hc, h, h'⟩ => ⟨⟨hi, hc, h⟩, hj, hc, h'⟩⟩

theorem Represents.mem_rowList (h : m.Represents rows cols related) {r c : Nat} (hr : r < rows) :
    c ∈ m.rowList r ↔ c < cols ∧ related r c := by
  rw [rowList_eq, List.mem_filter, List.mem_range, h.cols_eq]
  exact and_congr_right fun hc => h.entry_iff_of_lt hr hc

end

end StateSpace.BitMatrix
