/-!
# Bits of a word

A set of numbers below 64 packed into one word. Bit `i` is read and written with the word that has no other bit
(`mask`). The bits that are set are listed by taking away the lowest one until none is left (`positions`), and they come
out in ascending order (`positions_eq`).
-/

namespace StateSpace.Bits

/-- The word whose only bit is `i`. -/
def mask (i : Nat) : UInt64 := 1 <<< UInt64.ofNat i

/-- Whether bit `i` of a word is set. -/
def test (w : UInt64) (i : Nat) : Bool := w &&& mask i != 0

/-- Sets or clears bit `i` of a word. -/
def put (w : UInt64) (i : Nat) (value : Bool) : UInt64 := if value then w ||| mask i else w &&& ~~~mask i

/-- The word whose bit `i` is `p i` for `i` below `n`, and has no other bits. -/
def pack (p : Nat → Bool) : Nat → UInt64
  | 0 => 0
  | n + 1 => if p n then put (pack p n) n true else pack p n

/-! ## Single bits -/

theorem testBit_mask {i : Nat} (hi : i < 64) (j : Nat) : (mask i).toNat.testBit j = decide (i = j) := by
  have hlt : 2 ^ i < 2 ^ 64 := Nat.pow_lt_pow_right (by decide) hi
  have hmod : i % 2 ^ 64 % 64 = i := by omega
  rw [mask, UInt64.toNat_shiftLeft, UInt64.toNat_ofNat', hmod, UInt64.toNat_one, Nat.one_shiftLeft,
    Nat.mod_eq_of_lt hlt, Nat.testBit_two_pow]

theorem testBit_and_mask {i : Nat} (hi : i < 64) (w : UInt64) (j : Nat) :
    (w &&& mask i).toNat.testBit j = (w.toNat.testBit j && decide (i = j)) := by
  rw [UInt64.toNat_and, Nat.testBit_and, testBit_mask hi]

theorem test_eq {i : Nat} (hi : i < 64) (w : UInt64) : test w i = w.toNat.testBit i := by
  unfold test
  cases hbit : w.toNat.testBit i with
  | true =>
    rw [bne_iff_ne]
    intro hzero
    have := testBit_and_mask hi w i
    simp [hzero, hbit] at this
  | false =>
    have hzero : w &&& mask i = 0 := by
      refine UInt64.toNat_inj.1 (Nat.eq_of_testBit_eq fun j => ?_)
      rw [testBit_and_mask hi, UInt64.toNat_zero, Nat.zero_testBit]
      by_cases hij : i = j
      · rw [← hij, hbit, Bool.false_and]
      · rw [decide_eq_false hij, Bool.and_false]
    rw [hzero]
    rfl

theorem testBit_not {j : Nat} (hj : j < 64) (w : UInt64) : (~~~w).toNat.testBit j = !w.toNat.testBit j := by
  have hbit : (~~~w.toBitVec).getLsbD j = (decide (j < 64) && !w.toBitVec.getLsbD j) := BitVec.getLsbD_not
  rwa [decide_eq_true hj, Bool.true_and] at hbit

theorem test_zero (i : Nat) : test 0 i = false := by simp [test]

theorem test_put {i j : Nat} (hi : i < 64) (hj : j < 64) (w : UInt64) (value : Bool) :
    test (put w i value) j = if j = i then value else test w j := by
  rw [test_eq hj, test_eq hj]
  cases value with
  | false =>
    rw [put, if_neg (by decide), UInt64.toNat_and, Nat.testBit_and, testBit_not hj, testBit_mask hi]
    by_cases hji : j = i
    · simp [hji]
    · simp [hji, Ne.symm hji]
  | true =>
    rw [put, if_pos rfl, UInt64.toNat_or, Nat.testBit_or, testBit_mask hi]
    by_cases hji : j = i
    · simp [hji]
    · simp [hji, Ne.symm hji]

theorem test_pack (p : Nat → Bool) {n i : Nat} (hn : n ≤ 64) (hi : i < 64) :
    test (pack p n) i = (decide (i < n) && p i) := by
  induction n with
  | zero => simp [pack, test_zero]
  | succ n ih =>
    have ih := ih (by omega)
    have hlt : i < n + 1 ↔ i = n ∨ i < n := by omega
    cases hp : p n with
    | true =>
      rw [pack, if_pos hp, test_put (by omega) hi, ih]
      by_cases hin : i = n <;> simp [hin, hp, hlt]
    | false =>
      rw [pack, if_neg (by simp [hp]), ih]
      by_cases hin : i = n <;> simp [hin, hp, hlt]

/-- Words are equal if all their bits are. -/
theorem eq_of_test_eq {w w' : UInt64} (h : ∀ i < 64, test w i = test w' i) : w = w' := by
  refine UInt64.toBitVec_inj.1 (BitVec.eq_of_getLsbD_eq fun i hi => ?_)
  exact (test_eq hi w).symm.trans ((h i hi).trans (test_eq hi w'))

theorem test_and {i : Nat} (hi : i < 64) (w w' : UInt64) : test (w &&& w') i = (test w i && test w' i) := by
  rw [test_eq hi, test_eq hi, test_eq hi, UInt64.toNat_and, Nat.testBit_and]

/-- A word has a bit unless it is zero. -/
theorem exists_test_of_ne_zero {w : UInt64} (h : w ≠ 0) : ∃ i < 64, test w i = true := by
  refine Classical.byContradiction fun hno => h (eq_of_test_eq fun i hi => ?_)
  rw [test_zero]
  exact Bool.eq_false_iff.2 fun hset => hno ⟨i, hi, hset⟩

/-! ## The bits of a word, one by one -/

/-- The lowest bit of a word that has one. Taking it away leaves `w &&& (w - 1)`, so it is the difference of the two. -/
def lowest (w : UInt64) : Nat := (w ^^^ (w &&& (w - 1))).log2.toNat

theorem toNat_sub_one {w : UInt64} (h : w ≠ 0) : (w - 1).toNat = w.toNat - 1 := by
  have hpos : 1 ≤ w := by
    rw [UInt64.le_iff_toNat_le, UInt64.toNat_one]
    exact Nat.one_le_iff_ne_zero.2 fun hzero => h (UInt64.toNat_inj.1 hzero)
  rw [UInt64.toNat_sub_of_le w 1 hpos, UInt64.toNat_one]

theorem without_lowest_lt {w : UInt64} (h : w ≠ 0) : (w &&& (w - 1)).toNat < w.toNat := by
  have hle : w.toNat &&& (w.toNat - 1) ≤ w.toNat - 1 := Nat.and_le_right
  have hne : w.toNat ≠ 0 := fun hzero => h (UInt64.toNat_inj.1 hzero)
  rw [UInt64.toNat_and, toNat_sub_one h]
  omega

/-- The bits that are set, the lowest first. -/
def positions (w : UInt64) : List Nat :=
  if h : w = 0 then [] else lowest w :: positions (w &&& (w - 1))
termination_by w.toNat
decreasing_by exact without_lowest_lt h

/-- A number has a lowest bit, which is the one that it does not share with its predecessor and what is above. -/
theorem exists_lowest {n : Nat} (hn : n ≠ 0) : ∃ k, n.testBit k = true ∧ (∀ j < k, n.testBit j = false) ∧
    ∀ j, (n &&& (n - 1)).testBit j = (n.testBit j && decide (j ≠ k)) := by
  induction n using Nat.strongRecOn with
  | ind n ih =>
    rcases Nat.mod_two_eq_zero_or_one n with hmod | hmod
    · obtain ⟨k, hk, hlow, hrest⟩ := ih (n / 2) (by omega) (by omega)
      refine ⟨k + 1, by rwa [Nat.testBit_succ], fun j hj => ?_, fun j => ?_⟩
      · cases j with
        | zero => simp [Nat.testBit_zero, hmod]
        | succ j => rw [Nat.testBit_succ, hlow j (by omega)]
      · cases j with
        | zero => simp [Nat.testBit_zero, hmod]
        | succ j =>
          have hhalf : (n - 1) / 2 = n / 2 - 1 := by omega
          rw [Nat.testBit_and, Nat.testBit_succ, Nat.testBit_succ, hhalf, ← Nat.testBit_and, hrest]
          simp
    · refine ⟨0, by simp [Nat.testBit_zero, hmod], fun j hj => by omega, fun j => ?_⟩
      cases j with
      | zero =>
        have : (n - 1) % 2 = 0 := by omega
        simp [Nat.testBit_zero, this]
      | succ j =>
        have hhalf : (n - 1) / 2 = n / 2 := by omega
        rw [Nat.testBit_and, Nat.testBit_succ, Nat.testBit_succ, hhalf]
        simp

/-- What the lowest bit is, and what is left without it. -/
theorem lowest_spec {w : UInt64} (h : w ≠ 0) : lowest w < 64 ∧ test w (lowest w) = true ∧
    (∀ j < lowest w, test w j = false) ∧
    ∀ j < 64, test (w &&& (w - 1)) j = (test w j && decide (j ≠ lowest w)) := by
  have hne : w.toNat ≠ 0 := fun hzero => h (UInt64.toNat_inj.1 hzero)
  obtain ⟨k, hk, hlow, hrest⟩ := exists_lowest hne
  have hlt : k < 64 := by
    refine Nat.lt_of_not_le fun hle => ?_
    have hbig : w.toNat < 2 ^ k := Nat.lt_of_lt_of_le w.toNat_lt (Nat.pow_le_pow_right (by decide) hle)
    rw [Nat.testBit_lt_two_pow hbig] at hk
    contradiction
  have hpow : (w ^^^ (w &&& (w - 1))).toNat = 2 ^ k := by
    refine Nat.eq_of_testBit_eq fun j => ?_
    rw [UInt64.toNat_xor, UInt64.toNat_and, toNat_sub_one h, Nat.testBit_xor, hrest, Nat.testBit_two_pow]
    by_cases hjk : j = k
    · simp [hjk, hk]
    · simp [hjk, Ne.symm hjk]
  have heq : lowest w = k := by
    have hlog : (w ^^^ (w &&& (w - 1))).log2.toNat = (w ^^^ (w &&& (w - 1))).toNat.log2 := rfl
    rw [lowest, hlog, hpow, Nat.log2_two_pow]
  rw [heq]
  refine ⟨hlt, by rw [test_eq hlt, hk], fun j hj => ?_, fun j hj => ?_⟩
  · rw [test_eq (by omega), hlow j hj]
  · rw [test_eq hj, test_eq hj, UInt64.toNat_and, toNat_sub_one h, hrest]

theorem positions_eq_range' (w : UInt64) (v : Nat) (hv : v ≤ 64) (hclear : ∀ i < v, test w i = false) :
    positions w = (List.range' v (64 - v)).filter (test w) := by
  fun_induction positions w generalizing v with
  | case1 => simp [test_zero]
  | case2 w h ih =>
    obtain ⟨hlt, hset, hlow, hrest⟩ := lowest_spec h
    generalize lowest w = l at hlt hset hlow hrest
    have hle : v ≤ l := Nat.le_of_not_lt fun hl => by simp [hclear l hl] at hset
    have hsplit : List.range' v (64 - v) = List.range' v (l - v) ++ l :: List.range' (l + 1) (64 - (l + 1)) := by
      have hlength : 64 - l = 64 - (l + 1) + 1 := by omega
      have hsum : 64 - v = l - v + (64 - l) := by omega
      rw [hsum, ← List.range'_append_1, Nat.add_sub_of_le hle, hlength, List.range'_succ]
    have hbelow : (List.range' v (l - v)).filter (test w) = [] := by
      refine List.filter_eq_nil_iff.2 fun i hi => ?_
      rw [hlow i (by have := List.mem_range'_1.1 hi; omega)]
      decide
    have habove : (List.range' (l + 1) (64 - (l + 1))).filter (test (w &&& (w - 1))) =
        (List.range' (l + 1) (64 - (l + 1))).filter (test w) := by
      refine List.filter_congr fun i hi => ?_
      have hi := List.mem_range'_1.1 hi
      rw [hrest i (by omega), decide_eq_true (by omega), Bool.and_true]
    have hclear' (i : Nat) (hi : i < l + 1) : test (w &&& (w - 1)) i = false := by
      rw [hrest i (by omega)]
      by_cases hil : i = l
      · simp [hil]
      · rw [hlow i (by omega), Bool.false_and]
    rw [ih (l + 1) hlt hclear', habove, hsplit, List.filter_append, hbelow, List.nil_append,
      List.filter_cons_of_pos hset]

/-- The positions are the numbers whose bit is set, ascending. -/
theorem positions_eq (w : UInt64) : positions w = (List.range 64).filter (test w) := by
  rw [positions_eq_range' w 0 (Nat.zero_le 64) nofun, List.range_eq_range']

/-- The number of bits that are set. -/
def count (w : UInt64) : Nat := (positions w).length

/-! ## Ranges -/

/-- Two ranges agree below a bound that both reach. -/
theorem filter_range_add (v d : Nat) (p : Nat → Bool) (h : ∀ i, v ≤ i → p i = false) :
    (List.range (v + d)).filter p = (List.range v).filter p := by
  rw [List.range_add, List.filter_append]
  have htail : ((List.range d).map (v + ·)).filter p = [] := by
    refine List.filter_eq_nil_iff.2 fun i hi => ?_
    obtain ⟨j, _, rfl⟩ := List.mem_map.1 hi
    simp [h (v + j) (Nat.le_add_right v j)]
  rw [htail, List.append_nil]

/-- A range of whole words, word by word. -/
theorem flatMap_words (p : Nat → Bool) (n : Nat) :
    (List.range n).flatMap (fun w => ((List.range 64).filter fun i => p (64 * w + i)).map (64 * w + ·)) =
      (List.range (64 * n)).filter p := by
  induction n with
  | zero => rfl
  | succ n ih =>
    rw [List.range_succ (n := n), List.flatMap_append, ih, Nat.mul_succ, List.range_add, List.filter_append,
      List.filter_map]
    simp [Function.comp_def]

end StateSpace.Bits
