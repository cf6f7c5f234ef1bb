import StateSpace.Proofs.Table.Representation

/-!
# Taking entries out

Before growth puts anything back, it looks at the slots in use one by one. While it does, the load does not count the
occupied slots: it counts the entries that are not taken out yet. The table of which growth has looked at some slots is
given here as a table (`doubledBelow`), so that what it holds is known after each of them (`performs_stage`). The load
covers all entries that are taken out (`length_stagedBelow_le`), so it is never counted below zero.

When all slots have been looked at and the others are emptied, the table is that of twice the capacity
(`performs_double`).
-/

namespace StateSpace.Table

open Access

variable {t : Table} {config : Config}

/-! ## Slots before a doubling -/

/-- The entries that doubling takes out of the first `n` slots. -/
def stagedBelow (t : Table) (n : Nat) : List (UInt32 × State) := (List.range n).filterMap (t.displaced (2 * t.capacity))

/-- The table with twice the capacity, of which growth has looked at the first `n` slots. -/
def doubledBelow (t : Table) (n : Nat) : Table :=
  { t with
    pow2 := t.pow2 + 1
    slots := updateBelow (settled (2 * t.capacity)) n t.slots
    load := t.load - (t.stagedBelow n).length
    reclaimed := t.reclaimed + (List.range n).countP fun i => t.slot i == .tombstone }

/-- Entries as growth keeps them. -/
def Staging.of (entries : List (UInt32 × State)) : Staging :=
  ⟨entries.map Prod.fst, (entries.flatMap Prod.snd).toArray⟩

theorem slot_doubledBelow (t : Table) (n i : Nat) :
    (t.doubledBelow n).slot i = if i < n then settled (2 * t.capacity) i (t.slot i) else t.slot i := by
  simp only [doubledBelow, slot, Array.getD_eq_getD_getElem?, getElem?_updateBelow]
  split
  · cases t.slots[i]? <;> simp [settled]
  · rfl

theorem slot_doubledBelow_succ (t : Table) (n i : Nat) : (t.doubledBelow (n + 1)).slot i =
    if n = i then settled (2 * t.capacity) n (t.slot n) else (t.doubledBelow n).slot i := by
  rw [slot_doubledBelow, slot_doubledBelow]
  by_cases hi : n = i
  · simp [hi]
  · rw [if_neg hi]
    simp only [show i < n + 1 ↔ i < n by omega]

theorem stagedBelow_succ (t : Table) (n : Nat) :
    t.stagedBelow (n + 1) = t.stagedBelow n ++ (t.displaced (2 * t.capacity) n).toList := by
  unfold stagedBelow
  rw [List.range_succ, List.filterMap_append]
  cases hd : t.displaced (2 * t.capacity) n <;> simp [hd]

theorem countP_range_succ (n : Nat) (p : Nat → Bool) :
    (List.range (n + 1)).countP p = (List.range n).countP p + (p n).toNat := by
  rw [List.range_succ, List.countP_append, List.countP_singleton]
  cases p n <;> rfl

/-- What is taken out of the first slots is part of all that is taken out. -/
theorem length_stagedBelow_le {n : Nat} (h : t.WellFormed) (hn : n ≤ t.capacity) :
    (t.stagedBelow n).length ≤ t.load := by
  have hsub : (t.stagedBelow n).length ≤ t.staged.length := ((List.range_sublist.2 hn).filterMap _).length_le
  have hload := load_doubled h
  omega

/-! ## One slot -/

/-- A slot that is neither a tombstone nor gives up its entry stays as it is. -/
theorem storedAlike_kept {n : Nat} (hkept : settled (2 * t.capacity) n (t.slot n) = t.slot n)
    (hnone : t.displaced (2 * t.capacity) n = none) (hs : t.slot n ≠ .tombstone) :
    t.stagedBelow (n + 1) = t.stagedBelow n ∧ StoredAlike (t.doubledBelow n) (t.doubledBelow (n + 1)) := by
  have hstaged : t.stagedBelow (n + 1) = t.stagedBelow n := by
    rw [stagedBelow_succ, hnone, Option.toList_none, List.append_nil]
  refine ⟨hstaged, rfl, (size_updateBelow ..).trans (size_updateBelow ..).symm, fun i => ?_, ?_⟩
  · rw [slot_doubledBelow_succ, hkept]
    split
    · rename_i hi
      rw [slot_doubledBelow, ← hi, if_neg (Nat.lt_irrefl n)]
    · rfl
  · have hcount : (t.slot n == .tombstone) = false := beq_eq_false_iff_ne.2 hs
    simp only [counters, doubledBelow, hstaged, countP_range_succ, hcount]
    rfl

/-- A tombstone is emptied. -/
theorem storedAlike_reclaimed {n : Nat} (hs : t.slot n = .tombstone) : t.stagedBelow (n + 1) = t.stagedBelow n ∧
    StoredAlike { (t.doubledBelow n).setSlot n .empty with reclaimed := (t.doubledBelow n).reclaimed + 1 }
      (t.doubledBelow (n + 1)) := by
  have hstaged : t.stagedBelow (n + 1) = t.stagedBelow n := by
    rw [stagedBelow_succ, displaced, hs, Option.toList_none, List.append_nil]
  have hsettled : settled (2 * t.capacity) n .tombstone = .empty := by
    unfold settled
    split <;> rfl
  refine ⟨hstaged, rfl, ?_, fun i => ?_, ?_⟩
  · exact (size_updateBelow ..).trans ((Array.size_setIfInBounds ..).trans (size_updateBelow ..)).symm
  · rw [slot_doubledBelow_succ, hs, hsettled]
    exact (slot_setSlot_empty _ n i).symm
  · simp only [counters, setSlot, doubledBelow, hstaged, countP_range_succ, hs]
    rfl

/-- An entry is taken out. -/
theorem storedAlike_taken {n : Nat} {entry : UInt32 × State} (hsome : t.displaced (2 * t.capacity) n = some entry) :
    t.stagedBelow (n + 1) = t.stagedBelow n ++ [entry] ∧
    StoredAlike { (t.doubledBelow n).setSlot n .empty with load := (t.doubledBelow n).load - 1 }
      (t.doubledBelow (n + 1)) := by
  have hstaged : t.stagedBelow (n + 1) = t.stagedBelow n ++ [entry] := by
    rw [stagedBelow_succ, hsome, Option.toList_some]
  obtain ⟨hs, hhome⟩ := displaced_eq_some.1 hsome
  have hsettled : settled (2 * t.capacity) n (.entry entry.1 entry.2) = .empty := by
    simp only [settled, if_neg hhome, ite_self]
  refine ⟨hstaged, rfl, ?_, fun i => ?_, ?_⟩
  · exact (size_updateBelow ..).trans ((Array.size_setIfInBounds ..).trans (size_updateBelow ..)).symm
  · rw [slot_doubledBelow_succ, hs, hsettled]
    exact (slot_setSlot_empty _ n i).symm
  · simp only [counters, setSlot, doubledBelow, hstaged, countP_range_succ, hs, List.length_append,
      List.length_singleton, ← Nat.sub_sub]
    rfl

section

variable {n : Nat} (hc : t.config = config) (h : t.WellFormed) (hn : n < t.capacity)

include hc h hn

/-- Growth looks at one slot. -/
theorem performs_stage : Performs (t.doubledBelow n) (config.stage (2 * t.capacity - 1) (.of (t.stagedBelow n)) n)
    (.of (t.stagedBelow (n + 1))) (t.doubledBelow (n + 1)) := by
  have hmax := lt_maxCapacity hc h hn
  have hslot : (t.doubledBelow n).slot n = t.slot n := by rw [slot_doubledBelow, if_neg (Nat.lt_irrefl n)]
  have hread := performs_fingerprint (t := t.doubledBelow n) hc hmax
  have hempty := performs_setFingerprint (t := t.doubledBelow n) hc hmax (s := .empty) nofun
  rw [hslot] at hread
  unfold Config.stage
  refine (performs_index hmax).bind (hread.bind ?_)
  cases hs : t.slot n <;>
    simp only [Slot.fingerprint, Fingerprint.isEmpty, Fingerprint.isTombstone, Bool.false_eq_true, if_true, if_false]
  case empty =>
    obtain ⟨hstaged, halike⟩ := storedAlike_kept (t := t) (n := n) (by simp [hs, settled]) (by rw [displaced, hs])
      (by simp [hs])
    rw [hstaged]
    exact performs_pure.alike halike
  case tombstone =>
    obtain ⟨hstaged, halike⟩ := storedAlike_reclaimed hs
    have hreclaim : Performs ((t.doubledBelow n).setSlot n .empty)
        (modify fun s => { s with reclaimed := s.reclaimed + 1 }) ()
        { (t.doubledBelow n).setSlot n .empty with reclaimed := (t.doubledBelow n).reclaimed + 1 } := by
      refine performs_modify _ rfl rfl (fun _ => rfl) (fun _ => rfl) fun l hl => ?_
      rw [hl]
      rfl
    rw [hstaged]
    exact hempty.bind ((hreclaim.alike halike).bind performs_pure)
  case entry tag key =>
    have htag : (Fingerprint.occupied tag).tag = tag := by
      rw [tag_occupied, h.tag_eq n tag key hn hs, tagOf_keyTag]
    have hmask : tag.toNat &&& (2 * t.capacity - 1) = tag.toNat % (2 * t.capacity) := by
      rw [← capacity_doubled, capacity, Nat.one_shiftLeft, Nat.and_two_pow_sub_one_eq_mod]
    simp only [htag, hmask]
    by_cases hhome : tag.toNat % (2 * t.capacity) = n
    · have hle : ¬ 2 * t.capacity ≤ 2 * n := by omega
      obtain ⟨hstaged, halike⟩ := storedAlike_kept (t := t) (n := n) (by simp [hs, settled, hle, hhome])
        (by simp only [displaced, hs, if_pos hhome]) (by simp [hs])
      rw [if_pos hhome, hstaged]
      exact performs_pure.alike halike
    · obtain ⟨hstaged, halike⟩ := storedAlike_taken (displaced_eq_some.2 ⟨hs, hhome⟩)
      have hle := length_stagedBelow_le h hn
      rw [hstaged, List.length_append, List.length_singleton] at hle
      have hload : 0 < (t.doubledBelow n).load := Nat.sub_pos_of_lt hle
      have hresult : (⟨(Staging.of (t.stagedBelow n)).tags ++ [tag], (Staging.of (t.stagedBelow n)).words ++ key⟩ :
          Staging) = .of (t.stagedBelow (n + 1)) := by
        simp [Staging.of, hstaged]
      rw [if_neg hhome, ← hresult]
      exact (performs_key (t := t.doubledBelow n) hc hmax (hslot.trans hs)).bind (hempty.bind
        (((performs_unload (t := (t.doubledBelow n).setSlot n .empty) hload).alike halike).bind performs_pure))

end

/-! ## All slots -/

section

variable (hc : t.config = config) (h : t.WellFormed)

include hc h

theorem performs_foldlM_stage {n : Nat} (hn : n ≤ t.capacity) : Performs (t.doubledBelow 0)
    ((List.range n).foldlM (config.stage (2 * t.capacity - 1)) {}) (.of (t.stagedBelow n)) (t.doubledBelow n) := by
  induction n with
  | zero => exact performs_pure
  | succ n ih =>
    rw [List.range_succ, List.foldlM_append]
    exact (ih (Nat.le_of_succ_le hn)).bind ((performs_stage hc h hn).bind performs_pure)

/-- Growth takes the entries out of the slots in use, and empties the slots that come into use. -/
theorem performs_double (hlt : t.pow2 < t.config.maxPow2) :
    Performs t (config.double t.capacity) (.of t.staged) t.doubled := by
  have hshift : t.capacity <<< 1 = 2 * t.capacity := by rw [Nat.shiftLeft_eq, Nat.pow_one, Nat.mul_comm]
  have hdoubled : (t.doubledBelow 0).capacity = 2 * t.capacity := t.capacity_doubled
  have hmax : 2 * t.capacity ≤ config.maxCapacity := by
    rw [← capacity_doubled, ← hc]
    exact (wellFormed_doubled h hlt).capacity_le_max
  have hcapacity : Performs t (modify fun s => { s with capacity := 2 * t.capacity }) () (t.doubledBelow 0) := by
    refine performs_modify _ rfl rfl (fun _ => rfl) (fun _ => rfl) fun l hl => ?_
    rw [hl]
    exact congrArg (fun capacity => Counters.mk capacity _ _ _ _) hdoubled.symm
  have hclear := performs_clearRange (t := t.doubledBelow t.capacity) hc t.capacity hmax
  unfold Config.double
  rw [hshift]
  refine hcapacity.bind ((ends_subtract (Nat.mul_pos Nat.two_pos t.capacity_pos)).bind
    ((performs_foldlM_stage hc h (Nat.le_refl _)).bind ((hclear.alike ?_).bind performs_pure)))
  obtain ⟨hconfig, hsize, hcounters, hslot⟩ :=
    alike_emptied (t.doubledBelow t.capacity) (List.range' t.capacity (2 * t.capacity - t.capacity))
  refine ⟨hconfig.symm, ?_, fun i => ?_, hcounters.symm⟩
  · rw [hsize]
    exact (size_updateBelow ..).trans (size_updateBelow ..).symm
  · rw [hslot, slot_doubled, slot_doubledBelow]
    simp only [List.mem_range'_1]
    by_cases hused : i < t.capacity
    · have hlt : i < 2 * t.capacity := by omega
      have hnot : ¬ (t.capacity ≤ i ∧ i < t.capacity + (2 * t.capacity - t.capacity)) := by omega
      rw [if_pos hlt, if_neg hnot, if_pos hused]
    · by_cases hnew : i < 2 * t.capacity
      · have hin : t.capacity ≤ i ∧ i < t.capacity + (2 * t.capacity - t.capacity) := by omega
        have hsettled : settled (2 * t.capacity) i (t.slot i) = .empty := if_pos (by omega)
        rw [if_pos hnew, if_pos hin, hsettled]
      · have hnot : ¬ (t.capacity ≤ i ∧ i < t.capacity + (2 * t.capacity - t.capacity)) := by omega
        rw [if_neg hnew, if_neg hnot, if_neg hused]

end

end StateSpace.Table
