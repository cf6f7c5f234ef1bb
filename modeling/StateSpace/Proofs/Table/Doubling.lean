import StateSpace.Proofs.Table.Slots

/-!
# Doubling the capacity

Doubling keeps the entries that are at home under the new capacity and takes all others out (`stores_doubled`,
`mem_staged`), so what is left is well formed (`wellFormed_doubled`), and its members and the keys that were taken out
are together the members before (`mem_iff_doubled`).
-/

namespace StateSpace.Table

/-- A set of numbers below `n` has as many members as the list of numbers below `n` has. -/
theorem card_filter_range (n : Nat) (p : Nat → Bool) :
    ((Finset.range n).filter fun i => p i).card = (List.range n).countP p := by
  rw [Finset.card_def, Finset.filter_val, ← Multiset.countP_eq_card_filter]
  exact (Multiset.coe_countP _ _).trans (List.countP_congr fun i _ => by simp)

/-! ## Slots -/

theorem capacity_doubled (t : Table) : t.doubled.capacity = 2 * t.capacity := by
  unfold capacity doubled
  rw [Nat.one_shiftLeft, Nat.one_shiftLeft, Nat.pow_succ, Nat.mul_comm]

theorem slot_doubled (t : Table) (i : Nat) :
    t.doubled.slot i = if i < 2 * t.capacity then settled (2 * t.capacity) i (t.slot i) else t.slot i := by
  simp only [doubled, slot, Array.getD_eq_getD_getElem?, getElem?_updateBelow]
  split
  · cases t.slots[i]? <;> simp [settled]
  · rfl

/-- An entry that is left was there before, and is at home. -/
theorem entry_of_doubled {t : Table} {i : Nat} {tag : UInt32} {key : State} (hi : i < 2 * t.capacity)
    (h : t.doubled.slot i = .entry tag key) :
    i < t.capacity ∧ t.slot i = .entry tag key ∧ tag.toNat % (2 * t.capacity) = i := by
  rw [slot_doubled, if_pos hi] at h
  unfold settled at h
  split at h
  · simp at h
  · rename_i hcap
    cases hs : t.slot i with
    | empty => simp [hs] at h
    | tombstone => simp [hs] at h
    | entry tag' key' =>
      simp only [hs] at h
      split at h
      · rename_i hhome
        cases h
        exact ⟨by omega, rfl, hhome⟩
      · simp at h

theorem doubled_of_entry {t : Table} {i : Nat} {tag : UInt32} {key : State} (hi : i < t.capacity)
    (h : t.slot i = .entry tag key) (hhome : tag.toNat % (2 * t.capacity) = i) : t.doubled.slot i = .entry tag key := by
  have hlt : i < 2 * t.capacity := by omega
  have hle : ¬ 2 * t.capacity ≤ 2 * i := by omega
  simp only [slot_doubled, hlt, settled, hle, h, hhome, if_true, if_false]

/-- Doubling leaves the keys that are at home. -/
theorem stores_doubled {t : Table} (h : t.WellFormed) (i : Nat) (key : State) :
    t.doubled.Stores i key ↔ t.Stores i key ∧ (keyTag key).toNat % (2 * t.capacity) = i := by
  simp only [Stores, capacity_doubled]
  constructor
  · rintro ⟨hi, tag, hs⟩
    obtain ⟨hi, hs, hhome⟩ := entry_of_doubled hi hs
    exact ⟨⟨hi, tag, hs⟩, h.tag_eq i tag key hi hs ▸ hhome⟩
  · rintro ⟨⟨hi, tag, hs⟩, hhome⟩
    exact ⟨by omega, tag, doubled_of_entry hi hs (h.tag_eq i tag key hi hs ▸ hhome)⟩

/-! ## Entries that are taken out -/

theorem displaced_eq_some {t : Table} {capacity i : Nat} {tag : UInt32} {key : State} :
    t.displaced capacity i = some (tag, key) ↔ t.slot i = .entry tag key ∧ tag.toNat % capacity ≠ i := by
  unfold displaced
  cases hs : t.slot i with
  | empty => simp
  | tombstone => simp
  | entry tag' key' =>
    simp only [Slot.entry.injEq]
    split
    · rename_i hhome
      simp only [reduceCtorEq, false_iff, not_and, not_not]
      rintro ⟨rfl, rfl⟩
      exact hhome
    · rename_i hhome
      simp only [Option.some.injEq, Prod.mk.injEq]
      constructor
      · rintro ⟨rfl, rfl⟩
        exact ⟨⟨rfl, rfl⟩, hhome⟩
      · exact And.left

/-- The entries that are taken out are those not at home. -/
theorem mem_staged {t : Table} {entry : UInt32 × State} :
    entry ∈ t.staged ↔
      ∃ i < t.capacity, t.slot i = .entry entry.1 entry.2 ∧ entry.1.toNat % (2 * t.capacity) ≠ i := by
  obtain ⟨tag, key⟩ := entry
  simp only [staged, List.mem_filterMap, List.mem_range, displaced_eq_some]

/-- An entry that is taken out carries the tag of its key, and its key has the right length. -/
theorem WellFormed.of_mem_staged {t : Table} (h : t.WellFormed) {entry : UInt32 × State} (he : entry ∈ t.staged) :
    entry.1 = keyTag entry.2 ∧ entry.2.length = t.config.keyLength := by
  obtain ⟨i, hi, hs, -⟩ := mem_staged.1 he
  exact ⟨h.tag_eq i _ _ hi hs, h.length_eq i _ ⟨hi, _, hs⟩⟩

/-- Every member is left or taken out. -/
theorem mem_iff_doubled {t : Table} (h : t.WellFormed) (key : State) :
    key ∈ t ↔ key ∈ t.doubled ∨ key ∈ t.staged.map Prod.snd := by
  constructor
  · rintro ⟨i, hs⟩
    by_cases hhome : (keyTag key).toNat % (2 * t.capacity) = i
    · exact .inl ⟨i, (stores_doubled h i key).2 ⟨hs, hhome⟩⟩
    · have hmem : (keyTag key, key) ∈ t.staged := mem_staged.2 ⟨i, hs.1, h.slot_eq hs, hhome⟩
      exact .inr (List.mem_map_of_mem hmem)
  · rintro (⟨i, hs⟩ | hmem)
    · exact ⟨i, ((stores_doubled h i key).1 hs).1⟩
    · obtain ⟨entry, he, rfl⟩ := List.mem_map.1 hmem
      obtain ⟨i, hi, hs, -⟩ := mem_staged.1 he
      exact ⟨i, hi, _, hs⟩

/-! ## The table that is left -/

/-- Doubling turns tombstones into empty slots. -/
theorem tidy_doubled (t : Table) : t.doubled.Tidy := by
  intro i hi
  rw [capacity_doubled] at hi
  rw [slot_doubled, if_pos hi]
  unfold settled
  split
  · simp
  · cases t.slot i with
    | empty => simp
    | tombstone => simp
    | entry tag key =>
      dsimp only
      split <;> simp

/-- The occupied slots are those that keep their entry and those that it is taken out of. -/
theorem card_occupied_doubled {t : Table} (h : t.WellFormed) :
    t.doubled.occupied.card + t.staged.length = t.occupied.card := by
  have hstaged : t.staged.length =
      ((Finset.range t.capacity).filter fun i => (t.displaced (2 * t.capacity) i).isSome).card := by
    rw [card_filter_range, staged, List.length_filterMap_eq_countP]
  have hkept : t.doubled.occupied = t.occupied.filter fun i => (t.displaced (2 * t.capacity) i).isSome = false := by
    ext i
    simp only [Finset.mem_filter, mem_occupied, stores_doubled h]
    constructor
    · rintro ⟨key, hs, hhome⟩
      refine ⟨⟨key, hs⟩, ?_⟩
      simp [displaced, h.slot_eq hs, hhome]
    · rintro ⟨⟨key, hs⟩, hkept⟩
      refine ⟨key, hs, ?_⟩
      by_contra hhome
      simp [displaced, h.slot_eq hs, hhome] at hkept
  have htaken : ((Finset.range t.capacity).filter fun i => (t.displaced (2 * t.capacity) i).isSome) =
      t.occupied.filter fun i => (t.displaced (2 * t.capacity) i).isSome = true := by
    ext i
    simp only [Finset.mem_filter, Finset.mem_range, mem_occupied, Option.isSome_iff_exists]
    constructor
    · rintro ⟨hi, ⟨tag, key⟩, hd⟩
      exact ⟨⟨key, hi, tag, (displaced_eq_some.1 hd).1⟩, _, hd⟩
    · rintro ⟨⟨key, hi, -⟩, hd⟩
      exact ⟨hi, hd⟩
  rw [hstaged, hkept, htaken, Nat.add_comm]
  simpa using Finset.card_filter_add_card_filter_not (s := t.occupied)
    (fun i => (t.displaced (2 * t.capacity) i).isSome = true)

/-- Doubling a table below its largest capacity. -/
theorem wellFormed_doubled {t : Table} (h : t.WellFormed) (hlt : t.pow2 < t.config.maxPow2) :
    t.doubled.WellFormed := by
  have hcap := capacity_doubled t
  refine ⟨⟨h.valid, ?_, ?_, hlt⟩, ?_, ?_, ?_, ?_, ?_⟩
  · exact (size_updateBelow ..).trans h.size_eq
  · exact Nat.le_succ_of_le h.initial_le
  · intro i tag key hi hs
    obtain ⟨hi, hs, -⟩ := entry_of_doubled (hcap ▸ hi) hs
    exact h.tag_eq i tag key hi hs
  · intro i key hs
    exact h.length_eq i key ((stores_doubled h i key).1 hs).1
  · intro i j key hi hj
    exact h.unique i j key ((stores_doubled h i key).1 hi).1 ((stores_doubled h j key).1 hj).1
  · have hcard := card_occupied_doubled h
    have hload : t.doubled.load = t.load - t.staged.length := rfl
    rw [hload, h.load_eq]
    omega
  · -- a key that is left is the first thing that its walk comes to
    intro i key hs
    rw [← ((stores_doubled h i key).1 hs).2, ← hcap]
    exact reaches_home t.doubled key

end StateSpace.Table
