import StateSpace.Proofs.Table.Invariant

/-!
# Storing, moving and removing one entry

Each of these replaces one slot or two of a well-formed table and leaves a well-formed table: the slot where a probe
said that a key belongs is filled (`wellFormed_occupy`), a key is moved into the tombstone that a probe met before it
(`wellFormed_relocate`), and a key is removed from the slot where a probe found it (`wellFormed_vacate`). None of them
empties a slot, so the walks of all other keys stay whole. What each does to the members is read off the slots
(`stores_occupy`, `stores_relocate`, `stores_vacate`).
-/

namespace StateSpace.Table

variable {t : Table}

/-! ## Slots after a change -/

theorem getD_setIfInBounds (slots : Array Slot) (i j : Nat) (s : Slot) :
    (slots.setIfInBounds i s).getD j .empty = if i = j ∧ i < slots.size then s else slots.getD j .empty := by
  simp only [Array.getD_eq_getD_getElem?, Array.getElem?_setIfInBounds]
  by_cases hij : i = j
  · subst hij
    by_cases hi : i < slots.size <;> simp [hi]
  · simp [hij]

section

variable {i : Nat} (hi : i < t.slots.size)

include hi

theorem slot_occupy (key : State) (hash : UInt32) (j : Nat) :
    (t.occupy i key hash).slot j = if i = j then .entry (Fingerprint.tagOf hash) key else t.slot j := by
  simp only [occupy, slot, getD_setIfInBounds, hi, and_true]

theorem slot_vacate (j : Nat) : (t.vacate i).slot j = if i = j then .tombstone else t.slot j := by
  simp only [vacate, slot, getD_setIfInBounds, hi, and_true]

theorem slot_relocate {k : Nat} (hk : k < t.slots.size) (j : Nat) :
    (t.relocate i k).slot j = if i = j then .tombstone else if k = j then t.slot i else t.slot j := by
  simp only [relocate, slot, getD_setIfInBounds, Array.size_setIfInBounds, hi, hk, and_true]

end

/-! ## Storing a key -/

section

variable {key : State} {hash : UInt32} {i : Nat} {onTombstone : Bool}

/-- A slot that a walk comes to and that is not occupied takes a key. -/
theorem stores_occupy (hi : i < t.slots.size) (hcap : i < t.capacity) (hfree : ∀ k, ¬ t.Stores i k) (j : Nat)
    (k : State) : (t.occupy i key hash).Stores j k ↔ j = i ∧ k = key ∨ t.Stores j k := by
  have hcapacity : (t.occupy i key hash).capacity = t.capacity := rfl
  by_cases hij : i = j
  · subst hij
    simp only [Stores, hcapacity, slot_occupy hi, if_true, Slot.entry.injEq, true_and]
    constructor
    · rintro ⟨-, -, -, rfl⟩
      exact .inl rfl
    · rintro (rfl | hs)
      · exact ⟨hcap, _, rfl, rfl⟩
      · exact absurd hs (hfree k)
  · simp only [Stores, hcapacity, slot_occupy hi, if_neg hij, Ne.symm hij, false_and, false_or]

theorem tidy_occupy (h : t.Tidy) : (t.occupy i key hash).Tidy := by
  intro j hj
  simp only [occupy, slot, getD_setIfInBounds]
  split
  · simp
  · exact h j hj

/-- A slot that a probe offers stores nothing yet. -/
theorem not_stores_of_vacant (hh : Fingerprint.tagOf hash = keyTag key) (hp : t.probe key hash = .vacant i onTombstone)
    (k : State) : ¬ t.Stores i k := by
  rintro ⟨-, tag, hs⟩
  have hslot := (probe_vacant hh hp).2.1
  rw [hs] at hslot
  cases onTombstone <;> simp at hslot

theorem mem_occupy (h : t.WellFormed) (hh : Fingerprint.tagOf hash = keyTag key)
    (hp : t.probe key hash = .vacant i onTombstone) (k : State) : k ∈ t.occupy i key hash ↔ k = key ∨ k ∈ t := by
  have hcap := (probe_vacant hh hp).1.lt
  have hi := h.lt_size hcap
  simp only [mem_def, stores_occupy hi hcap (not_stores_of_vacant hh hp)]
  constructor
  · rintro ⟨j, ⟨-, rfl⟩ | hs⟩
    · exact .inl rfl
    · exact .inr ⟨j, hs⟩
  · rintro (rfl | ⟨j, hs⟩)
    · exact ⟨i, .inl ⟨rfl, rfl⟩⟩
    · exact ⟨j, .inr hs⟩

/-- Storing a key where a probe said. -/
theorem wellFormed_occupy (h : t.WellFormed) (hh : Fingerprint.tagOf hash = keyTag key)
    (hlength : key.length = t.config.keyLength) (hp : t.probe key hash = .vacant i onTombstone) :
    (t.occupy i key hash).WellFormed := by
  obtain ⟨hreach, -, -⟩ := probe_vacant hh hp
  have hi := h.lt_size hreach.lt
  have hnew : key ∉ t := h.not_mem_of_vacant hh hp
  have hfree := not_stores_of_vacant hh hp
  have hstores : ∀ j k, (t.occupy i key hash).Stores j k ↔ _ := stores_occupy hi hreach.lt hfree
  refine h.updated rfl rfl (by simp [occupy]) (fun j hj => ?_) (fun j tag k hs => ?_) ?_ ?_
  · rw [slot_occupy hi]
    split
    · simp
    · exact hj
  · rw [slot_occupy hi] at hs
    split at hs
    · rename_i hij
      obtain ⟨rfl, rfl⟩ := Slot.entry.inj hs
      exact .inr ⟨hh, hlength, hij ▸ hreach⟩
    · exact .inl hs
  · intro j j' k hj hj'
    rw [hstores] at hj hj'
    rcases hj with ⟨rfl, rfl⟩ | hj <;> rcases hj' with ⟨rfl, hk⟩ | hj'
    · rfl
    · exact absurd ⟨j', hj'⟩ hnew
    · exact absurd ⟨j, hk ▸ hj⟩ hnew
    · exact h.unique j j' k hj hj'
  · have hocc : (t.occupy i key hash).occupied = insert i t.occupied := by
      ext j
      simp only [Finset.mem_insert, mem_occupied, hstores]
      constructor
      · rintro ⟨k, ⟨hj, -⟩ | hj⟩
        · exact .inl hj
        · exact .inr ⟨k, hj⟩
      · rintro (hj | ⟨k, hj⟩)
        · exact ⟨key, .inl ⟨hj, rfl⟩⟩
        · exact ⟨k, .inr hj⟩
    have hnot : i ∉ t.occupied := fun hmem => by
      obtain ⟨k, hs⟩ := mem_occupied.1 hmem
      exact hfree k hs
    rw [hocc, Finset.card_insert_of_notMem hnot, ← h.load_eq]
    rfl

end

/-! ## Moving a key -/

section

variable {key : State} {hash : UInt32} {i j : Nat}

/-- When a probe has met a tombstone before the key, the key can be moved there. -/
theorem movable_of_hit (hh : Fingerprint.tagOf hash = keyTag key) (hp : t.probe key hash = .hit i (some j)) :
    t.Stores i key ∧ t.Reaches key j ∧ t.slot j = .tombstone := by
  obtain ⟨hreach, hslot, htomb⟩ := probe_hit hh hp
  exact ⟨⟨hreach.lt, _, hslot⟩, htomb j rfl⟩

theorem stores_relocate (h : t.WellFormed) (hi : t.Stores i key) (hj : j < t.capacity) (hslot : t.slot j = .tombstone)
    (k : Nat) (key' : State) :
    (t.relocate i j).Stores k key' ↔ k = j ∧ key' = key ∨ k ≠ i ∧ t.Stores k key' := by
  have hcapacity : (t.relocate i j).capacity = t.capacity := rfl
  have hne : i ≠ j := by
    rintro rfl
    obtain ⟨-, tag, hs⟩ := hi
    simp [hs] at hslot
  simp only [Stores, hcapacity, slot_relocate (h.lt_size hi.1) (h.lt_size hj)]
  by_cases hik : i = k
  · subst hik
    simp [hne]
  · by_cases hjk : j = k
    · subst hjk
      obtain ⟨-, tag, hs⟩ := hi
      simp [hik, hs, hslot, hj, eq_comm]
    · simp [hik, hjk, Ne.symm hik, Ne.symm hjk]

theorem mem_relocate (h : t.WellFormed) (hi : t.Stores i key) (hj : j < t.capacity) (hslot : t.slot j = .tombstone)
    (key' : State) : key' ∈ t.relocate i j ↔ key' ∈ t := by
  simp only [mem_def, stores_relocate h hi hj hslot]
  constructor
  · rintro ⟨k, ⟨-, rfl⟩ | ⟨-, hs⟩⟩
    · exact ⟨i, hi⟩
    · exact ⟨k, hs⟩
  · rintro ⟨k, hs⟩
    by_cases hk : k = i
    · subst hk
      exact ⟨j, .inl ⟨rfl, hs.key_eq hi⟩⟩
    · exact ⟨k, .inr ⟨hk, hs⟩⟩

/-- Moving a key frees one slot and occupies another. -/
theorem occupied_relocate (h : t.WellFormed) (hi : t.Stores i key) (hj : j < t.capacity)
    (hslot : t.slot j = .tombstone) :
    (t.relocate i j).occupied = insert j (t.occupied.erase i) ∧ i ∈ t.occupied ∧ j ∉ t.occupied.erase i := by
  refine ⟨?_, mem_occupied.2 ⟨key, hi⟩, fun hmem => ?_⟩
  · ext k
    simp only [Finset.mem_insert, Finset.mem_erase, mem_occupied, stores_relocate h hi hj hslot]
    constructor
    · rintro ⟨key', ⟨hk, -⟩ | ⟨hki, hk⟩⟩
      · exact .inl hk
      · exact .inr ⟨hki, key', hk⟩
    · rintro (hk | ⟨hki, key', hk⟩)
      · exact ⟨key, .inl ⟨hk, rfl⟩⟩
      · exact ⟨key', .inr ⟨hki, hk⟩⟩
  · obtain ⟨k, -, tag, hs⟩ := mem_occupied.1 (Finset.mem_of_mem_erase hmem)
    simp [hs] at hslot

/-- Moving a key into a tombstone that its walk comes to. -/
theorem wellFormed_relocate (h : t.WellFormed) (hi : t.Stores i key) (hreach : t.Reaches key j)
    (hslot : t.slot j = .tombstone) : (t.relocate i j).WellFormed := by
  have hslots := slot_relocate (h.lt_size hi.1) (h.lt_size hreach.lt)
  have hstores := stores_relocate h hi hreach.lt hslot
  refine h.updated rfl rfl (by simp [relocate]) (fun k hk => ?_) (fun k tag key' hs => ?_) ?_ ?_
  · rw [hslots]
    split
    · simp
    · split
      · rw [h.slot_eq hi]
        simp
      · exact hk
  · rw [hslots] at hs
    split at hs
    · simp at hs
    · split at hs
      · rename_i hjk
        rw [h.slot_eq hi] at hs
        obtain ⟨rfl, rfl⟩ := Slot.entry.inj hs
        exact .inr ⟨rfl, h.length_eq i key hi, hjk ▸ hreach⟩
      · exact .inl hs
  · intro k k' key' hk hk'
    -- the key that was moved is stored in its new slot only: the old one is a tombstone now
    rw [hstores] at hk hk'
    rcases hk with ⟨rfl, rfl⟩ | ⟨hki, hk⟩ <;> rcases hk' with ⟨rfl, hkey⟩ | ⟨hki', hk'⟩
    · rfl
    · exact absurd (h.unique k' i _ hk' hi) hki'
    · exact absurd (h.unique k i _ (hkey ▸ hk) hi) hki
    · exact h.unique k k' key' hk hk'
  · obtain ⟨hocc, hmem, hnot⟩ := occupied_relocate h hi hreach.lt hslot
    rw [hocc, Finset.card_insert_of_notMem hnot, Finset.card_erase_add_one hmem, ← h.load_eq]
    rfl

end

/-! ## Removing a key -/

section

variable {key : State} {i : Nat}

theorem stores_vacate (h : t.WellFormed) (hi : t.Stores i key) (k : Nat) (key' : State) :
    (t.vacate i).Stores k key' ↔ k ≠ i ∧ t.Stores k key' := by
  have hcapacity : (t.vacate i).capacity = t.capacity := rfl
  simp only [Stores, hcapacity, slot_vacate (h.lt_size hi.1)]
  by_cases hik : i = k
  · simp [hik]
  · simp [hik, Ne.symm hik]

theorem mem_vacate (h : t.WellFormed) (hi : t.Stores i key) (key' : State) :
    key' ∈ t.vacate i ↔ key' ≠ key ∧ key' ∈ t := by
  simp only [mem_def, stores_vacate h hi]
  constructor
  · rintro ⟨k, hki, hs⟩
    refine ⟨?_, k, hs⟩
    rintro rfl
    exact hki (h.unique k i key' hs hi)
  · rintro ⟨hne, k, hs⟩
    refine ⟨k, ?_, hs⟩
    rintro rfl
    exact hne (hs.key_eq hi)

/-- Removing a key leaves a tombstone, so no other walk is cut short. -/
theorem wellFormed_vacate (h : t.WellFormed) (hi : t.Stores i key) : (t.vacate i).WellFormed := by
  have hslots := slot_vacate (h.lt_size hi.1)
  have hstores := stores_vacate h hi
  refine h.updated rfl rfl (by simp [vacate]) (fun k hk => ?_) (fun k tag key' hs => ?_) ?_ ?_
  · rw [hslots]
    split
    · simp
    · exact hk
  · rw [hslots] at hs
    split at hs
    · simp at hs
    · exact .inl hs
  · intro k k' key' hk hk'
    exact h.unique k k' key' ((hstores k key').1 hk).2 ((hstores k' key').1 hk').2
  · have hocc : (t.vacate i).occupied = t.occupied.erase i := by
      ext k
      simp only [Finset.mem_erase, mem_occupied, hstores]
      constructor
      · rintro ⟨key', hki, hk⟩
        exact ⟨hki, key', hk⟩
      · rintro ⟨hki, key', hk⟩
        exact ⟨key', hki, hk⟩
    rw [hocc, Finset.card_erase_of_mem (mem_occupied.2 ⟨key, hi⟩), ← h.load_eq]
    rfl

end

end StateSpace.Table
