import StateSpace.Proofs.Table.Lookups
import StateSpace.Table.History

/-!
# Tables in use

A new table is well formed, clearing makes any table of good geometry well formed, and every operation keeps a table
well formed (`WellFormed.apply`). So every table that operations make of a new one is well formed
(`Reachable.wellFormed`), whatever the history, and also if growth dropped keys: the four parts of the invariant are
spelled out in `slots_of_history`.
-/

namespace StateSpace.Table

/-- The tables that operations make of a new one. -/
inductive Reachable : Table → Prop
  | create {config : Config} {memory : Memory} {t : Table} : Table.create config memory = .ok t → Reachable t
  | apply {t : Table} (op : Op) : Reachable t → Reachable (t.apply op).2

/-! ## Tables without members -/

/-- A table of good geometry whose slots in use store nothing. -/
theorem wellFormed_of_vacant {t : Table} (h : t.Geometry) (hload : t.load = 0) (hs : ∀ i key, ¬ t.Stores i key) :
    t.WellFormed := by
  refine ⟨h, fun i tag key hi hslot => ?_, fun i key hi => ?_, fun i j key hi => ?_, ?_, fun i key hi => ?_⟩
  · exact absurd ⟨hi, tag, hslot⟩ (hs i key)
  · exact absurd hi (hs i key)
  · exact absurd hi (hs i key)
  · have hempty : t.occupied = ∅ := by
      ext i
      simp [mem_occupied, hs]
    rw [hload, hempty, Finset.card_empty]
  · exact absurd hi (hs i key)

/-- A table can be made if its geometry is good and memory is granted. Whatever memory says, it is the same table. -/
theorem create_eq_ok_iff {config : Config} {memory : Memory} {t : Table} :
    Table.create config memory = .ok t ↔
      (config.validate = .ok () ∧ config.reserve memory = .ok ()) ∧ t = empty config := by
  unfold create
  cases config.validate with
  | error e => simp [bind, Except.bind]
  | ok u =>
    cases config.reserve memory with
    | error e => simp [bind, Except.bind]
    | ok u => simp [bind, Except.bind, pure, Except.pure, eq_comm]

theorem create_eq_ok {config : Config} {memory : Memory} {t : Table} (h : Table.create config memory = .ok t) :
    config.validate = .ok () ∧ t = empty config :=
  ⟨(create_eq_ok_iff.1 h).1.1, (create_eq_ok_iff.1 h).2⟩

theorem initial_lt_of_validate {config : Config} (h : config.validate = .ok ()) :
    config.initialPow2 < config.maxPow2 := by
  unfold Config.validate at h
  by_contra hle
  rw [if_pos (Nat.not_lt.1 hle)] at h
  simp at h

theorem maxCapacity_le_of_validate {config : Config} (h : config.validate = .ok ()) :
    config.maxCapacity ≤ 1 <<< 30 := by
  have hle : config.maxPow2 ≤ maxPow2Limit := by
    by_contra hgt
    unfold Config.validate at h
    rw [if_pos (Nat.not_le.1 hgt)] at h
    split at h <;> simp at h
  rw [Config.maxCapacity, Nat.one_shiftLeft, Nat.one_shiftLeft]
  exact Nat.pow_le_pow_right (by decide) hle

theorem slot_empty (config : Config) (i : Nat) : (empty config).slot i = .empty := by
  simp only [empty, slot, Array.getD_eq_getD_getElem?, Array.getElem?_replicate]
  split <;> rfl

theorem wellFormed_empty {config : Config} (h : config.validate = .ok ()) : (empty config).WellFormed := by
  refine wellFormed_of_vacant ⟨h, ?_, Nat.le_refl _, Nat.le_of_lt (initial_lt_of_validate h)⟩ rfl ?_
  · simp [empty]
  · rintro i key ⟨-, tag, hs⟩
    simp [slot_empty] at hs

theorem wellFormed_create {config : Config} {memory : Memory} {t : Table} (h : Table.create config memory = .ok t) :
    t.WellFormed := by
  obtain ⟨hv, rfl⟩ := create_eq_ok h
  exact wellFormed_empty hv

/-- The slots that are in use after clearing are empty. -/
theorem slot_clear {t : Table} {i : Nat} (hi : i < t.clear.capacity) : t.clear.slot i = .empty := by
  have hlt : i < t.config.initialCapacity := hi
  simp only [clear, slot, Array.getD_eq_getD_getElem?, getElem?_updateBelow, if_pos hlt]
  cases t.slots[i]? <;> rfl

theorem tidy_clear (t : Table) : t.clear.Tidy := by
  intro i hi
  simp [slot_clear hi]

theorem not_mem_clear (t : Table) (key : State) : key ∉ t.clear := by
  rintro ⟨i, hi, tag, hs⟩
  simp [slot_clear hi] at hs

theorem wellFormed_clear {t : Table} (h : t.Geometry) : t.clear.WellFormed := by
  refine wellFormed_of_vacant ⟨h.valid, ?_, Nat.le_refl _, Nat.le_trans h.initial_le h.pow2_le⟩ rfl fun i key hs => ?_
  · exact (size_updateBelow ..).trans h.size_eq
  · exact not_mem_clear t key ⟨i, hs⟩

/-! ## Operations -/

theorem check_eq_ok {t : Table} {op : Op} :
    t.check op = .ok () ↔ ∀ key, op.key? = some key → key.length = t.config.keyLength := by
  unfold check
  cases op.key? with
  | none => simp
  | some key => simp [checkLength]

/-- Removing a key that is not a member changes nothing; a member is taken out of its slot. -/
theorem removeKey_cases {t : Table} (h : t.WellFormed) (key : State) :
    (key ∉ t ∧ t.removeKey key = (false, t)) ∨
      ∃ i, t.Stores i key ∧ t.removeKey key = (true, t.vacate i) := by
  unfold removeKey
  cases hp : t.probe key (Hash.ofState key 0) with
  | hit i tombstone =>
    obtain ⟨hreach, hslot, -⟩ := probe_hit rfl hp
    exact .inr ⟨i, ⟨hreach.lt, _, hslot⟩, rfl⟩
  | vacant i onTombstone => exact .inl ⟨h.not_mem_of_vacant rfl hp, rfl⟩
  | exhausted => exact .inl ⟨h.not_mem_of_exhausted rfl hp, rfl⟩

/-- Every operation on a key of the right length keeps a table well formed. -/
theorem WellFormed.act {t : Table} (h : t.WellFormed) {op : Op} (hop : t.check op = .ok ()) :
    (t.act op).2.WellFormed := by
  rw [check_eq_ok] at hop
  cases op with
  | insert key => exact (looked_lookupKey h (hop key rfl)).extends_.wellFormed
  | contains key => exact h
  | remove key =>
    rcases removeKey_cases h key with ⟨-, heq⟩ | ⟨i, hi, heq⟩
    · show (t.removeKey key).2.WellFormed
      rw [heq]
      exact h
    · show (t.removeKey key).2.WellFormed
      rw [heq]
      exact wellFormed_vacate h hi
  | resize => exact (extends_resize h).wellFormed
  | clear => exact wellFormed_clear h.toGeometry

theorem apply_of_check {t : Table} {op : Op} (h : t.check op = .ok ()) :
    t.apply op = (.ok (t.act op).1, (t.act op).2) := by
  unfold apply
  rw [h]

/-- Every operation keeps a table well formed. -/
theorem WellFormed.apply {t : Table} (h : t.WellFormed) (op : Op) : (t.apply op).2.WellFormed := by
  cases hop : t.check op with
  | error wrong => simpa [Table.apply, hop] using h
  | ok u => simpa [apply_of_check hop] using h.act hop

theorem Reachable.wellFormed {t : Table} (h : t.Reachable) : t.WellFormed := by
  induction h with
  | create hc => exact wellFormed_create hc
  | apply op _ ih => exact ih.apply op

/-- A history of operations leads to a table that can be reached, also if it fails. -/
theorem Reachable.run {t : Table} (h : t.Reachable) (ops : List Op) : (t.run ops).2.Reachable := by
  induction ops generalizing t with
  | nil => exact h
  | cons op rest ih =>
    have hnext := h.apply op
    unfold Table.run
    split
    · rename_i heq
      rwa [heq] at hnext
    · rename_i heq
      rw [heq] at hnext
      exact ih hnext

/-- **The invariant of a table.** After every history of operations, a slot in use is empty, a tombstone, or carries the
tag of the key that it stores; no key is stored twice; the load counts the occupied slots; and the walk of a stored key
comes to its slot before it comes to an empty one. Every single operation preserves this. -/
theorem slots_of_history {config : Config} {memory : Memory} {t : Table} (hc : Table.create config memory = .ok t) :
    (∀ ops, let t' := (t.run ops).2
      (∀ i < t'.capacity, (t'.slot i).fingerprint = .empty ∨ (t'.slot i).fingerprint = .tombstone ∨
        ∃ key, t'.Stores i key ∧ (t'.slot i).fingerprint = .ofHash (Hash.ofState key 0)) ∧
      (∀ i j key, t'.Stores i key → t'.Stores j key → i = j) ∧
      t'.load = t'.occupied.card ∧
      ∀ i key, t'.Stores i key → t'.Reaches key i) ∧
    ∀ t' op, WellFormed t' → (t'.apply op).2.WellFormed := by
  refine ⟨fun ops => ?_, fun t' op h => h.apply op⟩
  have h := ((Reachable.create hc).run ops).wellFormed
  refine ⟨fun i hi => ?_, h.unique, h.load_eq, h.reaches⟩
  cases hs : (t.run ops).2.slot i with
  | empty => exact .inl rfl
  | tombstone => exact .inr (.inl rfl)
  | entry tag key =>
    refine .inr (.inr ⟨key, ⟨hi, tag, hs⟩, ?_⟩)
    rw [h.tag_eq i tag key hi hs]
    rfl

/-- Keys that meet in one slot, a removal in front of a member, and more keys than eight slots take. -/
def crowding : List Op :=
  [.insert [2], .insert [3], .remove [2], .insert [3], .insert [7], .insert [10], .insert [11], .insert [12],
    .insert [13], .insert [14], .resize, .remove [9], .contains [7], .clear, .insert [3]]

theorem slots_of_crowding : Table.create ⟨1, 2, 3⟩ = .ok (empty ⟨1, 2, 3⟩) ∧
    (∀ i key, ((empty ⟨1, 2, 3⟩).run (crowding.take 13)).2.Stores i key →
      ((empty ⟨1, 2, 3⟩).run (crowding.take 13)).2.Reaches key i) ∧
    ((empty ⟨1, 2, 3⟩).apply .resize).2.WellFormed := by
  have hc : Table.create ⟨1, 2, 3⟩ = .ok (empty ⟨1, 2, 3⟩) := by decide
  obtain ⟨hslots, hstep⟩ := slots_of_history hc
  obtain ⟨-, -, -, hreach⟩ := hslots (crowding.take 13)
  exact ⟨hc, hreach, hstep _ .resize (wellFormed_create hc)⟩

end StateSpace.Table
