import Mathlib.Data.Finset.Card
import Mathlib.Data.Finset.Image
import StateSpace.Proofs.Table.Walk
import StateSpace.Table.Growth

/-!
# What holds of every table

The members of a table are the keys that its slots in use store. A table is well formed (`WellFormed`) if its geometry
is good, every entry carries the tag of its key, no key is stored twice, the load counts the occupied slots, and the
walk of every stored key comes to its slot before it comes to an empty one.

In a well-formed table a probe decides membership (`probe_of_stores`, `hasKey_iff`), and the load is the number of
members (`card_eq_load`).
-/

namespace StateSpace

/-- The key of an entry. -/
def Slot.key : Slot → State
  | .entry _ key => key
  | _ => []

theorem Slot.isOccupied_iff {s : Slot} : s.fingerprint.isOccupied = true ↔ ∃ tag key, s = .entry tag key := by
  cases s <;> simp [Slot.fingerprint, Fingerprint.isOccupied]

namespace Table

/-! ## Members -/

/-- Slot `i` is in use and stores the key. -/
def Stores (t : Table) (i : Nat) (key : State) : Prop := i < t.capacity ∧ ∃ tag, t.slot i = .entry tag key

/-- The members of a table are the keys that are stored. -/
instance : Membership State Table := ⟨fun t key => ∃ i, t.Stores i key⟩

theorem mem_def {t : Table} {key : State} : key ∈ t ↔ ∃ i, t.Stores i key := Iff.rfl

/-- The occupied slots among those in use. -/
def occupied (t : Table) : Finset Nat := (Finset.range t.capacity).filter fun i => (t.slot i).fingerprint.isOccupied

theorem mem_occupied {t : Table} {i : Nat} : i ∈ t.occupied ↔ ∃ key, t.Stores i key := by
  simp only [occupied, Finset.mem_filter, Finset.mem_range, Slot.isOccupied_iff, Stores]
  constructor
  · rintro ⟨hi, tag, key, hs⟩
    exact ⟨key, hi, tag, hs⟩
  · rintro ⟨key, hi, tag, hs⟩
    exact ⟨hi, tag, key, hs⟩

/-- No slot in use holds a tombstone. -/
def Tidy (t : Table) : Prop := ∀ i < t.capacity, t.slot i ≠ .tombstone

/-- A slot stores one key at most. -/
theorem Stores.key_eq {t : Table} {i : Nat} {key key' : State} (h : t.Stores i key) (h' : t.Stores i key') :
    key = key' := by
  obtain ⟨-, tag, hs⟩ := h
  obtain ⟨-, tag', hs'⟩ := h'
  rw [hs] at hs'
  exact (Slot.entry.inj hs').2

/-! ## Well-formed tables -/

/-- The capacity is between the initial and the largest one, and there is a slot for each number below the largest. -/
structure Geometry (t : Table) : Prop where
  valid : t.config.validate = .ok ()
  size_eq : t.slots.size = t.config.maxCapacity
  initial_le : t.config.initialPow2 ≤ t.pow2
  pow2_le : t.pow2 ≤ t.config.maxPow2

/-- What every operation on a table preserves. -/
structure WellFormed (t : Table) : Prop extends Geometry t where
  /-- An entry carries the tag of its key. -/
  tag_eq : ∀ i tag key, i < t.capacity → t.slot i = .entry tag key → tag = keyTag key
  length_eq : ∀ i key, t.Stores i key → key.length = t.config.keyLength
  /-- No key is stored twice. -/
  unique : ∀ i j key, t.Stores i key → t.Stores j key → i = j
  load_eq : t.load = t.occupied.card
  /-- The walk of a stored key comes to its slot before it comes to an empty one. -/
  reaches : ∀ i key, t.Stores i key → t.Reaches key i

theorem Geometry.capacity_le_size {t : Table} (h : t.Geometry) : t.capacity ≤ t.slots.size := by
  rw [h.size_eq, capacity, Config.maxCapacity, Nat.one_shiftLeft, Nat.one_shiftLeft]
  exact Nat.pow_le_pow_right (by decide) h.pow2_le

/-- There is a slot for each number in use. -/
theorem Geometry.lt_size {t : Table} (h : t.Geometry) {i : Nat} (hi : i < t.capacity) : i < t.slots.size :=
  Nat.lt_of_lt_of_le hi h.capacity_le_size

theorem WellFormed.slot_eq {t : Table} (h : t.WellFormed) {i : Nat} {key : State} (hs : t.Stores i key) :
    t.slot i = .entry (keyTag key) key := by
  obtain ⟨hi, tag, hs⟩ := hs
  rw [hs, h.tag_eq i tag key hi hs]

theorem WellFormed.length_of_mem {t : Table} (h : t.WellFormed) {key : State} (hk : key ∈ t) :
    key.length = t.config.keyLength := by
  obtain ⟨i, hi⟩ := hk
  exact h.length_eq i key hi

/-- Counters other than the load do not matter. -/
theorem WellFormed.with_counters {t : Table} (h : t.WellFormed) (resizes relocations reclaimed dropped : Nat) :
    WellFormed { t with resizes, relocations, reclaimed, dropped } :=
  ⟨⟨h.valid, h.size_eq, h.initial_le, h.pow2_le⟩, h.tag_eq, h.length_eq, h.unique, h.load_eq, h.reaches⟩

/-- A table is well formed if it comes from a well-formed one by filling slots, and its new entries are where the walks
of their keys come. What is left to show is that no key is stored twice and that the load is right. -/
theorem WellFormed.updated {t t' : Table} (h : t.WellFormed) (hconfig : t'.config = t.config)
    (hpow2 : t'.pow2 = t.pow2) (hsize : t'.slots.size = t.slots.size)
    (hfill : ∀ j, t.slot j ≠ .empty → t'.slot j ≠ .empty)
    (hentry : ∀ i tag key, t'.slot i = .entry tag key → t.slot i = .entry tag key ∨
      tag = keyTag key ∧ key.length = t.config.keyLength ∧ t.Reaches key i)
    (hunique : ∀ i j key, t'.Stores i key → t'.Stores j key → i = j) (hload : t'.load = t'.occupied.card) :
    t'.WellFormed := by
  have hcap : t'.capacity = t.capacity := by unfold capacity; rw [hpow2]
  refine ⟨⟨?_, ?_, ?_, ?_⟩, ?_, ?_, hunique, hload, ?_⟩
  · rw [hconfig]; exact h.valid
  · rw [hsize, hconfig]; exact h.size_eq
  · rw [hconfig, hpow2]; exact h.initial_le
  · rw [hconfig, hpow2]; exact h.pow2_le
  · intro i tag key hi hs
    rcases hentry i tag key hs with hold | ⟨htag, -, -⟩
    · exact h.tag_eq i tag key (hcap ▸ hi) hold
    · exact htag
  · rintro i key ⟨hi, tag, hs⟩
    rw [hconfig]
    rcases hentry i tag key hs with hold | ⟨-, hlength, -⟩
    · exact h.length_eq i key ⟨hcap ▸ hi, tag, hold⟩
    · exact hlength
  · rintro i key ⟨hi, tag, hs⟩
    refine Reaches.mono ?_ hcap hfill
    rcases hentry i tag key hs with hold | ⟨-, -, hreach⟩
    · exact h.reaches i key ⟨hcap ▸ hi, tag, hold⟩
    · exact hreach

/-! ## Probes of well-formed tables -/

section

variable {t : Table} {key : State} {hash : UInt32}

/-- A probe finds a stored key where it is. -/
theorem WellFormed.probe_of_stores (h : t.WellFormed) (hh : Fingerprint.tagOf hash = keyTag key) {i : Nat}
    (hs : t.Stores i key) : ∃ tombstone, t.probe key hash = .hit i tombstone := by
  have hreach := h.reaches i key hs
  have hslot := h.slot_eq hs
  cases hp : t.probe key hash with
  | hit j tombstone =>
    obtain ⟨hj, hslot', -⟩ := probe_hit hh hp
    have : j = i := h.unique j i key ⟨hj.lt, _, hslot'⟩ hs
    exact ⟨tombstone, by rw [this]⟩
  | vacant j onTombstone => exact absurd hslot ((probe_vacant hh hp).2.2 i hreach)
  | exhausted => exact absurd hslot (probe_exhausted hh hp i hreach.mem_walk).2

/-- A probe finds the members. -/
theorem WellFormed.mem_iff_probe (h : t.WellFormed) (hh : Fingerprint.tagOf hash = keyTag key) :
    key ∈ t ↔ ∃ i tombstone, t.probe key hash = .hit i tombstone := by
  constructor
  · rintro ⟨i, hs⟩
    exact ⟨i, h.probe_of_stores hh hs⟩
  · rintro ⟨i, tombstone, hp⟩
    obtain ⟨hi, hslot, -⟩ := probe_hit hh hp
    exact ⟨i, hi.lt, _, hslot⟩

theorem WellFormed.not_mem_of_vacant (h : t.WellFormed) (hh : Fingerprint.tagOf hash = keyTag key) {i : Nat}
    {onTombstone : Bool} (hp : t.probe key hash = .vacant i onTombstone) : key ∉ t := by
  rw [h.mem_iff_probe hh, hp]
  simp

theorem WellFormed.not_mem_of_exhausted (h : t.WellFormed) (hh : Fingerprint.tagOf hash = keyTag key)
    (hp : t.probe key hash = .exhausted) : key ∉ t := by
  rw [h.mem_iff_probe hh, hp]
  simp

theorem WellFormed.hasKey_iff (h : t.WellFormed) : t.hasKey key = true ↔ key ∈ t := by
  rw [h.mem_iff_probe rfl, hasKey]
  cases hp : t.probe key (Hash.ofState key 0) <;> simp

/-- The tag of a tag is itself. -/
theorem tagOf_tagOf (hash : UInt32) : Fingerprint.tagOf (Fingerprint.tagOf hash) = Fingerprint.tagOf hash := by
  unfold Fingerprint.tagOf
  rw [UInt32.and_assoc, UInt32.and_self]

/-- An entry can be looked up by its stored tag. -/
theorem tagOf_keyTag (key : State) : Fingerprint.tagOf (keyTag key) = keyTag key := tagOf_tagOf _

end

/-! ## The set of members -/

/-- The members of a table as a set. -/
def members (t : Table) : Finset State := t.occupied.image fun i => (t.slot i).key

theorem Stores.slot_key {t : Table} {i : Nat} {key : State} (h : t.Stores i key) : (t.slot i).key = key := by
  obtain ⟨-, tag, hs⟩ := h
  rw [hs, Slot.key]

theorem mem_members {t : Table} {key : State} : key ∈ t.members ↔ key ∈ t := by
  simp only [members, Finset.mem_image, mem_occupied, mem_def]
  constructor
  · rintro ⟨i, ⟨key', hs⟩, rfl⟩
    exact ⟨i, hs.slot_key.symm ▸ hs⟩
  · rintro ⟨i, hs⟩
    exact ⟨i, ⟨key, hs⟩, hs.slot_key⟩

/-- The load is the number of members. -/
theorem WellFormed.card_members {t : Table} (h : t.WellFormed) : t.members.card = t.load := by
  rw [h.load_eq, members]
  refine Finset.card_image_of_injOn fun i hi j hj hkey => ?_
  obtain ⟨key, hs⟩ := mem_occupied.1 hi
  obtain ⟨key', hs'⟩ := mem_occupied.1 hj
  have heq : key = key' := by simpa [hs.slot_key, hs'.slot_key] using hkey
  exact h.unique i j key hs (heq ▸ hs')

/-- A set with the same members as a well-formed table has as many as the load says. -/
theorem WellFormed.card_eq_load {t : Table} (h : t.WellFormed) {keys : Finset State}
    (hkeys : ∀ key, key ∈ keys ↔ key ∈ t) : keys.card = t.load := by
  rw [← h.card_members]
  congr 1
  exact Finset.ext fun key => by rw [hkeys, mem_members]

end Table

end StateSpace
