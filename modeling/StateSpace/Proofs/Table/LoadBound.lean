import Mathlib.Data.Finset.Dedup
import StateSpace.Proofs.Table.Refinement

/-!
# The load bound

A table is bounded (`Bounded`) if its load is within three quarters of its capacity. A new key is stored only if there
is room, but growth puts its entries back without asking. It stays within the bound all the same: it stores no key that
was no member before, and the capacity has doubled (`load_growWith_le`, `capacity_growWith_le`). So every table that
operations make of a new one is bounded, and so is every table that a growth comes to on its way (`bounded_of_history`).

A lookup finds no room only at the largest capacity, and there for one of two reasons: the load bound, or that no slot
of the key's walk is empty (`full_cases`). Tombstones are not empty, and at the largest capacity no growth clears them
away, so a table without any member can be out of room (`full_without_members`).
-/

namespace StateSpace.Table

variable {t t' : Table} {key : State} {hash : UInt32}

/-- The load is within three quarters of the capacity. -/
def Bounded (t : Table) : Prop := t.load * 4 ≤ t.capacity * 3

theorem capacity_mono (h : t.pow2 ≤ t'.pow2) : t.capacity ≤ t'.capacity := by
  rw [capacity, capacity, Nat.one_shiftLeft, Nat.one_shiftLeft]
  exact Nat.pow_le_pow_right (by decide) h

theorem capacity_lt_max_iff : t.capacity < t.config.maxCapacity ↔ t.pow2 < t.config.maxPow2 := by
  rw [capacity, Config.maxCapacity, Nat.one_shiftLeft, Nat.one_shiftLeft]
  exact Nat.pow_lt_pow_iff_right (by decide)

theorem doublingsLeft_eq_zero_iff : t.doublingsLeft = 0 ↔ ¬ t.pow2 < t.config.maxPow2 := by
  unfold doublingsLeft
  omega

theorem hasRoom_iff : t.hasRoom = true ↔ (t.load + 1) * 4 ≤ t.capacity * 3 := by
  rw [hasRoom, decide_eq_true_eq]

theorem bounded_of_hasRoom (h : t.hasRoom = true) : t.Bounded := by
  rw [hasRoom_iff] at h
  unfold Bounded
  omega

/-- A table that stores fewer keys, or has more slots, is bounded too. -/
theorem Bounded.mono (h : t.Bounded) (hload : t'.load ≤ t.load) (hcap : t.capacity ≤ t'.capacity) : t'.Bounded := by
  unfold Bounded at h ⊢
  omega

/-! ## Growth -/

/-- What a table stores was stored before or was given, so the load grows by the number of given keys at most. -/
theorem Extends.load_le {keys : List State} (h : Extends t t' keys) (ht : t.WellFormed) :
    t'.load ≤ t.load + keys.length := by
  have hsub : t'.members ⊆ t.members ∪ keys.toFinset := by
    intro key hkey
    rw [Finset.mem_union, mem_members, List.mem_toFinset]
    exact h.mem_or key (mem_members.1 hkey)
  calc t'.load = t'.members.card := h.wellFormed.card_members.symm
    _ ≤ (t.members ∪ keys.toFinset).card := Finset.card_le_card hsub
    _ ≤ t.members.card + keys.toFinset.card := Finset.card_union_le _ _
    _ ≤ t.load + keys.length := by
      rw [ht.card_members]
      exact Nat.add_le_add_left (List.toFinset_card_le keys) _

/-- Without drops, the load grows by the number of given keys if these are new. -/
theorem Extends.load_eq {keys : List State} (h : Extends t t' keys) (ht : t.WellFormed) (hd : t'.dropped = t.dropped)
    (hnodup : keys.Nodup) (hnew : ∀ key ∈ keys, key ∉ t) : t'.load = t.load + keys.length := by
  have hdisjoint : Disjoint t.members keys.toFinset := by
    rw [Finset.disjoint_right]
    exact fun key hkey hmem => hnew key (List.mem_toFinset.1 hkey) (mem_members.1 hmem)
  calc t'.load = (t.members ∪ keys.toFinset).card := by
        refine (h.wellFormed.card_eq_load fun key => ?_).symm
        rw [h.mem_iff hd, Finset.mem_union, mem_members, List.mem_toFinset]
    _ = t.load + keys.length := by
        rw [Finset.card_union_of_disjoint hdisjoint, ht.card_members, List.toFinset_card_of_nodup hnodup]

/-- Doubling takes the entries that it takes out off the load. -/
theorem load_doubled (h : t.WellFormed) : t.doubled.load + t.staged.length = t.load := by
  have hcard := card_occupied_doubled h
  have hload : t.doubled.load = t.load - t.staged.length := rfl
  rw [hload, h.load_eq]
  omega

section

variable {look : Table → State → UInt32 → Lookup × Table}

theorem load_growWith_le (hlook : Faithful look) (h : t.WellFormed) (hlt : t.pow2 < t.config.maxPow2) :
    (growWith look t).load ≤ t.load := (extends_growWith hlook h hlt).load_le h

theorem capacity_growWith_le (hlook : Grows look) (t : Table) : 2 * t.capacity ≤ (growWith look t).capacity := by
  rw [← capacity_doubled]
  exact capacity_mono (follows_doubled_growWith hlook t).pow2_le

theorem bounded_growWith (hlook : Faithful look) (hgrows : Grows look) (h : t.WellFormed) (hb : t.Bounded)
    (hlt : t.pow2 < t.config.maxPow2) : (growWith look t).Bounded := by
  have hcap := capacity_growWith_le hgrows t
  exact hb.mono (load_growWith_le hlook h hlt) (by omega)

end

/-! ## Lookup -/

theorem faithful_lookupHashed : Faithful lookupHashed := fun _ _ _ h hh hlength => looked_lookupHashed h hh hlength

theorem grows_lookupHashed : Grows lookupHashed := fun t key hash => (t.lookupHashed_progress key hash).follows

theorem bounded_lookupOr {grow : Table → Lookup × Table} (hb : t.Bounded) (hgrow : (grow t).2.Bounded) (key : State)
    (hash : UInt32) : (lookupOr grow t key hash).2.Bounded := by
  unfold lookupOr
  split
  · exact hb
  · exact hb
  · split
    · rename_i hroom
      exact hasRoom_iff.1 hroom
    · exact hgrow
  · exact hgrow

theorem bounded_lookupWithin (n : Nat) (h : t.WellFormed) (hb : t.Bounded) (key : State) (hash : UInt32) :
    (lookupWithin n t key hash).2.Bounded := by
  induction n generalizing t with
  | zero => exact bounded_lookupOr hb hb key hash
  | succ n ih =>
    refine bounded_lookupOr hb ?_ key hash
    split
    · rename_i hlt
      have hgrow := extends_growWith (looked_lookupWithin n) h hlt
      exact ih hgrow.wellFormed (bounded_growWith (looked_lookupWithin n) (grows_lookupWithin n) h hb hlt)
    · exact hb

/-! ## On the way of a growth -/

/-- The table that a growth comes to when it has put `n` entries back. -/
def midway (t : Table) (n : Nat) : Table := (t.staged.take n).foldl (putBack lookupHashed) t.doubled

/-- When it has put all of them back, nothing is left but to count the growth. -/
theorem growWith_eq_midway (t : Table) :
    growWith lookupHashed t = { t.midway t.staged.length with resizes := (t.midway t.staged.length).resizes + 1 } := by
  unfold growWith midway
  rw [List.take_length]

theorem extends_midway (h : t.WellFormed) (hlt : t.pow2 < t.config.maxPow2) (n : Nat) :
    Extends t.doubled (t.midway n) ((t.staged.take n).map Prod.snd) :=
  extends_foldl_putBack faithful_lookupHashed _ (wellFormed_doubled h hlt) fun _ he =>
    h.of_mem_staged (List.mem_of_mem_take he)

/-- Entries that wait to be put back do not count, so the load is never above what it was. -/
theorem bounded_midway (h : t.WellFormed) (hb : t.Bounded) (hlt : t.pow2 < t.config.maxPow2) (n : Nat) :
    (t.midway n).Bounded := by
  have hload := (extends_midway h hlt n).load_le (wellFormed_doubled h hlt)
  have htaken := load_doubled h
  have hcap := capacity_mono (follows_foldl_putBack grows_lookupHashed (t.staged.take n) t.doubled).pow2_le
  rw [capacity_doubled] at hcap
  rw [List.length_map, List.length_take] at hload
  refine hb.mono ?_ (Nat.le_trans (by omega) hcap)
  exact Nat.le_trans hload (by omega)

/-! ## Histories -/

theorem WellFormed.capacity_le_max (h : t.WellFormed) : t.capacity ≤ t.config.maxCapacity := by
  rw [← h.size_eq]
  exact h.capacity_le_size

theorem Bounded.act (hb : t.Bounded) (h : t.WellFormed) (op : Op) : (t.act op).2.Bounded := by
  cases op with
  | insert key => exact bounded_lookupWithin _ h hb key _
  | contains key => exact hb
  | remove key =>
    show (t.removeKey key).2.Bounded
    rcases removeKey_cases h key with ⟨-, heq⟩ | ⟨i, -, heq⟩
    · rw [heq]
      exact hb
    · rw [heq]
      exact hb.mono (Nat.sub_le _ _) (Nat.le_refl _)
  | resize =>
    show t.resize.2.Bounded
    rw [resize_eq]
    split
    · rename_i hlt
      exact bounded_growWith faithful_lookupHashed grows_lookupHashed h hb hlt
    · exact hb
  | clear =>
    show 0 * 4 ≤ t.clear.capacity * 3
    omega

theorem Bounded.apply (hb : t.Bounded) (h : t.WellFormed) (op : Op) : (t.apply op).2.Bounded := by
  cases hop : t.check op with
  | error wrong => simpa [Table.apply, hop] using hb
  | ok u => simpa [apply_of_check hop] using hb.act h op

theorem Reachable.bounded (h : t.Reachable) : t.Bounded := by
  induction h with
  | create hc =>
    obtain ⟨-, rfl⟩ := create_eq_ok hc
    exact Nat.zero_le _
  | apply op ht ih => exact ih.apply ht.wellFormed op

theorem Reachable.config_run (h : t.Reachable) (ops : List Op) : (t.run ops).2.config = t.config := by
  induction ops generalizing t with
  | nil => rfl
  | cons op rest ih =>
    have hnext := h.apply op
    have hconfig := config_apply h.wellFormed op
    unfold Table.run
    split
    · rename_i heq
      rwa [heq] at hconfig
    · rename_i heq
      rw [heq] at hnext hconfig
      exact (ih hnext).trans hconfig

/-- **The load bound.** After every history of operations the load is within three quarters of the capacity, and the
capacity within its largest. No growth leaves the bound on its way, however few entries it has put back; and each table
that it comes to is again such that growing it, when the next entry finds its windows packed, stays within the bound. -/
theorem bounded_of_history {config : Config} {memory : Memory} {t : Table} (hc : Table.create config memory = .ok t) :
    (∀ ops, (t.run ops).2.load * 4 ≤ (t.run ops).2.capacity * 3 ∧ (t.run ops).2.capacity ≤ config.maxCapacity) ∧
    ∀ u : Table, u.WellFormed → u.Bounded → u.pow2 < u.config.maxPow2 →
      (∀ n, (u.midway n).WellFormed ∧ (u.midway n).Bounded) ∧
        (growWith lookupHashed u).WellFormed ∧ (growWith lookupHashed u).Bounded := by
  refine ⟨fun ops => ?_, fun u h hb hlt => ⟨fun n => ?_, ?_, ?_⟩⟩
  · have hreach : t.Reachable := .create hc
    have hconfig : (t.run ops).2.config = config := by
      rw [hreach.config_run, (create_eq_ok hc).2]
      rfl
    have hmax := (hreach.run ops).wellFormed.capacity_le_max
    rw [hconfig] at hmax
    exact ⟨(hreach.run ops).bounded, hmax⟩
  · exact ⟨(extends_midway h hlt n).wellFormed, bounded_midway h hb hlt n⟩
  · exact (extends_growWith faithful_lookupHashed h hlt).wellFormed
  · exact bounded_growWith faithful_lookupHashed grows_lookupHashed h hb hlt

/-- Six members in eight slots, three of which growth has to move. -/
def brimming : Table := ((empty ⟨1, 0, 4⟩).run (crowding.take 9)).2

theorem bounded_of_crowding : Table.create ⟨1, 0, 4⟩ = .ok (empty ⟨1, 0, 4⟩) ∧
    brimming.load * 4 ≤ brimming.capacity * 3 ∧ brimming.WellFormed ∧ brimming.Bounded ∧
    brimming.pow2 < brimming.config.maxPow2 ∧ (brimming.midway 1).Bounded ∧
    (brimming.midway 1).load < brimming.load := by
  have hc : Table.create ⟨1, 0, 4⟩ = .ok (empty ⟨1, 0, 4⟩) := by decide
  have hreach : brimming.Reachable := (Reachable.create hc).run _
  have hlt : brimming.pow2 < brimming.config.maxPow2 := by decide +kernel
  obtain ⟨hhistory, hgrowth⟩ := bounded_of_history hc
  obtain ⟨hmidway, -, -⟩ := hgrowth brimming hreach.wellFormed hreach.bounded hlt
  exact ⟨hc, (hhistory _).1, hreach.wellFormed, hreach.bounded, hlt, (hmidway 1).2, by decide +kernel⟩

/-! ## When there is no room -/

/-- No slot that the walk of the key visits is empty. -/
def Blocked (t : Table) (key : State) : Prop := ∀ i ∈ walk t.capacity key, t.slot i ≠ .empty

theorem blocked_of_exhausted (hh : Fingerprint.tagOf hash = keyTag key) (hp : t.probe key hash = .exhausted) :
    t.Blocked key := fun i hi => (probe_exhausted hh hp i hi).1

/-- A probe that offers a slot, be it a tombstone, has come to an empty one. -/
theorem not_blocked_of_vacant (hh : Fingerprint.tagOf hash = keyTag key) {i : Nat} {onTombstone : Bool}
    (hp : t.probe key hash = .vacant i onTombstone) : ¬ t.Blocked key := by
  have hprobed := t.probed_probe hh
  rw [hp] at hprobed
  cases hprobed with
  | vacant hw _ hi =>
    intro hblocked
    refine hblocked _ ?_ hi
    rw [walk_eq_of_windows_eq hw]
    simp

/-- A lookup that leaves it to growth, and gets no room from it, had no room or met no empty slot. -/
theorem reason_of_full (hh : Fingerprint.tagOf hash = keyTag key) {grow : Table → Lookup × Table}
    (hfull : (lookupOr grow t key hash).1 = .full) : t.hasRoom = false ∨ t.Blocked key := by
  unfold lookupOr at hfull
  split at hfull
  · simp at hfull
  · simp at hfull
  · split at hfull
    · simp at hfull
    · rename_i hroom
      exact .inl (Bool.eq_false_iff.2 hroom)
  · rename_i hp
    exact .inr (blocked_of_exhausted hh hp)

/-- A lookup without success leaves a table without room, or one in which the walk of the key meets no empty slot. -/
theorem reason_of_lookupHashed {n : Nat} (hn : t.doublingsLeft ≤ n) (hh : Fingerprint.tagOf hash = keyTag key)
    (hfull : (t.lookupHashed key hash).1 = .full) :
    (t.lookupHashed key hash).2.hasRoom = false ∨ (t.lookupHashed key hash).2.Blocked key := by
  induction n generalizing t with
  | zero =>
    have hmax := doublingsLeft_eq_zero_iff.1 (Nat.le_zero.1 hn)
    rw [lookupHashed_eq] at hfull ⊢
    have hreason := reason_of_full hh hfull
    rw [lookupOr_of_full hfull, if_neg hmax]
    exact hreason
  | succ n ih =>
    by_cases hlt : t.pow2 < t.config.maxPow2
    · have hleft := doublingsLeft_growWith_le grows_lookupHashed t
      rw [lookupHashed_eq] at hfull ⊢
      have heq := lookupOr_of_full hfull
      rw [heq, if_pos hlt] at hfull ⊢
      exact ih (by omega) hfull
    · have hleft := doublingsLeft_eq_zero_iff.2 hlt
      exact ih (by omega) hfull

/-- At the largest capacity there is no room for a key that is no member exactly if the load is at its bound or the walk
of the key meets no empty slot. -/
theorem full_iff_of_largest (h : t.WellFormed) (hleft : t.doublingsLeft = 0)
    (hh : Fingerprint.tagOf hash = keyTag key) (hlength : key.length = t.config.keyLength) :
    (t.lookupHashed key hash).1 = .full ↔ key ∉ t ∧ (t.hasRoom = false ∨ t.Blocked key) := by
  have hmax := doublingsLeft_eq_zero_iff.1 hleft
  have hfound := (looked_lookupHashed h hh hlength).found_iff
  constructor
  · intro hfull
    refine ⟨fun hk => by simp [hfound.2 hk] at hfull, ?_⟩
    rw [lookupHashed_eq] at hfull
    exact reason_of_full hh hfull
  · rintro ⟨hk, hreason⟩
    rw [lookupHashed_eq, lookupOr]
    split
    · rename_i hp
      exact absurd ((h.mem_iff_probe hh).2 ⟨_, _, hp⟩) hk
    · rename_i hp
      exact absurd ((h.mem_iff_probe hh).2 ⟨_, _, hp⟩) hk
    · rename_i hp
      rw [hreason.resolve_right (not_blocked_of_vacant hh hp), if_neg hmax]
      rfl
    · rw [if_neg hmax]

/-- **When a lookup finds no room.** The key is no member then, the capacity is the largest, and one more entry would
exceed the load bound, or else the walk of the key meets no empty slot in any of its windows. At the largest capacity
this is also enough. -/
theorem full_cases (h : t.Reachable) (hlength : key.length = t.config.keyLength) :
    ((t.lookupKey key).1 = .full → key ∉ t ∧ (t.lookupKey key).2.capacity = t.config.maxCapacity ∧
      (((t.lookupKey key).2.load + 1) * 4 > (t.lookupKey key).2.capacity * 3 ∨ (t.lookupKey key).2.Blocked key)) ∧
    (t.capacity = t.config.maxCapacity →
      ((t.lookupKey key).1 = .full ↔ key ∉ t ∧ ((t.load + 1) * 4 > t.capacity * 3 ∨ t.Blocked key))) := by
  have hroom (u : Table) : u.hasRoom = false ↔ (u.load + 1) * 4 > u.capacity * 3 := by
    rw [Bool.eq_false_iff, ne_eq, hasRoom_iff, Nat.not_le, gt_iff_lt]
  obtain ⟨hext, hfound⟩ := looked_lookupKey h.wellFormed hlength
  refine ⟨fun hfull => ⟨fun hk => by simp [hfound.2 hk] at hfull, ?_, ?_⟩, fun hcap => ?_⟩
  · have hleft : (t.lookupKey key).2.doublingsLeft = 0 := doublingsLeft_of_full (Nat.le_refl _) hfull
    rw [capacity_eq_of_doublingsLeft hext.wellFormed.toGeometry hleft, hext.config_eq]
  · rw [← hroom]
    exact reason_of_lookupHashed (Nat.le_refl _) rfl hfull
  · rw [← hroom]
    refine full_iff_of_largest h.wellFormed ?_ rfl hlength
    rw [doublingsLeft_eq_zero_iff, ← capacity_lt_max_iff]
    exact Nat.not_lt.2 (Nat.le_of_eq hcap.symm)

/-- Two slots, the most that there may be, with a tombstone in each. -/
def graveyard : Table := ((empty ⟨1, 0, 1⟩).run [.insert [0], .remove [0], .insert [1], .remove [1]]).2

/-- A table without members can have no room, far below its load bound. -/
theorem full_without_members : Table.create ⟨1, 0, 1⟩ = .ok (empty ⟨1, 0, 1⟩) ∧ graveyard.Reachable ∧
    (graveyard.lookupKey [9]).1 = .full ∧ (graveyard.lookupKey [9]).2.load = 0 ∧
    ¬ ((graveyard.lookupKey [9]).2.load + 1) * 4 > (graveyard.lookupKey [9]).2.capacity * 3 := by
  have hc : Table.create ⟨1, 0, 1⟩ = .ok (empty ⟨1, 0, 1⟩) := by decide
  exact ⟨hc, (Reachable.create hc).run _, by decide +kernel, by decide +kernel, by decide +kernel⟩

theorem full_cases_graveyard : graveyard.Reachable ∧ graveyard.capacity = graveyard.config.maxCapacity ∧
    [9] ∉ graveyard ∧ graveyard.Blocked [9] := by
  have hc : Table.create ⟨1, 0, 1⟩ = .ok (empty ⟨1, 0, 1⟩) := by decide
  have hreach : graveyard.Reachable := (Reachable.create hc).run _
  have hcap : graveyard.capacity = graveyard.config.maxCapacity := by decide +kernel
  have hlength : ([9] : State).length = graveyard.config.keyLength := by decide +kernel
  obtain ⟨-, hlargest⟩ := full_cases hreach hlength
  obtain ⟨hnew, hreason⟩ := (hlargest hcap).1 (by decide +kernel)
  exact ⟨hreach, hcap, hnew, hreason.resolve_left (by decide +kernel)⟩

end StateSpace.Table
