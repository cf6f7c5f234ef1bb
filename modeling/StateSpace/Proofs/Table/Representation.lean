import StateSpace.Proofs.Table.Layout
import StateSpace.Proofs.Table.LoadBound

/-!
# What a layout holds

A layout holds a table (`Layout.Holds`) if it has a fingerprint and the words of a key for every slot, if they are those
of what the slot holds, and if the counters are right. What a computation does to a layout is said by the tables before
and after (`Performs`), and there is a lemma for each access: a read gives what the slot holds, and a write replaces the
slot. The two parts of an entry are written one after the other, the key first (`ends_setKey`), to a slot that has no
entry, so in between the layout still holds the table before.

The masks of a probe give the slots of the window (`positions_eq_window`), and so a probe of the layout gives what a
probe of the table does (`performs_probe`).
-/

namespace StateSpace.Table

open Access

/-! ## Tables and layouts -/

def counters (t : Table) : Counters := ⟨t.capacity, t.load, t.resizes, t.relocations, t.reclaimed⟩

/-- The table with slot `i` replaced. -/
def setSlot (t : Table) (i : Nat) (s : Slot) : Table := { t with slots := t.slots.setIfInBounds i s }

/-- The layout holds the table: the fingerprint of every slot, the key of every entry, and the counters. What the table
has dropped is not kept. -/
structure Layout.Holds (l : Layout) (t : Table) : Prop where
  slots_size : t.slots.size = t.config.maxCapacity
  fingerprint_eq : ∀ i < t.config.maxCapacity, l.fingerprints[i]? = some (t.slot i).fingerprint
  words_size : l.words.size = t.config.maxCapacity * t.config.keyLength
  key_eq : ∀ i < t.config.maxCapacity, ∀ tag key, t.slot i = .entry tag key →
    slice l.words (i * t.config.keyLength) t.config.keyLength = key
  counters_eq : l.toCounters = t.counters

theorem Layout.Holds.capacity_eq {l : Layout} {t : Table} (h : l.Holds t) : l.capacity = t.capacity :=
  congrArg Counters.capacity h.counters_eq

theorem Layout.Holds.load_eq {l : Layout} {t : Table} (h : l.Holds t) : l.load = t.load :=
  congrArg Counters.load h.counters_eq

/-- On every layout that holds `t`, the computation ends without a fault: with the given result, and with a layout that
holds `t'`. -/
def Performs {α : Type} (t : Table) (m : Access Layout α) (a : α) (t' : Table) : Prop :=
  Ends (·.Holds t) m a (·.Holds t')

section

variable {α β : Type} {t t' t'' : Table} {m : Access Layout α} {f : α → Access Layout β} {a : α} {b : β}

theorem performs_pure : Performs t (pure a) a t := ends_pure fun _ => id

theorem Performs.bind (h : Performs t m a t') (h' : Performs t' (f a) b t'') : Performs t (m >>= f) b t'' :=
  Ends.bind h h'

/-- Tables that differ in nothing that a layout holds. -/
structure StoredAlike (t t' : Table) : Prop where
  config_eq : t'.config = t.config
  size_eq : t'.slots.size = t.slots.size
  slot_eq : ∀ i, t'.slot i = t.slot i
  counters_eq : t'.counters = t.counters

theorem Layout.Holds.alike {l : Layout} (h : l.Holds t) (halike : StoredAlike t t') : l.Holds t' := by
  refine ⟨?_, ?_, ?_, ?_, h.counters_eq.trans halike.counters_eq.symm⟩
  · rw [halike.size_eq, halike.config_eq, h.slots_size]
  · intro i hi
    rw [halike.slot_eq]
    exact h.fingerprint_eq i (halike.config_eq ▸ hi)
  · rw [halike.config_eq, h.words_size]
  · intro i hi tag key hslot
    rw [halike.slot_eq] at hslot
    rw [halike.config_eq] at hi ⊢
    exact h.key_eq i hi tag key hslot

theorem Performs.alike (h : Performs t m a t') (halike : StoredAlike t' t'') : Performs t m a t'' :=
  h.weaken fun _ hl => hl.alike halike

/-- A change of counters is done to the table likewise. -/
theorem performs_modify {change : Layout → Layout} (t' : Table) (hconfig : t'.config = t.config)
    (hslots : t'.slots = t.slots) (hfingerprints : ∀ l, (change l).fingerprints = l.fingerprints)
    (hwords : ∀ l, (change l).words = l.words)
    (hcounters : ∀ l : Layout, l.toCounters = t.counters → (change l).toCounters = t'.counters) :
    Performs t (modify change) () t' := by
  have hslot : t'.slot = t.slot := by
    unfold slot
    rw [hslots]
  refine ends_modify fun l hl => ⟨?_, ?_, ?_, ?_, hcounters l hl.counters_eq⟩
  · rw [hslots, hconfig, hl.slots_size]
  · rw [hslot, hconfig, hfingerprints]
    exact hl.fingerprint_eq
  · rw [hwords, hconfig, hl.words_size]
  · rw [hslot, hconfig, hwords]
    exact hl.key_eq

end

/-! ## Single accesses -/

section

variable {t : Table} {config : Config} {i : Nat}

theorem performs_index (hi : i < config.maxCapacity) : Performs t (Layout.index config i) i t := by
  rw [Layout.index, if_pos hi]
  exact performs_pure

variable (hc : t.config = config)

include hc

theorem exec_fingerprint {l : Layout} (hl : l.Holds t) (hi : i < config.maxCapacity) :
    (Layout.fingerprint i).exec l = some (.ok (t.slot i).fingerprint, l) := by
  unfold Layout.fingerprint
  rw [exec_bind_of_ok (exec_get l), hl.fingerprint_eq i (hc ▸ hi)]
  rfl

/-- The words of a slot are among the words of the layout. -/
theorem exec_key {l : Layout} (hl : l.Holds t) (hi : i < config.maxCapacity) :
    i * config.keyLength + config.keyLength ≤ l.words.size ∧
      (Layout.key config i).exec l = some (.ok (slice l.words (i * config.keyLength) config.keyLength), l) := by
  have hrange : i * config.keyLength + config.keyLength ≤ l.words.size := by
    rw [hl.words_size, hc, ← Nat.succ_mul]
    exact Nat.mul_le_mul_right _ hi
  refine ⟨hrange, ?_⟩
  show exec (range l.words _ _) l = _
  rw [range, if_pos hrange]
  rfl

theorem performs_fingerprint (hi : i < config.maxCapacity) :
    Performs t (Layout.fingerprint i) (t.slot i).fingerprint t :=
  fun l hl => ⟨l, exec_fingerprint hc hl hi, hl⟩

theorem performs_key (hi : i < config.maxCapacity) {tag : UInt32} {key : State} (hslot : t.slot i = .entry tag key) :
    Performs t (Layout.key config i) key t := by
  intro l hl
  have hkey := hl.key_eq i (hc ▸ hi) tag key hslot
  rw [hc] at hkey
  exact ⟨l, hkey ▸ (exec_key hc hl hi).2, hl⟩

/-- A fingerprint is set; if it is that of an entry, the words of the slot are those of its key. -/
theorem ends_setFingerprint (hi : i < config.maxCapacity) (s : Slot) :
    Ends (fun l => l.Holds t ∧ ∀ tag key, s = .entry tag key →
        slice l.words (i * config.keyLength) config.keyLength = key)
      (Layout.setFingerprint i s.fingerprint) () (·.Holds (t.setSlot i s)) := by
  subst hc
  rintro l ⟨hl, hkey⟩
  have hlt : i < l.fingerprints.size := (Array.getElem?_eq_some_iff.1 (hl.fingerprint_eq i hi)).1
  have hslot (j : Nat) : (t.setSlot i s).slot j = if i = j then s else t.slot j := by
    simp only [setSlot, slot, getD_setIfInBounds, hl.slots_size, hi, and_true]
  have hexec : (Layout.setFingerprint i s.fingerprint).exec l =
      some (.ok (), { l with fingerprints := l.fingerprints.setIfInBounds i s.fingerprint }) := by
    show exec (if i < l.fingerprints.size then _ else _) l = _
    rw [if_pos hlt]
    rfl
  refine ⟨_, hexec, (Array.size_setIfInBounds ..).trans hl.slots_size, fun j hj => ?_, hl.words_size,
    fun j hj tag key hs => ?_, hl.counters_eq⟩
  · rw [hslot, Array.getElem?_setIfInBounds, if_pos hlt, hl.fingerprint_eq j hj]
    split <;> rfl
  · rw [hslot] at hs
    split at hs
    · rename_i heq
      subst heq
      exact hkey tag key hs
    · exact hl.key_eq j hj tag key hs

/-- A slot without a key is marked by its fingerprint alone. -/
theorem performs_setFingerprint (hi : i < config.maxCapacity) {s : Slot} (hs : ∀ tag key, s ≠ .entry tag key) :
    Performs t (Layout.setFingerprint i s.fingerprint) () (t.setSlot i s) :=
  fun l hl => ends_setFingerprint hc hi s l ⟨hl, fun tag key heq => absurd heq (hs tag key)⟩

/-- A key is copied to the words of a slot that has none. -/
theorem ends_setKey (hi : i < config.maxCapacity) (hfree : ∀ tag key, t.slot i ≠ .entry tag key) {key : State}
    (hlength : key.length = config.keyLength) :
    Ends (·.Holds t) (Layout.setKey config i key) () fun l => l.Holds t ∧
      slice l.words (i * config.keyLength) config.keyLength = key := by
  subst hc
  intro l hl
  obtain ⟨hrange, htarget⟩ := exec_key rfl hl hi
  have hexec : (Layout.setKey t.config i key).exec l =
      some (.ok (), { l with words := overwrite l.words (i * t.config.keyLength) key }) := by
    unfold Layout.setKey
    rw [exec_bind_of_ok htarget, if_pos (hlength.trans (length_slice hrange).symm)]
    rfl
  have hself := slice_overwrite_self (hlength ▸ hrange)
  rw [hlength] at hself
  refine ⟨_, hexec, ⟨hl.slots_size, hl.fingerprint_eq, size_overwrite.trans hl.words_size,
    fun j hj tag key' hs => ?_, hl.counters_eq⟩, hself⟩
  rw [← hl.key_eq j hj tag key' hs]
  -- the words of another slot are in front of those of this one, or behind them
  refine slice_overwrite_of_disjoint ?_
  rw [hlength, ← Nat.succ_mul, ← Nat.succ_mul]
  have hne : j ≠ i := by
    rintro rfl
    exact hfree tag key' hs
  rcases Nat.lt_or_gt_of_ne hne with hlt | hlt
  · exact .inl (Nat.mul_le_mul_right _ hlt)
  · exact .inr (Nat.mul_le_mul_right _ hlt)

theorem performs_write (hi : i < config.maxCapacity) (hfree : ∀ tag key, t.slot i ≠ .entry tag key) {tag : UInt32}
    {key : State} (hlength : key.length = config.keyLength) :
    Performs t (Layout.write config i (.occupied tag) key) () (t.setSlot i (.entry tag key)) := by
  refine (ends_setKey hc hi hfree hlength).bind fun l hl => ?_
  refine ends_setFingerprint hc hi (.entry tag key) l ⟨hl.1, fun tag' key' heq => ?_⟩
  obtain ⟨-, rfl⟩ := Slot.entry.inj heq
  exact hl.2

theorem performs_copyEntry (hi : i < config.maxCapacity) {j : Nat} (hj : j < config.maxCapacity) {tag : UInt32}
    {key : State} (hslot : t.slot i = .entry tag key) (hfree : ∀ tag key, t.slot j ≠ .entry tag key)
    (hlength : key.length = config.keyLength) :
    Performs t (Layout.copyEntry config i j) () (t.setSlot j (.entry tag key)) := by
  refine (performs_key hc hi hslot).bind ((ends_setKey hc hj hfree hlength).bind fun l ⟨hl, hkey⟩ => ?_)
  have hexec := exec_fingerprint hc hl hi
  rw [hslot] at hexec
  rw [exec_bind_of_ok hexec]
  refine ends_setFingerprint hc hj (.entry tag key) l ⟨hl, fun tag' key' heq => ?_⟩
  obtain ⟨-, rfl⟩ := Slot.entry.inj heq
  exact hkey

end

/-- The load is counted down if the table has an entry. -/
theorem performs_unload {t : Table} (hload : 0 < t.load) :
    Performs t Layout.unload () { t with load := t.load - 1 } := by
  refine ends_get fun l hl => ?_
  rw [hl.load_eq]
  refine (ends_subtract hload).bind (performs_modify _ rfl rfl (fun _ => rfl) (fun _ => rfl) fun l hl => ?_)
  rw [hl]
  rfl

/-! ## Ranges of slots -/

/-- The table with the given slots emptied. -/
def emptied (t : Table) (is : List Nat) : Table := is.foldl (fun t i => t.setSlot i .empty) t

section

variable {t : Table} {config : Config}

/-- A slot that does not exist counts as empty already. -/
theorem slot_setSlot_empty (t : Table) (i j : Nat) :
    (t.setSlot i .empty).slot j = if i = j then .empty else t.slot j := by
  simp only [setSlot, slot, getD_setIfInBounds]
  by_cases hi : i < t.slots.size
  · simp only [hi, and_true]
  · simp only [hi, and_false, if_false]
    split
    · rename_i hij
      rw [← hij, Array.getD_eq_getD_getElem?, Array.getElem?_eq_none (Nat.not_lt.1 hi)]
      rfl
    · rfl

theorem alike_emptied (t : Table) (is : List Nat) : (t.emptied is).config = t.config ∧
    (t.emptied is).slots.size = t.slots.size ∧ (t.emptied is).counters = t.counters ∧
    ∀ j, (t.emptied is).slot j = if j ∈ is then .empty else t.slot j := by
  induction is generalizing t with
  | nil => simp [emptied]
  | cons i rest ih =>
    obtain ⟨hconfig, hsize, hcounters, hslot⟩ := ih (t.setSlot i .empty)
    refine ⟨hconfig, hsize.trans (Array.size_setIfInBounds ..), hcounters, fun j => (hslot j).trans ?_⟩
    rw [slot_setSlot_empty]
    by_cases hij : i = j
    · simp [hij]
    · simp [hij, Ne.symm hij]

theorem performs_clearRange (hc : t.config = config) (start : Nat) {stop : Nat} (hstop : stop ≤ config.maxCapacity) :
    Performs t (Layout.clearRange config start stop) () (t.emptied (List.range' start (stop - start))) := by
  have hlist (is : List Nat) (his : ∀ i ∈ is, i < config.maxCapacity) (t : Table) (hc : t.config = config) :
      Performs t (is.forM fun i => Layout.setFingerprint i .empty) () (t.emptied is) := by
    induction is generalizing t with
    | nil => exact performs_pure
    | cons i rest ih =>
      obtain ⟨hi, hrest⟩ := List.forall_mem_cons.1 his
      exact (performs_setFingerprint hc hi (s := .empty) nofun).bind (ih hrest _ hc)
  rw [Layout.clearRange, if_pos hstop]
  refine hlist _ (fun i hi => ?_) t hc
  rw [List.mem_range'_1] at hi
  omega

end

/-! ## Positions -/

/-- The width of a window is a power of two. -/
theorem exists_width (n : Nat) : ∃ k ≤ 4, min windowSlots (1 <<< n) = 1 <<< k := by
  rcases Nat.le_total n 4 with h | h
  · refine ⟨n, h, Nat.min_eq_right ?_⟩
    rw [Nat.one_shiftLeft]
    exact Nat.pow_le_pow_right Nat.two_pos h
  · refine ⟨4, Nat.le_refl 4, Nat.min_eq_left ?_⟩
    rw [Nat.one_shiftLeft]
    exact Nat.pow_le_pow_right Nat.two_pos h

/-- What is left of a machine word without its low bits. -/
theorem and_high {start k : Nat} (hstart : start < 1 <<< 64) (hk : k ≤ 64) :
    start &&& (Config.allBits ^^^ (1 <<< k - 1)) = start - start % 1 <<< k := by
  have hhigh : start - start % 1 <<< k = 1 <<< k * (start / 1 <<< k) := by
    have := Nat.div_add_mod start (1 <<< k)
    omega
  rw [hhigh, Config.allBits]
  simp only [Nat.one_shiftLeft] at hstart ⊢
  refine Nat.eq_of_testBit_eq fun i => ?_
  rw [Nat.testBit_and, Nat.testBit_xor, Nat.testBit_two_pow_sub_one, Nat.testBit_two_pow_sub_one,
    Nat.testBit_two_pow_mul, Nat.testBit_div_two_pow]
  by_cases hik : i < k
  · simp [hik, Nat.not_le.2 hik, Nat.lt_of_lt_of_le hik hk]
  · have hle : k ≤ i := Nat.not_lt.1 hik
    by_cases hi : i < 64
    · simp [hik, hi, hle, Nat.sub_add_cancel hle]
    · have hbeyond : start.testBit i = false :=
        Nat.testBit_lt_two_pow (Nat.lt_of_lt_of_le hstart (Nat.pow_le_pow_right Nat.two_pos (Nat.not_lt.1 hi)))
      simp [hbeyond, Nat.sub_add_cancel hle]

/-- The positions that the masks give are those of the window. -/
theorem positions_eq_window {n capacity width start : Nat} (hcapacity : 1 <<< n = capacity)
    (hwidth : min windowSlots capacity = width) {hash : UInt32} (hstart : hash.toNat &&& (capacity - 1) = start) :
    (List.range width).map (fun step =>
      (start &&& (Config.allBits ^^^ (width - 1))) + ((start + step) &&& (width - 1))) = window capacity hash := by
  obtain ⟨k, hk, hpow⟩ := exists_width n
  rw [hcapacity, hwidth] at hpow
  rw [← hcapacity, Nat.one_shiftLeft, Nat.and_two_pow_sub_one_eq_mod, ← Nat.one_shiftLeft, hcapacity] at hstart
  have hlt : start < 1 <<< 64 := by
    rw [← hstart]
    exact Nat.lt_of_le_of_lt (Nat.mod_le _ _) (Nat.lt_of_lt_of_le hash.toNat_lt (by decide))
  unfold window
  dsimp only
  rw [hwidth, hpow, hstart]
  refine List.map_congr_left fun step _ => ?_
  rw [and_high hlt (by omega), Nat.one_shiftLeft, Nat.and_two_pow_sub_one_eq_mod]

/-! ## Probes -/

/-- The tag can be read off a fingerprint. -/
theorem tag_occupied (tag : UInt32) : (Fingerprint.occupied tag).tag = Fingerprint.tagOf tag := by
  have htop : (0x80000000 : UInt32).toBitVec &&& (0x7FFFFFFF : UInt32).toBitVec = 0 := by decide
  show (tag ||| 0x80000000) &&& 0x7FFFFFFF = tag &&& 0x7FFFFFFF
  refine UInt32.eq_of_toBitVec_eq ?_
  rw [UInt32.toBitVec_and, UInt32.toBitVec_or, BitVec.and_or_distrib_right, htop, UInt32.toBitVec_and]
  exact BitVec.or_zero

section

variable {t : Table} {config : Config} {key : State} {hash : UInt32} (hc : t.config = config) (h : t.WellFormed)

include hc h

theorem lt_maxCapacity {i : Nat} (hi : i < t.capacity) : i < config.maxCapacity :=
  Nat.lt_of_lt_of_le hi (hc ▸ h.capacity_le_max)

/-- The words of a slot are read only if its tag is that of the key. -/
theorem performs_holdsKey {i : Nat} (hi : i < t.capacity) {tag : UInt32} {key' : State}
    (hslot : t.slot i = .entry tag key') :
    Performs t (config.holdsKey i (.occupied tag) key hash)
      (decide (tag = Fingerprint.tagOf hash ∧ key' = key)) t := by
  have htag : tag = keyTag key' := h.tag_eq i tag key' hi hslot
  have hmatches : (Fingerprint.occupied tag).matches hash = decide (tag = Fingerprint.tagOf hash) := by
    show (true && (Fingerprint.occupied tag).tag == Fingerprint.tagOf hash) = _
    rw [tag_occupied, htag, tagOf_keyTag]
    rfl
  unfold Config.holdsKey
  rw [hmatches]
  by_cases heq : tag = Fingerprint.tagOf hash
  · simp only [heq, decide_true, if_true, true_and]
    exact (performs_key hc (lt_maxCapacity hc h hi) hslot).bind performs_pure
  · simp only [heq, decide_false, false_and]
    exact performs_pure

theorem performs_scan (key : State) (hash : UInt32) {start line mask : Nat} (steps : List Nat) (tombstone : Option Nat)
    (hsteps : ∀ step ∈ steps, line + ((start + step) &&& mask) < t.capacity) :
    Performs t (config.scan key hash start line mask steps tombstone)
      (t.scan key (Fingerprint.tagOf hash) (steps.map fun step => line + ((start + step) &&& mask)) tombstone) t := by
  induction steps generalizing tombstone with
  | nil => exact performs_pure
  | cons step rest ih =>
    obtain ⟨hi, hrest⟩ := List.forall_mem_cons.1 hsteps
    have hmax := lt_maxCapacity hc h hi
    rw [Config.scan, List.map_cons, Table.scan]
    refine (performs_index hmax).bind ((performs_fingerprint hc hmax).bind ?_)
    cases hslot : t.slot (line + ((start + step) &&& mask)) with
    | tombstone => exact ih _ hrest
    | empty => exact performs_pure
    | entry tag key' =>
      refine (performs_holdsKey hc h hi hslot).bind ?_
      by_cases heq : tag = Fingerprint.tagOf hash ∧ key' = key
      · simp only [decide_eq_true heq, if_pos heq, if_true]
        exact performs_pure
      · simp only [decide_eq_false heq, if_neg heq]
        exact ih tombstone hrest

theorem performs_probeFrom (key : State) (hash : UInt32) {width : Nat} (hwidth : min windowSlots t.capacity = width)
    (left : Nat) (attempt next : UInt32) :
    Performs t (config.probeFrom key hash width (t.capacity - 1) (width - 1) left attempt next)
      (t.probeFrom key (Fingerprint.tagOf hash) left attempt next) t := by
  induction left generalizing attempt next with
  | zero => exact performs_pure
  | succ left ih =>
    have hwindow : (List.range width).map _ = window t.capacity next := positions_eq_window (n := t.pow2) rfl hwidth rfl
    have hscan := performs_scan hc h key hash (List.range width) none fun step hstep =>
      lt_of_mem_window (n := t.pow2) (hwindow ▸ List.mem_map_of_mem hstep)
    rw [hwindow] at hscan
    rw [Config.probeFrom, Table.probeFrom]
    refine hscan.bind ?_
    cases t.scan key (Fingerprint.tagOf hash) (window t.capacity next) none with
    | some found => exact performs_pure
    | none => exact ih _ _

theorem performs_probe (key : State) (hash : UInt32) : Performs t (config.probe key hash) (t.probe key hash) t := by
  refine ends_get fun l hl => ?_
  rw [hl.capacity_eq]
  refine (ends_subtract t.capacity_pos).bind ((ends_subtract (width_pos t.pow2)).bind ?_)
  have hprobe := performs_probeFrom hc h key hash rfl probeAttempts 0
    (Fingerprint.ofHash hash).tag
  rw [Fingerprint.ofHash, tag_occupied, tagOf_tagOf] at hprobe
  rw [Fingerprint.ofHash, tag_occupied, tagOf_tagOf]
  exact hprobe

end

end StateSpace.Table
