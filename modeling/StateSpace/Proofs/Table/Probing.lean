import StateSpace.Proofs.Hash
import StateSpace.Proofs.Table.Repetition
import StateSpace.Proofs.Table.Resizing

/-!
# A probe decides membership

A window is walked from the slot of its hash to its end and then from its beginning (`window_eq_append`), so each of its
slots is visited once. What a probe of a well-formed table answers is a matter of what it meets first (`Meets`): a key
is found if it is stored, in the attempt in which the walk first meets its slot; and if it is not, a place is found for
it in the attempt in which the walk first meets an empty slot. If it meets none, the probe is exhausted
(`probe_exact`).
-/

namespace StateSpace.Table

/-! ## Windows -/

section

variable {n : Nat} {hash : UInt32}

/-- The slots from that of the hash to the end of the window, and then those before it. -/
theorem window_eq_append {width start line : Nat} (hwidth : min windowSlots (1 <<< n) = width)
    (hstart : hash.toNat % (1 <<< n) = start) (hline : start - start % width = line) :
    window (1 <<< n) hash = List.range' start (line + width - start) ++ List.range' line (start - line) := by
  have hpos : 0 < width := hwidth ▸ width_pos n
  have hlt := Nat.mod_lt start hpos
  have hle := Nat.mod_le start width
  unfold window
  rw [hwidth, hstart]
  dsimp only
  rw [hline]
  refine List.ext_getElem (by simp; omega) fun step hstep _ => ?_
  have hstep : step < width := by simpa using hstep
  rw [List.getElem_map, List.getElem_range, List.getElem_append, Nat.add_mod, Nat.mod_eq_of_lt hstep]
  split
  · rename_i hbefore
    rw [List.length_range'] at hbefore
    rw [Nat.mod_eq_of_lt (by omega), List.getElem_range']
    omega
  · -- the walk has come to the end of the window
    rename_i hafter
    rw [List.length_range'] at hafter
    simp only [List.length_range', List.getElem_range']
    rw [Nat.mod_eq_sub_mod (by omega), Nat.mod_eq_of_lt (by omega)]
    omega

/-- A window is a line of neighbouring slots in use, and each of them is visited once. -/
theorem window_line (n : Nat) (hash : UInt32) : ∃ line, min windowSlots (1 <<< n) ∣ line ∧
    line + min windowSlots (1 <<< n) ≤ 1 <<< n ∧
    hash.toNat % (1 <<< n) ∈ List.range' line (min windowSlots (1 <<< n)) ∧
    window (1 <<< n) hash =
      List.range' (hash.toNat % (1 <<< n)) (line + min windowSlots (1 <<< n) - hash.toNat % (1 <<< n)) ++
        List.range' line (hash.toNat % (1 <<< n) - line) ∧
    (window (1 <<< n) hash).Perm (List.range' line (min windowSlots (1 <<< n))) := by
  obtain ⟨width, hwidth⟩ : ∃ width, min windowSlots (1 <<< n) = width := ⟨_, rfl⟩
  obtain ⟨start, hstart⟩ : ∃ start, hash.toNat % (1 <<< n) = start := ⟨_, rfl⟩
  obtain ⟨line, hline⟩ : ∃ line, start - start % width = line := ⟨_, rfl⟩
  have happend := window_eq_append hwidth hstart hline
  have hpos : 0 < width := hwidth ▸ width_pos n
  have hlt := Nat.mod_lt start hpos
  have hle := Nat.mod_le start width
  rw [hwidth, hstart]
  refine ⟨line, hline ▸ Nat.dvd_sub_mod start, ?_, ?_, happend, ?_⟩
  · -- the last slot of the window is in use
    have hlast : line + (width - 1) ∈ window (1 <<< n) hash := by
      rw [happend, List.mem_append, List.mem_range'_1, List.mem_range'_1]
      omega
    have := lt_of_mem_window hlast
    omega
  · rw [List.mem_range'_1]
    omega
  · rw [happend]
    refine List.perm_append_comm.trans (List.Perm.of_eq ?_)
    obtain ⟨before, hbefore⟩ : ∃ before, start = line + before := ⟨start - line, by omega⟩
    rw [hbefore, Nat.add_sub_cancel_left, List.range'_append_1]
    congr 1
    omega

end

/-! ## What a walk meets first -/

/-- Of the slots with the property, a walk through the windows first meets slot `i`: in this attempt, after these slots
of the same window. -/
structure Meets (ws : List (List Nat)) (p : Nat → Prop) (attempt : Nat) (before : List Nat) (i : Nat) : Prop where
  window_eq : ∃ after, ws[attempt]? = some (before ++ i :: after)
  holds : p i
  before_not : ∀ j ∈ before, ¬ p j
  earlier_not : ∀ w ∈ ws.take attempt, ∀ j ∈ w, ¬ p j

section

variable {ws : List (List Nat)} {p : Nat → Prop} {attempt attempt' : Nat} {before before' : List Nat} {i i' : Nat}

theorem meets_of_eq {passed later : List (List Nat)} {after : List Nat}
    (hw : ws = passed ++ (before ++ i :: after) :: later) (hi : p i) (hnot : ∀ j ∈ passed.flatten ++ before, ¬ p j) :
    Meets ws p passed.length before i := by
  subst hw
  refine ⟨⟨after, by simp⟩, hi, fun j hj => hnot j (List.mem_append_right _ hj), fun w hw j hj => ?_⟩
  rw [List.take_left] at hw
  exact hnot j (List.mem_append_left _ (List.mem_flatten.2 ⟨w, hw, hj⟩))

theorem Meets.mem (h : Meets ws p attempt before i) : i ∈ ws.flatten := by
  obtain ⟨after, hw⟩ := h.window_eq
  exact List.mem_flatten.2 ⟨_, List.mem_of_getElem? hw, by simp⟩

/-- A slot in an earlier attempt would have been met before. -/
theorem Meets.le (h : Meets ws p attempt before i) (h' : Meets ws p attempt' before' i') : attempt ≤ attempt' := by
  by_contra hlt
  obtain ⟨after', hw'⟩ := h'.window_eq
  have hmem : before' ++ i' :: after' ∈ ws.take attempt :=
    List.mem_of_getElem? ((List.getElem?_take_of_lt (Nat.not_le.1 hlt)).trans hw')
  exact h.earlier_not _ hmem i' (by simp) h'.holds

/-- There is one slot that is met first. -/
theorem Meets.unique (h : Meets ws p attempt before i) (h' : Meets ws p attempt' before' i') :
    before = before' ∧ i = i' := by
  obtain rfl : attempt = attempt' := Nat.le_antisymm (h.le h') (h'.le h)
  obtain ⟨after, hw⟩ := h.window_eq
  obtain ⟨after', hw'⟩ := h'.window_eq
  have heq := Option.some.inj (hw.symm.trans hw')
  -- the shorter part before is a beginning of the longer one, which holds no such slot
  rcases List.append_eq_append_iff.1 heq with ⟨mid, hb, ha⟩ | ⟨mid, hb, ha⟩
  · cases mid with
    | nil => exact ⟨by rw [hb, List.append_nil], (List.cons.inj ha).1⟩
    | cons j mid =>
      obtain ⟨rfl, -⟩ := List.cons.inj ha
      exact absurd h.holds (h'.before_not i (by simp [hb]))
  · cases mid with
    | nil => exact ⟨by rw [hb, List.append_nil], (List.cons.inj ha).1.symm⟩
    | cons j mid =>
      obtain ⟨rfl, -⟩ := List.cons.inj ha
      exact absurd h'.holds (h.before_not i' (by simp [hb]))

end

/-! ## Probes -/

section

variable {t : Table} {key : State} {hash : UInt32}

/-- A probe that finds the key does so when its walk first meets the key's slot. -/
theorem meets_of_hit (hh : Fingerprint.tagOf hash = keyTag key) {slot : Nat} {tombstone : Option Nat}
    (hp : t.probe key hash = .hit slot tombstone) : t.Stores slot key ∧
      ∃ attempt before, Meets (windows t.capacity key) (· = slot) attempt before slot ∧
        tombstone = t.firstTombstone before := by
  obtain ⟨hreach, hslot, -⟩ := probe_hit hh hp
  have hprobed := t.probed_probe hh
  rw [hp] at hprobed
  cases hprobed with
  | hit hw hpass hi =>
    refine ⟨⟨hreach.lt, _, hslot⟩, _, _, meets_of_eq hw rfl fun j hj heq => ?_, rfl⟩
    exact (hpass j hj).2 (heq ▸ hi)

/-- A probe that finds a place for the key does so when its walk first meets an empty slot. -/
theorem meets_of_vacant (hh : Fingerprint.tagOf hash = keyTag key) {slot : Nat} {onTombstone : Bool}
    (hp : t.probe key hash = .vacant slot onTombstone) :
    ∃ attempt before i, Meets (windows t.capacity key) (t.slot · = .empty) attempt before i ∧
      slot = (t.firstTombstone before).getD i ∧ onTombstone = (t.firstTombstone before).isSome := by
  have hprobed := t.probed_probe hh
  rw [hp] at hprobed
  cases hprobed with
  | vacant hw hpass hi => exact ⟨_, _, _, meets_of_eq hw hi fun j hj => (hpass j hj).1, rfl, rfl⟩

/-- A member is found where the walk first meets the slot that stores it. -/
theorem probe_eq_hit_of_meets (h : t.WellFormed) (hh : Fingerprint.tagOf hash = keyTag key) {slot attempt : Nat}
    {before : List Nat} (hs : t.Stores slot key)
    (hmeets : Meets (windows t.capacity key) (· = slot) attempt before slot) :
    t.probe key hash = .hit slot (t.firstTombstone before) := by
  obtain ⟨tombstone, hp⟩ := h.probe_of_stores hh hs
  obtain ⟨-, attempt', before', hmeets', rfl⟩ := meets_of_hit hh hp
  rw [hp, (hmeets.unique hmeets').1]

/-- An exhausted probe has met no empty slot, in any window. -/
theorem not_empty_of_exhausted (hh : Fingerprint.tagOf hash = keyTag key) (hp : t.probe key hash = .exhausted) :
    ∀ w ∈ windows t.capacity key, ∀ i ∈ w, t.slot i ≠ .empty :=
  fun w hw i hi => (probe_exhausted hh hp i (List.mem_flatten.2 ⟨w, hw, hi⟩)).1

/-- A key that is no member gets a place if some window has an empty slot, and otherwise none. -/
theorem probe_of_not_mem (h : t.WellFormed) (hh : Fingerprint.tagOf hash = keyTag key) (hk : key ∉ t) :
    (∃ slot onTombstone, t.probe key hash = .vacant slot onTombstone) ∧
        (∃ w ∈ windows t.capacity key, ∃ i ∈ w, t.slot i = .empty) ∨
      t.probe key hash = .exhausted ∧ ∀ w ∈ windows t.capacity key, ∀ i ∈ w, t.slot i ≠ .empty := by
  cases hp : t.probe key hash with
  | hit slot tombstone => exact absurd ((h.mem_iff_probe hh).2 ⟨slot, tombstone, hp⟩) hk
  | vacant slot onTombstone =>
    obtain ⟨_, _, i, hmeets, -⟩ := meets_of_vacant hh hp
    obtain ⟨w, hw, hi⟩ := List.mem_flatten.1 hmeets.mem
    exact .inl ⟨⟨slot, onTombstone, rfl⟩, w, hw, i, hi, hmeets.holds⟩
  | exhausted => exact .inr ⟨rfl, not_empty_of_exhausted hh hp⟩

theorem exists_probe_eq_vacant_iff (h : t.WellFormed) (hh : Fingerprint.tagOf hash = keyTag key) :
    (∃ slot onTombstone, t.probe key hash = .vacant slot onTombstone) ↔
      key ∉ t ∧ ∃ w ∈ windows t.capacity key, ∃ i ∈ w, t.slot i = .empty := by
  constructor
  · rintro ⟨slot, onTombstone, hp⟩
    have hk := h.not_mem_of_vacant hh hp
    rcases probe_of_not_mem h hh hk with ⟨-, hempty⟩ | ⟨hexhausted, -⟩
    · exact ⟨hk, hempty⟩
    · rw [hp] at hexhausted
      contradiction
  · rintro ⟨hk, w, hw, i, hi, hempty⟩
    rcases probe_of_not_mem h hh hk with ⟨hvacant, -⟩ | ⟨-, hnone⟩
    · exact hvacant
    · exact absurd hempty (hnone w hw i hi)

theorem probe_eq_exhausted_iff (h : t.WellFormed) (hh : Fingerprint.tagOf hash = keyTag key) :
    t.probe key hash = .exhausted ↔ key ∉ t ∧ ∀ w ∈ windows t.capacity key, ∀ i ∈ w, t.slot i ≠ .empty := by
  constructor
  · intro hp
    exact ⟨h.not_mem_of_exhausted hh hp, not_empty_of_exhausted hh hp⟩
  · rintro ⟨hk, hnone⟩
    rcases probe_of_not_mem h hh hk with ⟨-, w, hw, i, hi, hempty⟩ | ⟨hp, -⟩
    · exact absurd hempty (hnone w hw i hi)
    · exact hp

/-- A key that is no member gets its place where the walk first meets an empty slot. -/
theorem probe_eq_vacant_of_meets (h : t.WellFormed) (hh : Fingerprint.tagOf hash = keyTag key) {attempt i : Nat}
    {before : List Nat} (hk : key ∉ t)
    (hmeets : Meets (windows t.capacity key) (t.slot · = .empty) attempt before i) :
    t.probe key hash = .vacant ((t.firstTombstone before).getD i) (t.firstTombstone before).isSome := by
  obtain ⟨w, hw, hi⟩ := List.mem_flatten.1 hmeets.mem
  obtain ⟨slot, onTombstone, hp⟩ := (exists_probe_eq_vacant_iff h hh).2 ⟨hk, w, hw, i, hi, hmeets.holds⟩
  obtain ⟨attempt', before', i', hmeets', rfl, rfl⟩ := meets_of_vacant hh hp
  obtain ⟨rfl, rfl⟩ := hmeets.unique hmeets'
  exact hp

/-- The windows of a key are those along the chain of its hashes. -/
theorem windows_eq (capacity : Nat) (key : State) : windows capacity key =
    (List.range 64).map fun attempt => window capacity (Hash.chain (Hash.ofState key) (keyTag key) attempt) := by
  refine (Hash.windowsFrom_eq key (keyTag key) capacity probeAttempts 0).trans ?_
  simp only [Nat.zero_add, probeAttempts]

/-- **A probe decides membership.** Let a key be looked for in a well-formed table by its hash or by its tag. There are
64 attempts, along the chain of hashes that begins with the tag. Each visits once every slot of a line of neighbouring
slots in use, 16 of them or all that there are: from the slot of its hash to the end of the line, and then from the
beginning. The probe finds the key exactly if it is a member, in the slot that stores it, with the first tombstone that
it has visited before in the same attempt. It finds a place for the key exactly if the key is no member and some attempt
visits an empty slot: in the first such attempt, the first tombstone before the first empty slot if there is one, and
otherwise that empty slot. In all other cases it is exhausted, and the key is no member. -/
theorem probe_exact (h : t.WellFormed) (hash_eq : hash = Hash.ofState key 0 ∨ hash = keyTag key) :
    (windows t.capacity key).length = 64 ∧
    (∀ (attempt : Nat) (w : List Nat), (windows t.capacity key)[attempt]? = some w →
      let start := (Hash.chain (Hash.ofState key) (keyTag key) attempt).toNat % t.capacity
      let width := min 16 t.capacity
      ∃ line, width ∣ line ∧ line + width ≤ t.capacity ∧ start ∈ List.range' line width ∧
        w = List.range' start (line + width - start) ++ List.range' line (start - line) ∧
        w.Perm (List.range' line width)) ∧
    ((∃ slot tombstone, t.probe key hash = .hit slot tombstone) ↔ key ∈ t) ∧
    (∀ slot tombstone, t.probe key hash = .hit slot tombstone ↔ t.Stores slot key ∧
      ∃ attempt before, Meets (windows t.capacity key) (· = slot) attempt before slot ∧
        tombstone = t.firstTombstone before) ∧
    ((∃ slot onTombstone, t.probe key hash = .vacant slot onTombstone) ↔
      key ∉ t ∧ ∃ w ∈ windows t.capacity key, ∃ i ∈ w, t.slot i = .empty) ∧
    (∀ slot onTombstone, t.probe key hash = .vacant slot onTombstone ↔ key ∉ t ∧
      ∃ attempt before i, Meets (windows t.capacity key) (t.slot · = .empty) attempt before i ∧
        slot = (t.firstTombstone before).getD i ∧ onTombstone = (t.firstTombstone before).isSome) ∧
    (t.probe key hash = .exhausted ↔
      key ∉ t ∧ ∀ w ∈ windows t.capacity key, ∀ i ∈ w, t.slot i ≠ .empty) := by
  have hh : Fingerprint.tagOf hash = keyTag key := by
    rcases hash_eq with rfl | rfl
    · rfl
    · exact tagOf_keyTag key
  refine ⟨?_, fun attempt w hw => ?_, (h.mem_iff_probe hh).symm, fun slot tombstone => ⟨meets_of_hit hh, ?_⟩,
    exists_probe_eq_vacant_iff h hh,
    fun slot onTombstone => ⟨fun hp => ⟨h.not_mem_of_vacant hh hp, meets_of_vacant hh hp⟩, ?_⟩,
    probe_eq_exhausted_iff h hh⟩
  · rw [windows_eq, List.length_map, List.length_range]
  · rw [windows_eq, List.getElem?_map] at hw
    obtain ⟨i, hi, rfl⟩ := Option.map_eq_some_iff.1 hw
    obtain ⟨hlt, rfl⟩ := List.getElem?_eq_some_iff.1 hi
    rw [List.getElem_range]
    exact window_line t.pow2 _
  · rintro ⟨hs, attempt, before, hmeets, rfl⟩
    exact probe_eq_hit_of_meets h hh hs hmeets
  · rintro ⟨hk, attempt, before, i, hmeets, rfl, rfl⟩
    exact probe_eq_vacant_of_meets h hh hk hmeets

end

/-- The member behind the tombstone is found there, and the place of the removed key is the tombstone. -/
theorem probe_exact_behindTombstone : behindTombstone.WellFormed ∧
    behindTombstone.probe [3] (Hash.ofState [3] 0) = .hit 1 (some 0) ∧ [3] ∈ behindTombstone ∧
    behindTombstone.probe [2] (keyTag [2]) = .vacant 0 true ∧ [2] ∉ behindTombstone ∧
    (∃ w ∈ windows behindTombstone.capacity [2], ∃ i ∈ w, behindTombstone.slot i = .empty) ∧
    ∃ attempt before, Meets (windows behindTombstone.capacity [3]) (· = 1) attempt before 1 ∧
      some 0 = behindTombstone.firstTombstone before := by
  have hcreate : Table.create ⟨1, 2, 6⟩ = .ok (empty ⟨1, 2, 6⟩) := by decide
  have hwf : behindTombstone.WellFormed := ((Reachable.create hcreate).run _).wellFormed
  have hhit : behindTombstone.probe [3] (Hash.ofState [3] 0) = .hit 1 (some 0) := by decide +kernel
  have hvacant : behindTombstone.probe [2] (keyTag [2]) = .vacant 0 true := by decide +kernel
  obtain ⟨-, -, hmem, hhits, -⟩ := probe_exact hwf (.inl (Eq.refl (Hash.ofState [3] 0)))
  obtain ⟨-, -, -, -, hplace, -⟩ := probe_exact hwf (.inr (Eq.refl (keyTag [2])))
  obtain ⟨hnot, hempty⟩ := hplace.1 ⟨0, true, hvacant⟩
  exact ⟨hwf, hhit, hmem.1 ⟨1, some 0, hhit⟩, hvacant, hnot, hempty, ((hhits 1 (some 0)).1 hhit).2⟩

end StateSpace.Table
