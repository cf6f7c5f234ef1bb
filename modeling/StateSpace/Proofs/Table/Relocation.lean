import Mathlib.Algebra.Order.BigOperators.Group.Finset
import StateSpace.Proofs.Table.Repetition
import StateSpace.Proofs.Table.Resizing

/-!
# Lookups do not move members for ever

A lookup that finds a member behind a tombstone moves it there, and leaves a tombstone in which the lookup of another
member may put that one. Still, members cannot chase each other around: the walk of a key comes to its slot at some step
of the window of some attempt (`attemptOf`, `stepOf`), and a move takes the entry to an earlier step of that window
(`moved_relocate`). No other entry is moved, so the sum of these steps over all entries (`detour`) pays for every
relocation (`paid_lookupKey`), and at the start it is less than a window for each member (`WellFormed.detour_le`).
-/

namespace StateSpace.Table

variable {t t' : Table} {key : State} {hash : UInt32}

/-! ## Where the walk comes to a slot -/

/-- The attempt at which the walk of the key first comes to slot `i`. -/
def attemptOf (capacity : Nat) (key : State) (i : Nat) : Nat := (windows capacity key).findIdx (i ∈ ·)

/-- The step in the window of that attempt at which it does. -/
def stepOf (capacity : Nat) (key : State) (i : Nat) : Nat :=
  ((windows capacity key).getD (attemptOf capacity key i) []).idxOf i

theorem length_windowsFrom (capacity : Nat) (key : State) (left : Nat) (attempt hash : UInt32) :
    (windowsFrom capacity key left attempt hash).length = left := by
  induction left generalizing attempt hash with
  | zero => rfl
  | succ left ih => rw [windowsFrom, List.length_cons, ih]

section

variable {capacity i : Nat} {passed later : List (List Nat)} {last : List Nat}

/-- The attempt is the number of windows before the first that holds the slot. -/
theorem attemptOf_eq (hw : windows capacity key = passed ++ last :: later) (hi : i ∈ last) (hnot : i ∉ passed.flatten) :
    attemptOf capacity key i = passed.length := by
  have hpassed : ∀ w ∈ passed, i ∉ w := fun w hwp hiw => hnot (List.mem_flatten.2 ⟨w, hwp, hiw⟩)
  have hnone : passed.findIdx (i ∈ ·) = passed.length := List.findIdx_eq_length.2 (by simpa using hpassed)
  unfold attemptOf
  rw [hw, List.findIdx_append, hnone, if_neg (Nat.lt_irrefl _), List.findIdx_cons]
  simp [hi]

theorem stepOf_eq (hw : windows capacity key = passed ++ last :: later) (hi : i ∈ last) (hnot : i ∉ passed.flatten) :
    stepOf capacity key i = last.idxOf i := by
  unfold stepOf
  rw [attemptOf_eq hw hi hnot, hw]
  simp

/-- The walk comes to each of its slots within its attempts, and within the window of the attempt. -/
theorem place_lt_of_mem_walk (hi : i ∈ walk capacity key) :
    attemptOf capacity key i < probeAttempts ∧ stepOf capacity key i < min windowSlots capacity := by
  obtain ⟨w, hw, hiw⟩ := List.mem_flatten.1 hi
  have hlt : attemptOf capacity key i < (windows capacity key).length :=
    List.findIdx_lt_length_of_exists ⟨w, hw, by simpa using hiw⟩
  refine ⟨by rwa [windows, length_windowsFrom] at hlt, ?_⟩
  have hmem : i ∈ (windows capacity key)[attemptOf capacity key i] :=
    of_decide_eq_true (List.findIdx_getElem (w := hlt))
  obtain ⟨hash', heq⟩ := exists_hash_of_mem_windowsFrom (List.getElem_mem hlt)
  unfold stepOf
  rw [List.getD_eq_getElem?_getD, List.getElem?_eq_getElem hlt, Option.getD_some]
  rw [heq] at hmem ⊢
  rw [← length_window capacity hash']
  exact List.idxOf_lt_length_of_mem hmem

end

/-! ## One relocation -/

/-- The entry of the key was moved forward in the window in which its walk comes to it, and no other entry was. -/
structure Moved (t t' : Table) (key : State) : Prop where
  forward : ∃ i j, t.Stores i key ∧ t'.Stores j key ∧ attemptOf t.capacity key i < probeAttempts ∧
    attemptOf t.capacity key j = attemptOf t.capacity key i ∧ stepOf t.capacity key j < stepOf t.capacity key i
  others : ∀ i other, other ≠ key → (t'.Stores i other ↔ t.Stores i other)
  capacity_eq : t'.capacity = t.capacity
  load_eq : t'.load = t.load
  relocations_eq : t'.relocations = t.relocations + 1

/-- The tombstone that a probe has met before the key is at an earlier step of the same window. -/
theorem place_of_hit (hh : Fingerprint.tagOf hash = keyTag key) {i j : Nat} (hp : t.probe key hash = .hit i (some j)) :
    attemptOf t.capacity key j = attemptOf t.capacity key i ∧ stepOf t.capacity key j < stepOf t.capacity key i := by
  have hprobed := t.probed_probe hh
  rw [hp] at hprobed
  generalize hfirst : some j = first at hprobed
  cases hprobed with
  | hit hw hpass hi =>
    rename_i passed later before after
    -- the walk passes no slot with the key, so it has not come to slot `i` before
    have hpassed : i ∉ passed.flatten ++ before := fun hmem => (hpass i hmem).2 hi
    rw [List.mem_append, not_or] at hpassed
    have hj : j ∈ before := List.mem_of_find?_eq_some hfirst.symm
    have hilast : i ∈ before ++ i :: after := by simp
    have hjlast : j ∈ before ++ i :: after := List.mem_append_left _ hj
    have hjpassed := not_mem_passed hw hilast hjlast hpassed.1
    refine ⟨(attemptOf_eq hw hjlast hjpassed).trans (attemptOf_eq hw hilast hpassed.1).symm, ?_⟩
    rw [stepOf_eq hw hjlast hjpassed, stepOf_eq hw hilast hpassed.1, List.idxOf_append_of_mem hj,
      List.idxOf_append_of_notMem hpassed.2, List.idxOf_cons_self, Nat.add_zero]
    exact List.idxOf_lt_length_of_mem hj

theorem moved_relocate (h : t.WellFormed) (hh : Fingerprint.tagOf hash = keyTag key) {i j : Nat}
    (hp : t.probe key hash = .hit i (some j)) : Moved t (t.relocate i j) key := by
  obtain ⟨hs, hreach, hj⟩ := movable_of_hit hh hp
  have hafter := stores_relocate h hs hreach.lt hj
  have hattempt := (place_lt_of_mem_walk (h.reaches i key hs).mem_walk).1
  refine ⟨⟨i, j, hs, (hafter j key).2 (.inl ⟨rfl, rfl⟩), hattempt, place_of_hit hh hp⟩, fun k other hne => ?_, rfl, rfl,
    rfl⟩
  rw [hafter]
  constructor
  · rintro (⟨-, heq⟩ | ⟨-, hk⟩)
    · exact absurd heq hne
    · exact hk
  · intro hk
    refine .inr ⟨?_, hk⟩
    rintro rfl
    exact hne (hk.key_eq hs)

/-- A lookup of a member changes nothing, or moves its entry forward. -/
theorem moved_lookupKey (h : t.WellFormed) (hk : key ∈ t) :
    t.lookupKey key = (.found, t) ∨ ∃ i j, t.probe key (Hash.ofState key 0) = .hit i (some j) ∧
      t.lookupKey key = (.found, t.relocate i j) ∧ Moved t (t.relocate i j) key := by
  obtain ⟨i, tombstone, hp⟩ := (h.mem_iff_probe rfl).1 hk
  unfold lookupKey
  rw [lookupHashed_eq, lookupOr, hp]
  cases tombstone with
  | none => exact .inl rfl
  | some j => exact .inr ⟨i, j, rfl, rfl, moved_relocate h rfl hp⟩

/-! ## What pays for relocations -/

/-- The steps at which the walks of the entries come to them, all together. -/
def detour (t : Table) : Nat := ∑ i ∈ t.occupied, stepOf t.capacity (t.slot i).key i

/-- Each entry is within a window. -/
theorem WellFormed.detour_le (h : t.WellFormed) : t.detour ≤ (min windowSlots t.capacity - 1) * t.load := by
  have hstep : ∀ i ∈ t.occupied, stepOf t.capacity (t.slot i).key i ≤ min windowSlots t.capacity - 1 := by
    intro i hi
    obtain ⟨key, hs⟩ := mem_occupied.1 hi
    rw [hs.slot_key]
    exact Nat.le_sub_one_of_lt (place_lt_of_mem_walk (h.reaches i key hs).mem_walk).2
  calc t.detour ≤ t.occupied.card • (min windowSlots t.capacity - 1) := Finset.sum_le_card_nsmul _ _ _ hstep
    _ = t.occupied.card * (min windowSlots t.capacity - 1) := rfl
    _ = (min windowSlots t.capacity - 1) * t.load := by rw [Nat.mul_comm, h.load_eq]

/-- A move shortens the way to the entry that is moved, and to no other. -/
theorem detour_relocate (h : t.WellFormed) (hh : Fingerprint.tagOf hash = keyTag key) {i j : Nat}
    (hp : t.probe key hash = .hit i (some j)) : (t.relocate i j).detour + 1 ≤ t.detour := by
  obtain ⟨hs, hreach, hj⟩ := movable_of_hit hh hp
  have hi := h.slot_eq hs
  have hslots := slot_relocate (h.lt_size hs.1) (h.lt_size hreach.lt)
  obtain ⟨hocc, hmem, hnot⟩ := occupied_relocate h hs hreach.lt hj
  have hne : i ≠ j := by
    rintro rfl
    simp [hi] at hj
  have hrest : ∀ k ∈ t.occupied.erase i, (t.relocate i j).slot k = t.slot k := by
    intro k hk
    have hkj : j ≠ k := fun heq => hnot (heq ▸ hk)
    rw [hslots, if_neg (Ne.symm (Finset.ne_of_mem_erase hk)), if_neg hkj]
  have hsum : (t.relocate i j).detour =
      stepOf t.capacity key j + ∑ k ∈ t.occupied.erase i, stepOf t.capacity (t.slot k).key k := by
    unfold detour
    rw [hocc, Finset.sum_insert hnot, hslots, if_neg hne, if_pos rfl, hi]
    exact congrArg (stepOf t.capacity key j + ·) (Finset.sum_congr rfl fun k hk => by rw [hrest k hk]; rfl)
  have hbefore : t.detour =
      stepOf t.capacity key i + ∑ k ∈ t.occupied.erase i, stepOf t.capacity (t.slot k).key k := by
    unfold detour
    rw [← Finset.add_sum_erase _ _ hmem, hi]
    rfl
  have hstep := (place_of_hit hh hp).2
  omega

/-- `t'` is `t` with entries moved about, and each relocation is paid for. -/
structure Paid (t t' : Table) : Prop where
  reachable : t.Reachable → t'.Reachable
  config_eq : t'.config = t.config
  capacity_eq : t'.capacity = t.capacity
  load_eq : t'.load = t.load
  mem_iff : ∀ key, key ∈ t' ↔ key ∈ t
  le : t'.relocations + t'.detour ≤ t.relocations + t.detour

namespace Paid

theorem refl (t : Table) : Paid t t := ⟨id, rfl, rfl, rfl, fun _ => Iff.rfl, Nat.le_refl _⟩

theorem trans {t'' : Table} (h : Paid t t') (h' : Paid t' t'') : Paid t t'' :=
  ⟨h'.reachable ∘ h.reachable, h'.config_eq.trans h.config_eq, h'.capacity_eq.trans h.capacity_eq,
    h'.load_eq.trans h.load_eq, fun key => (h'.mem_iff key).trans (h.mem_iff key), Nat.le_trans h'.le h.le⟩

end Paid

/-! ## Lookups of members -/

theorem WellFormed.check_insert (h : t.WellFormed) (hk : key ∈ t) : t.check (.insert key) = .ok () :=
  check_eq_ok.2 fun _ heq => by
    cases heq
    exact h.length_of_mem hk

theorem paid_lookupKey (h : t.WellFormed) (hk : key ∈ t) :
    (t.lookupKey key).1 = .found ∧ Paid t (t.lookupKey key).2 := by
  have hreachable : t.Reachable → (t.lookupKey key).2.Reachable := fun hreach => by
    have hnext := hreach.apply (.insert key)
    rwa [apply_of_check (h.check_insert hk)] at hnext
  rcases moved_lookupKey h hk with heq | ⟨i, j, hp, heq, hmoved⟩
  · rw [heq]
    exact ⟨rfl, .refl t⟩
  · rw [heq] at hreachable ⊢
    obtain ⟨hs, hreach, hj⟩ := movable_of_hit rfl hp
    have hpaid := detour_relocate h rfl hp
    refine ⟨rfl, hreachable, rfl, rfl, rfl, mem_relocate h hs hreach.lt hj, ?_⟩
    dsimp only
    rw [hmoved.relocations_eq]
    omega

/-- Lookups of members find them, and pay for what they move. -/
theorem paid_run (keys : List State) {t : Table} (h : t.Reachable) (hkeys : ∀ key ∈ keys, key ∈ t) :
    ∃ t', t.run (keys.map .insert) = (.ok (keys.map fun _ => .lookup .found), t') ∧ Paid t t' := by
  induction keys generalizing t with
  | nil => exact ⟨t, rfl, .refl t⟩
  | cons key rest ih =>
    have hk := hkeys key List.mem_cons_self
    obtain ⟨hfound, hpaid⟩ := paid_lookupKey h.wellFormed hk
    have happly : t.apply (.insert key) = (.ok (.lookup .found), (t.lookupKey key).2) := by
      rw [apply_of_check (h.wellFormed.check_insert hk), ← hfound]
      rfl
    obtain ⟨t', hrun, hrest⟩ := ih (hpaid.reachable h) fun other hother =>
      (hpaid.mem_iff other).2 (hkeys other (List.mem_cons_of_mem _ hother))
    refine ⟨t', ?_, hpaid.trans hrest⟩
    rw [List.map_cons, run, happly]
    simp [hrun, Except.map]

/-- **Relocation makes progress.** A lookup of a member finds it, and changes nothing or moves its entry to an earlier
step of its own walk, in the window of the same attempt, and no other entry. However often members are looked up, in
any order and with any repetition, there are never more relocations than a window less one for each member. -/
theorem relocations_bounded (h : t.Reachable) :
    (∀ key ∈ t, t.lookupOrInsert key = .ok (.found, t) ∨
      ∃ t', t.lookupOrInsert key = .ok (.found, t') ∧ Moved t t' key) ∧
    ∀ keys : List State, (∀ key ∈ keys, key ∈ t) → ∃ t',
      t.run (keys.map .insert) = (.ok (keys.map fun _ => .lookup .found), t') ∧ t'.Reachable ∧
        t'.capacity = t.capacity ∧ t'.load = t.load ∧ (∀ key, key ∈ t' ↔ key ∈ t) ∧
        t'.stats.relocations ≤ t.stats.relocations + (min windowSlots t.capacity - 1) * t.load := by
  refine ⟨fun key hk => ?_, fun keys hkeys => ?_⟩
  · rw [lookupOrInsert_of_length (h.wellFormed.length_of_mem hk)]
    rcases moved_lookupKey h.wellFormed hk with heq | ⟨i, j, -, heq, hmoved⟩
    · exact .inl (by rw [heq])
    · exact .inr ⟨_, by rw [heq], hmoved⟩
  · obtain ⟨t', hrun, hpaid⟩ := paid_run keys h hkeys
    refine ⟨t', hrun, hpaid.reachable h, hpaid.capacity_eq, hpaid.load_eq, hpaid.mem_iff, ?_⟩
    show t'.relocations ≤ t.relocations + (min windowSlots t.capacity - 1) * t.load
    have hle := hpaid.le
    have hbound := h.wellFormed.detour_le
    omega

/-- Members in a line behind a tombstone, whose walks start at two different slots. -/
def lined : Table :=
  ((empty ⟨1, 3, 6⟩).run [.insert [3], .insert [11], .insert [6], .insert [9], .remove [3]]).2

/-- Each of them moves when the one before it has left a tombstone, and then stays where it is. -/
theorem relocations_bounded_lined : Table.create ⟨1, 3, 6⟩ = .ok (empty ⟨1, 3, 6⟩) ∧ lined.Reachable ∧
    (∀ key ∈ [[6], [11], [6], [9], [6], [9], [11]], key ∈ lined) ∧
    (lined.lookupOrInsert [6] = .ok (.found, lined) ∧ Moved lined (lined.relocate 1 0) [11]) ∧
    ∃ t', lined.run ([[6], [11], [6], [9], [6], [9], [11]].map .insert) =
        (.ok (List.replicate 7 (.lookup .found)), t') ∧
      t'.stats.relocations = 3 ∧ t'.stats.relocations ≤ 21 := by
  have hc : Table.create ⟨1, 3, 6⟩ = .ok (empty ⟨1, 3, 6⟩) := by decide
  have hreach : lined.Reachable := (Reachable.create hc).run _
  have hmem : ∀ key ∈ [[6], [11], [6], [9], [6], [9], [11]], key ∈ lined := fun key hk =>
    hreach.wellFormed.hasKey_iff.1 (by revert key; decide +kernel)
  obtain ⟨hmove, hbound⟩ := relocations_bounded hreach
  have hfirst : lined.lookupOrInsert [6] = .ok (.found, lined) := by decide +kernel
  have hmoved : lined.lookupOrInsert [11] = .ok (.found, lined.relocate 1 0) := by decide +kernel
  have hne : lined.relocate 1 0 ≠ lined := by decide +kernel
  refine ⟨hc, hreach, hmem, ⟨hfirst, ?_⟩, ?_⟩
  · rcases hmove [11] (hmem _ (by simp)) with heq | ⟨t', heq, hto⟩
    · exact absurd (Prod.mk.inj (Except.ok.inj (hmoved.symm.trans heq))).2 hne
    · rwa [← (Prod.mk.inj (Except.ok.inj (hmoved.symm.trans heq))).2] at hto
  · obtain ⟨t', hrun, -, -, -, -, hle⟩ := hbound _ hmem
    have hcount : (lined.run ([[6], [11], [6], [9], [6], [9], [11]].map .insert)).2.stats.relocations = 3 := by
      decide +kernel
    rw [hrun] at hcount
    exact ⟨t', hrun, hcount, hle⟩

end StateSpace.Table
