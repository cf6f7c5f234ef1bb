import StateSpace.Proofs.Table.LoadBound

/-!
# A repeated lookup changes nothing

A lookup that finds its key, or stores it, leaves it where the next probe comes to it with no tombstone before it in the
same window, so that there is nothing left to move (`probe_settled`). The slot is the first tombstone that the probe has
passed in the window where it was decided, or the slot where it was decided. It could only be met earlier in a window
that was passed; but windows that share a slot have the same slots (`mem_window_of_mem`), so the slot where the probe
was decided would be one that was passed too.

A lookup that finds no room leaves a table of the largest capacity in which it has changed nothing, and finds no room
there again. Whatever growth came before, the last attempt decides (`repeats_lookupHashed`).
-/

namespace StateSpace.Table

variable {t t' : Table} {key : State} {tag hash : UInt32}

/-! ## Windows that share a slot -/

/-- The slots of a window are those with the same quotient by its width as the slot of its hash. -/
theorem mem_window_iff {n i : Nat} {hash : UInt32} : i ∈ window (1 <<< n) hash ↔
    i / min windowSlots (1 <<< n) = hash.toNat % (1 <<< n) / min windowSlots (1 <<< n) := by
  have hwidth := width_pos n
  simp only [window, List.mem_map, List.mem_range]
  generalize hash.toNat % (1 <<< n) = start
  generalize min windowSlots (1 <<< n) = width at hwidth ⊢
  have hfirst : start - start % width = width * (start / width) := by
    have hdiv := Nat.div_add_mod start width
    omega
  rw [hfirst]
  constructor
  · rintro ⟨step, -, rfl⟩
    rw [Nat.mul_add_div hwidth, Nat.div_eq_of_lt (Nat.mod_lt _ hwidth), Nat.add_zero]
  · intro hi
    -- the step that leads from the start to the slot, around the end of the window
    refine ⟨(i % width + (width - start % width)) % width, Nat.mod_lt _ hwidth, ?_⟩
    have hstart := Nat.mod_lt start hwidth
    have hstep : (start + (i % width + (width - start % width)) % width) % width = i % width := by
      rw [Nat.add_mod_mod, ← Nat.mod_add_mod]
      rw [show start % width + (i % width + (width - start % width)) = i % width + width by omega]
      rw [Nat.add_mod_right, Nat.mod_mod]
    rw [hstep, ← hi]
    exact Nat.div_add_mod i width

/-- Two windows that share a slot have the same slots. -/
theorem mem_window_of_mem {n i j : Nat} {hash hash' : UInt32} (hi : i ∈ window (1 <<< n) hash)
    (hi' : i ∈ window (1 <<< n) hash') (hj : j ∈ window (1 <<< n) hash) : j ∈ window (1 <<< n) hash' := by
  rw [mem_window_iff] at hi hi' hj ⊢
  rw [hj, ← hi, hi']

theorem exists_hash_of_mem_windowsFrom {capacity left : Nat} {attempt hash : UInt32} {w : List Nat}
    (h : w ∈ windowsFrom capacity key left attempt hash) : ∃ hash', w = window capacity hash' := by
  induction left generalizing attempt hash with
  | zero => simp [windowsFrom] at h
  | succ left ih =>
    rw [windowsFrom, List.mem_cons] at h
    rcases h with h | h
    · exact ⟨hash, h⟩
    · exact ih h

/-- If one slot of a window is in no earlier one, then none of its slots is. -/
theorem not_mem_passed {passed later : List (List Nat)} {last : List Nat}
    (hw : windows t.capacity key = passed ++ last :: later) {i j : Nat} (hi : i ∈ last) (hj : j ∈ last)
    (hnot : i ∉ passed.flatten) : j ∉ passed.flatten := by
  intro hmem
  obtain ⟨w, hwp, hjw⟩ := List.mem_flatten.1 hmem
  have hwindow : ∀ w ∈ windows t.capacity key, ∃ hash, w = window t.capacity hash := fun _ =>
    exists_hash_of_mem_windowsFrom
  obtain ⟨hash, rfl⟩ := hwindow last (by simp [hw])
  obtain ⟨hash', rfl⟩ := hwindow w (by simp [hw, hwp])
  exact hnot (List.mem_flatten.2 ⟨_, hwp, mem_window_of_mem hj hjw hi⟩)

/-! ## A key without a tombstone before it -/

theorem scan_of_passes {is : List Nat} (hp : t.Passes key tag is) (seen : Option Nat) :
    t.scan key tag is seen = none := by
  have h := scanned_scan t key tag is seen
  generalize t.scan key tag is seen = r at h ⊢
  cases h with
  | passed => rfl
  | hit hs _ hi => exact absurd hi (hp _ (by simp [hs])).2
  | vacant hs _ hi => exact absurd hi (hp _ (by simp [hs])).1

/-- A walk over other keys comes to the key. -/
theorem scan_eq_hit {is rest : List Nat} {j : Nat} (hp : t.Passes key tag is) (hnone : ∀ k ∈ is, t.slot k ≠ .tombstone)
    (hj : t.slot j = .entry tag key) : t.scan key tag (is ++ j :: rest) none = some (.hit j none) := by
  induction is with
  | nil => simp [scan, hj]
  | cons k is ih =>
    obtain ⟨hempty, hkey⟩ := hp k List.mem_cons_self
    have hrest := ih (fun m hm => hp m (List.mem_cons_of_mem _ hm)) fun m hm => hnone m (List.mem_cons_of_mem _ hm)
    cases hk : t.slot k with
    | empty => exact absurd hk hempty
    | tombstone => exact absurd hk (hnone k List.mem_cons_self)
    | entry tag' key' =>
      have hne : ¬ (tag' = tag ∧ key' = key) := by simpa [hk] using hkey
      rw [List.cons_append, scan, hk]
      exact (if_neg hne).trans hrest

theorem probeFrom_eq_hit {passed later : List (List Nat)} {is rest : List Nat} {j left : Nat} {attempt : UInt32}
    (hw : windowsFrom t.capacity key left attempt hash = passed ++ (is ++ j :: rest) :: later)
    (hp : t.Passes key tag (passed.flatten ++ is)) (hnone : ∀ k ∈ is, t.slot k ≠ .tombstone)
    (hj : t.slot j = .entry tag key) : t.probeFrom key tag left attempt hash = .hit j none := by
  induction passed generalizing left attempt hash with
  | nil =>
    cases left with
    | zero => simp [windowsFrom] at hw
    | succ left =>
      rw [List.flatten_nil, List.nil_append] at hp
      obtain ⟨hw, -⟩ := List.cons.inj hw
      rw [probeFrom, hw, scan_eq_hit hp hnone hj]
  | cons w passed ih =>
    rw [List.flatten_cons, List.append_assoc] at hp
    cases left with
    | zero => simp [windowsFrom] at hw
    | succ left =>
      obtain ⟨hw, hrest⟩ := List.cons.inj hw
      rw [probeFrom, hw, scan_of_passes fun k hk => hp k (List.mem_append_left _ hk)]
      exact ih hrest fun k hk => hp k (List.mem_append_right _ hk)

/-- The part of a window before its first tombstone, or before the slot that ends the walk if there is none. -/
theorem exists_before_firstTombstone {before : List Nat} {i j : Nat} (hi : i ∉ before)
    (hj : (t.firstTombstone before).getD i = j) (after : List Nat) :
    ∃ is rest, before ++ i :: after = is ++ j :: rest ∧ is ⊆ before ∧ j ∉ is ∧ ∀ k ∈ is, t.slot k ≠ .tombstone := by
  cases hf : t.firstTombstone before with
  | none =>
    rw [hf] at hj
    subst hj
    refine ⟨before, after, rfl, List.Subset.refl _, hi, fun k hk hs => ?_⟩
    have hnone := List.find?_eq_none.1 hf k hk
    simp [hs] at hnone
  | some k =>
    rw [hf] at hj
    subst hj
    obtain ⟨hslot, is, rest, rfl, hnone⟩ := List.find?_eq_some_iff_append.1 hf
    refine ⟨is, rest ++ i :: after, by simp, by simp, fun hmem => ?_, fun m hm hs => ?_⟩
    · simpa [hslot] using hnone k hmem
    · simpa [hs] using hnone m hm

/-- When the key is where the walk that ended at slot `i` would place it, and only this slot and `i` have changed, a
probe comes to it with no tombstone before it. -/
theorem probe_settled (hh : Fingerprint.tagOf hash = keyTag key) {passed later : List (List Nat)}
    {before after : List Nat} {i j : Nat} (hw : windows t.capacity key = passed ++ (before ++ i :: after) :: later)
    (hp : t.Passes key (keyTag key) (passed.flatten ++ before)) (hi : ¬ t.Passes key (keyTag key) [i])
    (hj : (t.firstTombstone before).getD i = j) (hcap : t'.capacity = t.capacity)
    (hslot : t'.slot j = .entry (keyTag key) key) (hsame : ∀ k, k ≠ i → k ≠ j → t'.slot k = t.slot k) :
    t'.probe key hash = .hit j none := by
  have hstop : i ∉ passed.flatten ++ before := fun hmem => hi fun k hk => by
    rw [List.mem_singleton.1 hk]
    exact hp i hmem
  rw [List.mem_append, not_or] at hstop
  obtain ⟨is, rest, heq, hsub, hjis, hnone⟩ := exists_before_firstTombstone hstop.2 hj after
  have hjlast : j ∈ before ++ i :: after := by simp [heq]
  have hjpassed := not_mem_passed hw (by simp) hjlast hstop.1
  -- so the walk up to the key sees slots of `t`
  have hold : ∀ k ∈ passed.flatten ++ is, t'.slot k = t.slot k := by
    intro k hk
    rcases List.mem_append.1 hk with hk | hk
    · exact hsame k (fun h => hstop.1 (h ▸ hk)) fun h => hjpassed (h ▸ hk)
    · exact hsame k (fun h => hstop.2 (hsub (h ▸ hk))) fun h => hjis (h ▸ hk)
  have hw' : windowsFrom t'.capacity key probeAttempts 0 (keyTag key) = passed ++ (is ++ j :: rest) :: later := by
    rw [hcap, ← heq, ← hw]
    rfl
  unfold probe
  rw [hh]
  refine probeFrom_eq_hit hw' (fun k hk => ?_) (fun k hk => ?_) hslot
  · rw [hold k hk]
    exact hp k (List.append_subset.2 ⟨by simp, fun m hm => List.mem_append_right _ (hsub hm)⟩ hk)
  · rw [hold k (List.mem_append_right _ hk)]
    exact hnone k hk

/-! ## Lookup -/

/-- A lookup in the table that a lookup left finds the key if that one did or has stored it, finds no room if that one
found none, and changes nothing. -/
def Repeats (key : State) (hash : UInt32) (r : Lookup × Table) : Prop :=
  r.2.lookupHashed key hash = (if r.1 = .full then .full else .found, r.2)

theorem lookupHashed_of_hit {i : Nat} (hp : t.probe key hash = .hit i none) :
    t.lookupHashed key hash = (.found, t) := by
  rw [lookupHashed_eq, lookupOr, hp]

/-- A member that was moved stays where it is. -/
theorem repeats_relocate (h : t.WellFormed) (hh : Fingerprint.tagOf hash = keyTag key) {i j : Nat}
    (hp : t.probe key hash = .hit i (some j)) : Repeats key hash (.found, t.relocate i j) := by
  obtain ⟨hs, hreach, hj⟩ := movable_of_hit hh hp
  have hi := h.slot_eq hs
  have hslots := slot_relocate (h.lt_size hs.1) (h.lt_size hreach.lt)
  have hne : i ≠ j := by
    rintro rfl
    simp [hi] at hj
  have hprobed := t.probed_probe hh
  rw [hp] at hprobed
  generalize hfirst : some j = first at hprobed
  cases hprobed with
  | hit hw hpass _ =>
    refine lookupHashed_of_hit (probe_settled (j := j) hh hw hpass ?_ ?_ rfl ?_ fun k hki hkj => ?_)
    · simp [Passes, hi]
    · rw [← hfirst]
      rfl
    · rw [hslots, if_neg hne, if_pos rfl, hi]
    · rw [hslots, if_neg (Ne.symm hki), if_neg (Ne.symm hkj)]

/-- A key that was stored stays where it is. -/
theorem repeats_insertAt (h : t.WellFormed) (hh : Fingerprint.tagOf hash = keyTag key) {i : Nat} {onTombstone : Bool}
    (hp : t.probe key hash = .vacant i onTombstone) :
    Repeats key hash (.inserted, t.insertAt i onTombstone key hash) := by
  have hslots (k : Nat) : (t.insertAt i onTombstone key hash).slot k =
      if i = k then .entry (Fingerprint.tagOf hash) key else t.slot k := 
    slot_occupy (h.lt_size (probe_vacant hh hp).1.lt) key hash k
  have hprobed := t.probed_probe hh
  rw [hp] at hprobed
  cases hprobed with
  | vacant hw hpass hi =>
    refine lookupHashed_of_hit (probe_settled hh hw hpass ?_ rfl rfl ?_ fun k _ hk => ?_)
    · simp [Passes, hi]
    · rw [hslots, if_pos rfl, hh]
    · rw [hslots, if_neg (Ne.symm hk)]

/-- A lookup repeats if growth does where the lookup leaves it to growth. -/
theorem repeats_lookupOr (h : t.WellFormed) (hh : Fingerprint.tagOf hash = keyTag key) {grow : Table → Lookup × Table}
    (hgrow : lookupOr grow t key hash = grow t → Repeats key hash (grow t)) :
    Repeats key hash (lookupOr grow t key hash) := by
  unfold lookupOr at hgrow ⊢
  split
  · rename_i hp
    exact lookupHashed_of_hit hp
  · rename_i hp
    exact repeats_relocate h hh hp
  · rename_i hp
    split
    · exact repeats_insertAt h hh hp
    · rename_i hroom
      exact hgrow (by rw [hp]; exact if_neg hroom)
  · rename_i hp
    exact hgrow (by rw [hp])

/-- Every lookup repeats, however often it has to grow the table. -/
theorem repeats_lookupHashed {n : Nat} (hn : t.doublingsLeft ≤ n) (h : t.WellFormed)
    (hh : Fingerprint.tagOf hash = keyTag key) : Repeats key hash (t.lookupHashed key hash) := by
  induction n generalizing t with
  | zero =>
    have hmax := doublingsLeft_eq_zero_iff.1 (Nat.le_zero.1 hn)
    rw [lookupHashed_eq]
    refine repeats_lookupOr h hh fun heq => ?_
    rw [← lookupHashed_eq, if_neg hmax] at heq
    rw [if_neg hmax]
    exact heq
  | succ n ih =>
    by_cases hlt : t.pow2 < t.config.maxPow2
    · have hleft := doublingsLeft_growWith_le grows_lookupHashed t
      rw [lookupHashed_eq]
      refine repeats_lookupOr h hh fun _ => ?_
      rw [if_pos hlt]
      exact ih (by omega) (extends_growWith faithful_lookupHashed h hlt).wellFormed
    · have hleft := doublingsLeft_eq_zero_iff.2 hlt
      exact ih (by omega) h

theorem lookupKey_again (h : t.WellFormed) (key : State) :
    (t.lookupKey key).2.lookupKey key = (if (t.lookupKey key).1 = .full then .full else .found, (t.lookupKey key).2) :=
  repeats_lookupHashed (Nat.le_refl _) h rfl

/-- A key that a lookup found or stored is a member. -/
theorem mem_of_lookupKey (h : t.WellFormed) (hlength : key.length = t.config.keyLength)
    (hne : (t.lookupKey key).1 ≠ .full) : key ∈ (t.lookupKey key).2 := by
  have hext := (looked_lookupKey h hlength).extends_
  refine (looked_lookupKey hext.wellFormed (by rw [hext.config_eq, hlength])).found_iff.1 ?_
  rw [lookupKey_again h, if_neg hne]

/-- **A repeated lookup changes nothing.** When a key is looked up twice in a row, the second lookup finds it, unless
the first has found no room; then the second finds none either. The second lookup leaves the very table of the first:
all slots, the load, the capacity, and every counter. -/
theorem lookup_again (h : t.Reachable) (hlength : key.length = t.config.keyLength) :
    ∃ answer t', t.lookupOrInsert key = .ok (answer, t') ∧
      t'.lookupOrInsert key = .ok (if answer = .full then .full else .found, t') := by
  have hconfig := (looked_lookupKey h.wellFormed hlength).extends_.config_eq
  refine ⟨(t.lookupKey key).1, (t.lookupKey key).2, lookupOrInsert_of_length hlength, ?_⟩
  rw [lookupOrInsert_of_length (by rw [hconfig, hlength]), lookupKey_again h.wellFormed]

/-- A member behind a tombstone of its window. -/
def behindTombstone : Table := ((empty ⟨1, 2, 6⟩).run (crowding.take 3)).2

/-- It is moved once, and not again. -/
theorem lookup_again_behindTombstone : Table.create ⟨1, 2, 6⟩ = .ok (empty ⟨1, 2, 6⟩) ∧ behindTombstone.Reachable ∧
    behindTombstone.lookupOrInsert [3] = .ok (.found, behindTombstone.relocate 1 0) ∧
    (behindTombstone.relocate 1 0).lookupOrInsert [3] = .ok (.found, behindTombstone.relocate 1 0) := by
  have hc : Table.create ⟨1, 2, 6⟩ = .ok (empty ⟨1, 2, 6⟩) := by decide
  have hreach : behindTombstone.Reachable := (Reachable.create hc).run _
  have hlength : ([3] : State).length = behindTombstone.config.keyLength := by decide +kernel
  have hmoved : behindTombstone.lookupOrInsert [3] = .ok (.found, behindTombstone.relocate 1 0) := by decide +kernel
  obtain ⟨answer, t, hfirst, hsecond⟩ := lookup_again hreach hlength
  rw [hmoved] at hfirst
  cases hfirst
  exact ⟨hc, hreach, hmoved, hsecond⟩

end StateSpace.Table
