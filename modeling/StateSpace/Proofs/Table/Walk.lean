import StateSpace.Table.Probe

/-!
# The walk of a key

A probe looks at the slots of a key's windows one after another (`windows`, `walk`). All of them are in use
(`lt_of_mem_walk`), and the first is the key's home (`walk_eq_cons`).

What a probe answers is read off the walk: the key's slot, with the first tombstone before it in the same window; or the
first empty slot, or rather the first tombstone before it in the same window; or neither of them, in any window
(`probed_probe`). So a probe finds a key that no empty slot of its walk comes before, and finds nothing else
(`probe_hit`, `probe_vacant`, `probe_exhausted`).
-/

namespace StateSpace.Table

/-- The tag that is kept of a key: that of its hash. -/
def keyTag (key : State) : UInt32 := Fingerprint.tagOf (Hash.ofState key 0)

/-- The windows of `left` attempts, the first of them that of `hash`, at the given attempt. -/
def windowsFrom (capacity : Nat) (key : State) : Nat → UInt32 → UInt32 → List (List Nat)
  | 0, _, _ => []
  | left + 1, attempt, hash =>
    window capacity hash :: windowsFrom capacity key left (attempt + 1) (Hash.rehash key hash attempt)

/-- The windows of a key, attempt by attempt. -/
def windows (capacity : Nat) (key : State) : List (List Nat) :=
  windowsFrom capacity key probeAttempts 0 (keyTag key)

/-- The slots that a probe for a key visits until it is decided, in order. -/
def walk (capacity : Nat) (key : State) : List Nat := (windows capacity key).flatten

/-! ## Windows -/

theorem one_shiftLeft_pos (n : Nat) : 0 < 1 <<< n := by
  rw [Nat.one_shiftLeft]
  exact Nat.two_pow_pos n

theorem capacity_pos (t : Table) : 0 < t.capacity := one_shiftLeft_pos t.pow2

/-- A window has a slot. -/
theorem width_pos (n : Nat) : 0 < min windowSlots (1 <<< n) := Nat.lt_min.2 ⟨by decide, one_shiftLeft_pos n⟩

/-- A capacity is a whole number of windows. -/
theorem windowSlots_dvd (n : Nat) : min windowSlots (1 <<< n) ∣ 1 <<< n := by
  rw [Nat.one_shiftLeft]
  rcases Nat.le_total n 4 with h | h
  · have hle : 2 ^ n ≤ windowSlots := Nat.pow_le_pow_right (by decide) h
    exact ⟨1, by rw [Nat.min_eq_right hle, Nat.mul_one]⟩
  · have hle : windowSlots ≤ 2 ^ n := Nat.pow_le_pow_right (n := 2) (by decide) h
    rw [Nat.min_eq_left hle]
    exact Nat.pow_dvd_pow 2 h

/-- The slots of a window are in use. -/
theorem lt_of_mem_window {n i : Nat} {hash : UInt32} (h : i ∈ window (1 <<< n) hash) : i < 1 <<< n := by
  have hstart : hash.toNat % (1 <<< n) < 1 <<< n := Nat.mod_lt _ (one_shiftLeft_pos n)
  have hwidth := width_pos n
  obtain ⟨k, hk⟩ := windowSlots_dvd n
  simp only [window, List.mem_map, List.mem_range] at h
  obtain ⟨step, -, rfl⟩ := h
  generalize hash.toNat % (1 <<< n) = start at hstart ⊢
  generalize min windowSlots (1 <<< n) = width at hwidth hk ⊢
  have hstep := Nat.mod_lt (start + step) hwidth
  have hdiv := Nat.div_add_mod start width
  -- the window begins at a multiple of its width below the capacity, which is a multiple too
  have hlt : start / width < k := by
    rw [Nat.div_lt_iff_lt_mul hwidth, Nat.mul_comm, ← hk]
    exact hstart
  have hle : width * (start / width + 1) ≤ width * k := Nat.mul_le_mul_left width hlt
  rw [Nat.mul_add, Nat.mul_one] at hle
  omega

/-- A window begins with the slot of its hash. -/
theorem window_eq_cons (n : Nat) (hash : UInt32) :
    ∃ rest, window (1 <<< n) hash = hash.toNat % (1 <<< n) :: rest := by
  have hwidth := width_pos n
  unfold window
  obtain ⟨m, hm⟩ := Nat.exists_eq_succ_of_ne_zero (Nat.ne_of_gt hwidth)
  simp only [hm, List.range_succ_eq_map, List.map_cons, Nat.add_zero]
  rw [Nat.sub_add_cancel (Nat.mod_le _ _)]
  exact ⟨_, rfl⟩

theorem lt_of_mem_windowsFrom {n i left : Nat} {key : State} {attempt hash : UInt32}
    (h : i ∈ (windowsFrom (1 <<< n) key left attempt hash).flatten) : i < 1 <<< n := by
  induction left generalizing attempt hash with
  | zero => simp [windowsFrom] at h
  | succ left ih =>
    rw [windowsFrom, List.flatten_cons, List.mem_append] at h
    rcases h with h | h
    · exact lt_of_mem_window h
    · exact ih h

/-- The slots of a walk are in use. -/
theorem lt_of_mem_walk {t : Table} {key : State} {i : Nat} (h : i ∈ walk t.capacity key) : i < t.capacity :=
  lt_of_mem_windowsFrom h

/-- A walk begins with the slot of the key's tag. -/
theorem walk_eq_cons (t : Table) (key : State) :
    ∃ rest, walk t.capacity key = (keyTag key).toNat % t.capacity :: rest := by
  obtain ⟨rest, h⟩ := window_eq_cons t.pow2 (keyTag key)
  unfold walk windows
  rw [show probeAttempts = 63 + 1 from rfl, windowsFrom, List.flatten_cons, capacity, h]
  exact ⟨_, rfl⟩

/-- Of two places on one list, one comes first. -/
theorem places_of_append_eq {α : Type} {before before' after after' : List α} {i i' : α}
    (h : before ++ i :: after = before' ++ i' :: after') : i = i' ∨ i' ∈ before ∨ i ∈ before' := by
  rcases List.append_eq_append_iff.1 h with ⟨mid, hb, ha⟩ | ⟨mid, hb, ha⟩
  · cases mid with
    | nil => exact .inl (List.cons.inj ha).1
    | cons j mid =>
      cases (List.cons.inj ha).1
      exact .inr (.inr (by simp [hb]))
  · cases mid with
    | nil => exact .inl (List.cons.inj ha).1.symm
    | cons j mid =>
      cases (List.cons.inj ha).1
      exact .inr (.inl (by simp [hb]))

/-! ## What a probe sees -/

/-- The walk goes on after these slots: none of them is empty, and none holds the key. -/
def Passes (t : Table) (key : State) (tag : UInt32) (is : List Nat) : Prop :=
  ∀ i ∈ is, t.slot i ≠ .empty ∧ t.slot i ≠ .entry tag key

/-- The first of these slots that holds a tombstone. -/
def firstTombstone (t : Table) (is : List Nat) : Option Nat := is.find? fun i => t.slot i == .tombstone

/-- What a walk over the given slots comes to, if `seen` is the first tombstone before them. -/
inductive Scanned (t : Table) (key : State) (tag : UInt32) (seen : Option Nat) (is : List Nat) : Option Probe → Prop
  | passed : t.Passes key tag is → Scanned t key tag seen is none
  | hit {before after : List Nat} {i : Nat} : is = before ++ i :: after → t.Passes key tag before →
      t.slot i = .entry tag key → Scanned t key tag seen is (some (.hit i (seen.or (t.firstTombstone before))))
  | vacant {before after : List Nat} {i : Nat} : is = before ++ i :: after → t.Passes key tag before →
      t.slot i = .empty → Scanned t key tag seen is
        (some (.vacant ((seen.or (t.firstTombstone before)).getD i) (seen.or (t.firstTombstone before)).isSome))

theorem Passes.cons {t : Table} {key : State} {tag : UInt32} {i : Nat} {is : List Nat} (he : t.slot i ≠ .empty)
    (hk : t.slot i ≠ .entry tag key) (h : t.Passes key tag is) : t.Passes key tag (i :: is) := by
  intro j hj
  rcases List.mem_cons.1 hj with rfl | hj
  · exact ⟨he, hk⟩
  · exact h j hj

theorem Passes.append {t : Table} {key : State} {tag : UInt32} {is js : List Nat} (h : t.Passes key tag is)
    (h' : t.Passes key tag js) : t.Passes key tag (is ++ js) := fun i hi =>
  (List.mem_append.1 hi).elim (h i) (h' i)

/-- A slot that is passed comes before whatever the walk comes to. -/
theorem Scanned.cons {t : Table} {key : State} {tag : UInt32} {seen : Option Nat} {i : Nat} {is : List Nat}
    {r : Option Probe} (he : t.slot i ≠ .empty) (hk : t.slot i ≠ .entry tag key)
    (h : Scanned t key tag (seen.or (t.firstTombstone [i])) is r) : Scanned t key tag seen (i :: is) r := by
  have hfirst (before : List Nat) : (seen.or (t.firstTombstone [i])).or (t.firstTombstone before) =
      seen.or (t.firstTombstone (i :: before)) := by
    rw [Option.or_assoc]
    congr 1
    unfold firstTombstone
    cases h : t.slot i == .tombstone <;> simp [h]
  cases h with
  | passed h => exact .passed (h.cons he hk)
  | hit hs hp hi =>
    rw [hfirst]
    exact .hit (by rw [hs, List.cons_append]) (hp.cons he hk) hi
  | vacant hs hp hi =>
    rw [hfirst]
    exact .vacant (by rw [hs, List.cons_append]) (hp.cons he hk) hi

theorem scanned_scan (t : Table) (key : State) (tag : UInt32) (is : List Nat) (seen : Option Nat) :
    Scanned t key tag seen is (t.scan key tag is seen) := by
  induction is generalizing seen with
  | nil => exact .passed (by simp [Passes])
  | cons i is ih =>
    cases hi : t.slot i with
    | empty =>
      have : Scanned t key tag seen (i :: is) _ := .vacant (List.nil_append _).symm (by simp [Passes]) hi
      simpa [scan, hi, firstTombstone] using this
    | tombstone =>
      refine Scanned.cons (by simp [hi]) (by simp [hi]) ?_
      have hor : (seen <|> some i) = seen.or (t.firstTombstone [i]) := by
        cases seen <;> simp [firstTombstone, hi]
      simp only [scan, hi, hor]
      exact ih _
    | entry tag' key' =>
      by_cases hk : tag' = tag ∧ key' = key
      · obtain ⟨rfl, rfl⟩ := hk
        have : Scanned t key' tag' seen (i :: is) _ := .hit (List.nil_append _).symm (by simp [Passes]) hi
        simpa [scan, hi, firstTombstone] using this
      · refine Scanned.cons (by simp [hi]) (by simpa [hi] using hk) ?_
        have hor : seen = seen.or (t.firstTombstone [i]) := by simp [firstTombstone, hi]
        simp only [scan, hi, if_neg hk, ← hor]
        exact ih _

/-- What a probe that looks at the given windows answers. -/
inductive Probed (t : Table) (key : State) (tag : UInt32) (ws : List (List Nat)) : Probe → Prop
  | hit {passed later : List (List Nat)} {before after : List Nat} {i : Nat} :
      ws = passed ++ (before ++ i :: after) :: later → t.Passes key tag (passed.flatten ++ before) →
      t.slot i = .entry tag key → Probed t key tag ws (.hit i (t.firstTombstone before))
  | vacant {passed later : List (List Nat)} {before after : List Nat} {i : Nat} :
      ws = passed ++ (before ++ i :: after) :: later → t.Passes key tag (passed.flatten ++ before) →
      t.slot i = .empty →
      Probed t key tag ws (.vacant ((t.firstTombstone before).getD i) (t.firstTombstone before).isSome)
  | exhausted : t.Passes key tag ws.flatten → Probed t key tag ws .exhausted

theorem probed_probeFrom (t : Table) (key : State) (tag : UInt32) (left : Nat) (attempt hash : UInt32) :
    Probed t key tag (windowsFrom t.capacity key left attempt hash) (t.probeFrom key tag left attempt hash) := by
  induction left generalizing attempt hash with
  | zero => exact .exhausted (by simp [windowsFrom, Passes])
  | succ left ih =>
    have hscan := scanned_scan t key tag (window t.capacity hash) none
    rw [windowsFrom, probeFrom]
    generalize t.scan key tag (window t.capacity hash) none = r at hscan
    cases hscan with
    | hit hs hp hi =>
      rw [hs, Option.none_or]
      exact .hit (List.nil_append _).symm hp hi
    | vacant hs hp hi =>
      rw [hs, Option.none_or]
      exact .vacant (List.nil_append _).symm hp hi
    | passed hw =>
      -- the window is one more that was passed
      specialize ih (attempt + 1) (Hash.rehash key hash attempt)
      generalize windowsFrom t.capacity key left (attempt + 1) (Hash.rehash key hash attempt) = ws at ih
      generalize t.probeFrom key tag left (attempt + 1) (Hash.rehash key hash attempt) = r at ih
      cases ih with
      | hit hs hp hi =>
        rw [hs, ← List.cons_append]
        exact .hit rfl (by rw [List.flatten_cons, List.append_assoc]; exact hw.append hp) hi
      | vacant hs hp hi =>
        rw [hs, ← List.cons_append]
        exact .vacant rfl (by rw [List.flatten_cons, List.append_assoc]; exact hw.append hp) hi
      | exhausted hp => exact .exhausted (hw.append hp)

/-- What a probe answers; only the tag of the hash matters. -/
theorem probed_probe (t : Table) {key : State} {hash : UInt32} (h : Fingerprint.tagOf hash = keyTag key) :
    Probed t key (keyTag key) (windows t.capacity key) (t.probe key hash) := by
  unfold probe
  rw [h]
  exact probed_probeFrom ..

/-! ## Slots that a walk reaches -/

/-- The walk of the key comes to slot `i`, and no slot that it visits before is empty. -/
def Reaches (t : Table) (key : State) (i : Nat) : Prop :=
  ∃ before after, walk t.capacity key = before ++ i :: after ∧ ∀ j ∈ before, t.slot j ≠ .empty

theorem Reaches.mem_walk {t : Table} {key : State} {i : Nat} (h : t.Reaches key i) : i ∈ walk t.capacity key := by
  obtain ⟨before, after, hw, -⟩ := h
  simp [hw]

theorem Reaches.lt {t : Table} {key : State} {i : Nat} (h : t.Reaches key i) : i < t.capacity :=
  lt_of_mem_walk h.mem_walk

/-- The home of a key is reached at once. -/
theorem reaches_home (t : Table) (key : State) : t.Reaches key ((keyTag key).toNat % t.capacity) := by
  obtain ⟨rest, h⟩ := walk_eq_cons t key
  exact ⟨[], rest, h, by simp⟩

/-- A walk still reaches a slot when slots have been filled and none emptied. -/
theorem Reaches.mono {t t' : Table} {key : State} {i : Nat} (h : t.Reaches key i) (hc : t'.capacity = t.capacity)
    (hs : ∀ j, t.slot j ≠ .empty → t'.slot j ≠ .empty) : t'.Reaches key i := by
  obtain ⟨before, after, hw, hb⟩ := h
  exact ⟨before, after, hc ▸ hw, fun j hj => hs j (hb j hj)⟩

theorem walk_eq_of_windows_eq {capacity : Nat} {key : State} {passed later : List (List Nat)} {last : List Nat}
    (h : windows capacity key = passed ++ last :: later) :
    walk capacity key = passed.flatten ++ (last ++ later.flatten) := by
  rw [walk, h, List.flatten_append, List.flatten_cons]

/-- The first tombstone of a part of a window that was passed is reached. -/
theorem reaches_of_firstTombstone {t : Table} {key : State} {tag : UInt32} {passed later : List (List Nat)}
    {before after : List Nat} {j : Nat} (hw : windows t.capacity key = passed ++ (before ++ after) :: later)
    (hp : t.Passes key tag (passed.flatten ++ before)) (hj : t.firstTombstone before = some j) :
    t.Reaches key j ∧ t.slot j = .tombstone := by
  obtain ⟨hslot, as, bs, hb, -⟩ := List.find?_eq_some_iff_append.1 hj
  subst hb
  refine ⟨⟨passed.flatten ++ as, bs ++ after ++ later.flatten, ?_, fun k hk => (hp k ?_).1⟩, by simpa using hslot⟩
  · rw [walk_eq_of_windows_eq hw]
    simp
  · rw [← List.append_assoc]
    exact List.mem_append_left _ hk

variable {t : Table} {key : State} {hash : UInt32}

/-- A probe that finds the key finds it in a slot that the walk reaches, and so it does the tombstone before it. -/
theorem probe_hit (hh : Fingerprint.tagOf hash = keyTag key) {i : Nat} {tombstone : Option Nat}
    (h : t.probe key hash = .hit i tombstone) :
    t.Reaches key i ∧ t.slot i = .entry (keyTag key) key ∧
      ∀ j, tombstone = some j → t.Reaches key j ∧ t.slot j = .tombstone := by
  have hp := t.probed_probe hh
  rw [h] at hp
  cases hp with
  | hit hw hp hi =>
    rename_i passed later before after
    have hwalk : walk t.capacity key = (passed.flatten ++ before) ++ i :: (after ++ later.flatten) := by
      rw [walk_eq_of_windows_eq hw]
      simp
    exact ⟨⟨_, _, hwalk, fun j hj => (hp j hj).1⟩, hi, fun j hj => reaches_of_firstTombstone hw hp hj⟩

/-- A probe that finds a place for the key has met no slot with the key, and would not by going on. -/
theorem probe_vacant (hh : Fingerprint.tagOf hash = keyTag key) {i : Nat} {onTombstone : Bool}
    (h : t.probe key hash = .vacant i onTombstone) :
    t.Reaches key i ∧ t.slot i = (if onTombstone then .tombstone else .empty) ∧
      ∀ j, t.Reaches key j → t.slot j ≠ .entry (keyTag key) key := by
  have hp := t.probed_probe hh
  rw [h] at hp
  cases hp with
  | vacant hw hp hi =>
    rename_i passed later before after first
    have hwalk : walk t.capacity key = (passed.flatten ++ before) ++ first :: (after ++ later.flatten) := by
      rw [walk_eq_of_windows_eq hw]
      simp
    refine ⟨?_, ?_, ?_⟩
    · cases hf : t.firstTombstone before with
      | none => exact ⟨_, _, hwalk, fun j hj => (hp j hj).1⟩
      | some j => exact (reaches_of_firstTombstone hw hp hf).1
    · cases hf : t.firstTombstone before with
      | none => exact hi
      | some j => exact (reaches_of_firstTombstone hw hp hf).2
    · rintro j ⟨before', after', hwalk', hb⟩ hj
      rcases places_of_append_eq (hwalk.symm.trans hwalk') with rfl | hmem | hmem
      · simp [hi] at hj
      · exact (hp j hmem).2 hj
      · exact hb first hmem hi

/-- A probe that is exhausted has met neither the key nor an empty slot. -/
theorem probe_exhausted (hh : Fingerprint.tagOf hash = keyTag key) (h : t.probe key hash = .exhausted) :
    t.Passes key (keyTag key) (walk t.capacity key) := by
  have hp := t.probed_probe hh
  rw [h] at hp
  cases hp with
  | exhausted hp => exact hp

end StateSpace.Table
