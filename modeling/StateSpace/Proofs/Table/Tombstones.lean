import StateSpace.Proofs.Table.Resizing

/-!
# No tombstone is lost

A removal makes a tombstone. It stays one, in this slot or, when an entry moves into it, in another, until an insertion
or a growth uses it up and counts it as reclaimed. So the tombstones in use and those reclaimed are together (`buried`)
as many as there were removals (`tombstones_of_history`): a removal adds one, clearing sets both to zero, and nothing
else changes their sum (`buried_act`).

A growth counts the tombstones that it clears away when it doubles the capacity, and not when it puts entries back, so
it must not come upon a tombstone then: there is none in a table that was just doubled, and storing makes none
(`buried_putBack`). Slots beyond the capacity do not count, whatever an earlier use of the table has left in them.
-/

namespace StateSpace.Table

variable {t : Table} {key : State} {hash : UInt32}

/-- The tombstones in use, and those that became usable again. -/
def buried (t : Table) : Nat := t.tombstones + t.reclaimed

/-- The slots in use that hold a tombstone. -/
def graves (t : Table) : Finset Nat := (Finset.range t.capacity).filter fun i => t.slot i == .tombstone

theorem mem_graves {i : Nat} : i ∈ t.graves ↔ i < t.capacity ∧ t.slot i = .tombstone := by
  simp [graves]

theorem card_graves (t : Table) : t.graves.card = t.tombstones := card_filter_range ..

theorem tombstones_eq_zero_iff : t.tombstones = 0 ↔ t.Tidy := by
  simp [tombstones, Tidy]

/-! ## Changing slots -/

/-- Storing a key uses a tombstone up if the probe has offered one. -/
theorem tombstones_occupy (h : t.WellFormed) (hh : Fingerprint.tagOf hash = keyTag key) {i : Nat} {onTombstone : Bool}
    (hp : t.probe key hash = .vacant i onTombstone) :
    (t.occupy i key hash).tombstones + onTombstone.toNat = t.tombstones := by
  obtain ⟨hreach, hslot, -⟩ := probe_vacant hh hp
  have hi := h.lt_size hreach.lt
  have hgraves : (t.occupy i key hash).graves = t.graves.erase i := by
    ext j
    have hcapacity : (t.occupy i key hash).capacity = t.capacity := rfl
    rw [mem_graves, Finset.mem_erase, mem_graves, hcapacity, slot_occupy hi]
    by_cases hij : i = j
    · simp [hij]
    · simp [hij, Ne.symm hij]
  rw [← card_graves, hgraves, ← card_graves]
  cases onTombstone with
  | true => exact Finset.card_erase_add_one (mem_graves.2 ⟨hreach.lt, hslot⟩)
  | false =>
    have hnot : i ∉ t.graves := fun hmem => by
      have hgrave := (mem_graves.1 hmem).2
      simp [hslot] at hgrave
    rw [Finset.erase_eq_of_notMem hnot]
    rfl

/-- Moving an entry into a tombstone leaves another one. -/
theorem tombstones_relocate (h : t.WellFormed) {i j : Nat} (hi : t.Stores i key) (hj : j < t.capacity)
    (hslot : t.slot j = .tombstone) : (t.relocate i j).tombstones = t.tombstones := by
  obtain ⟨hcap, tag, hs⟩ := hi
  have hslots := slot_relocate (h.lt_size hcap) (h.lt_size hj)
  have hgraves : (t.relocate i j).graves = insert i (t.graves.erase j) := by
    ext k
    have hcapacity : (t.relocate i j).capacity = t.capacity := rfl
    rw [mem_graves, Finset.mem_insert, Finset.mem_erase, mem_graves, hcapacity, hslots]
    by_cases hik : i = k
    · simp [← hik, hcap]
    · by_cases hjk : j = k
      · subst hjk
        simp [hik, hs, Ne.symm hik]
      · simp [hik, hjk, Ne.symm hik, Ne.symm hjk]
  have hnot : i ∉ t.graves.erase j := fun hmem => by
    have hgrave := (mem_graves.1 (Finset.mem_of_mem_erase hmem)).2
    simp [hs] at hgrave
  rw [← card_graves, hgraves, Finset.card_insert_of_notMem hnot, Finset.card_erase_add_one (mem_graves.2 ⟨hj, hslot⟩),
    card_graves]

/-- Removing a key leaves a tombstone. -/
theorem tombstones_vacate (h : t.WellFormed) {i : Nat} (hi : t.Stores i key) :
    (t.vacate i).tombstones = t.tombstones + 1 := by
  obtain ⟨hcap, tag, hs⟩ := hi
  have hgraves : (t.vacate i).graves = insert i t.graves := by
    ext k
    have hcapacity : (t.vacate i).capacity = t.capacity := rfl
    rw [mem_graves, Finset.mem_insert, mem_graves, hcapacity, slot_vacate (h.lt_size hcap)]
    by_cases hik : i = k
    · simp [← hik, hcap]
    · simp [hik, Ne.symm hik]
  have hnot : i ∉ t.graves := fun hmem => by
    have hgrave := (mem_graves.1 hmem).2
    simp [hs] at hgrave
  rw [← card_graves, hgraves, Finset.card_insert_of_notMem hnot, card_graves]

/-! ## Growth -/

/-- Doubling counts the tombstones that it clears away. -/
theorem buried_doubled (t : Table) : t.doubled.buried = t.buried := by
  have hnone : t.doubled.tombstones = 0 := tombstones_eq_zero_iff.2 (tidy_doubled t)
  have hcount : t.doubled.reclaimed = t.reclaimed + t.tombstones := rfl
  unfold buried
  omega

/-- A lookup function that loses no tombstone of a well-formed table. -/
def KeepsBuried (look : Table → State → UInt32 → Lookup × Table) : Prop :=
  ∀ t key hash, t.WellFormed → Fingerprint.tagOf hash = keyTag key → key.length = t.config.keyLength →
    (look t key hash).2.buried = t.buried

section

variable {look : Table → State → UInt32 → Lookup × Table}

/-- An entry that is put back counts no tombstone, and finds none. -/
theorem buried_putBack (hlook : KeepsBuried look) (h : t.WellFormed) (htidy : t.Tidy) {entry : UInt32 × State}
    (htag : entry.1 = keyTag entry.2) (hlength : entry.2.length = t.config.keyLength) :
    (putBack look t entry).buried = t.buried := by
  have hh : Fingerprint.tagOf entry.1 = keyTag entry.2 := by rw [htag, tagOf_keyTag]
  have hlooked := hlook t entry.2 entry.1 h hh hlength
  unfold putBack
  split
  · rename_i slot onTombstone hp
    have hnone := tombstones_eq_zero_iff.2 htidy
    have hused := tombstones_occupy h hh hp
    have hcount : (t.occupy slot entry.2 entry.1).reclaimed = t.reclaimed := rfl
    unfold buried
    omega
  · split <;> rename_i heq <;> rw [heq] at hlooked <;> exact hlooked

theorem buried_foldl_putBack (hfaithful : Faithful look) (hlook : KeepsBuried look) (entries : List (UInt32 × State))
    {t : Table} (h : t.WellFormed) (htidy : t.Tidy)
    (hentries : ∀ entry ∈ entries, entry.1 = keyTag entry.2 ∧ entry.2.length = t.config.keyLength) :
    (entries.foldl (putBack look) t).buried = t.buried := by
  induction entries generalizing t with
  | nil => rfl
  | cons entry rest ih =>
    obtain ⟨htag, hlength⟩ := hentries entry List.mem_cons_self
    have hfirst := extends_putBack hfaithful h htag hlength
    have hrest := ih hfirst.wellFormed (hfirst.tidy htidy) fun entry he => by
      rw [hfirst.config_eq]
      exact hentries entry (List.mem_cons_of_mem _ he)
    rw [List.foldl_cons, hrest, buried_putBack hlook h htidy htag hlength]

theorem buried_growWith (hfaithful : Faithful look) (hlook : KeepsBuried look) (h : t.WellFormed)
    (hlt : t.pow2 < t.config.maxPow2) : (growWith look t).buried = t.buried := by
  rw [← buried_doubled t]
  exact buried_foldl_putBack hfaithful hlook t.staged (wellFormed_doubled h hlt) (tidy_doubled t) fun _ =>
    h.of_mem_staged

end

/-! ## Lookup -/

/-- A key that is stored in a tombstone makes it a reclaimed one. -/
theorem buried_insertAt (h : t.WellFormed) (hh : Fingerprint.tagOf hash = keyTag key) {i : Nat} {onTombstone : Bool}
    (hp : t.probe key hash = .vacant i onTombstone) : (t.insertAt i onTombstone key hash).buried = t.buried := by
  have hused := tombstones_occupy h hh hp
  have hsame : (t.insertAt i onTombstone key hash).tombstones = (t.occupy i key hash).tombstones := rfl
  have hcount : (t.insertAt i onTombstone key hash).reclaimed = t.reclaimed + onTombstone.toNat := rfl
  unfold buried
  omega

theorem buried_lookupOr (h : t.WellFormed) (hh : Fingerprint.tagOf hash = keyTag key) {grow : Table → Lookup × Table}
    (hgrow : (grow t).2.buried = t.buried) : (lookupOr grow t key hash).2.buried = t.buried := by
  unfold lookupOr
  split
  · rfl
  · rename_i hp
    obtain ⟨hi, hj, hslot⟩ := movable_of_hit hh hp
    exact congrArg (· + t.reclaimed) (tombstones_relocate h hi hj.lt hslot)
  · rename_i hp
    split
    · exact buried_insertAt h hh hp
    · exact hgrow
  · exact hgrow

theorem keepsBuried_lookupWithin (n : Nat) : KeepsBuried (lookupWithin n) := by
  induction n with
  | zero => exact fun t key hash h hh _ => buried_lookupOr h hh rfl
  | succ n ih =>
    intro t key hash h hh hlength
    refine buried_lookupOr h hh ?_
    split
    · rename_i hlt
      have hfaithful := looked_lookupWithin n
      have hgrown := extends_growWith hfaithful h hlt
      rw [← buried_growWith hfaithful ih h hlt]
      exact ih _ key hash hgrown.wellFormed hh (by rw [hgrown.config_eq, hlength])
    · rfl

theorem buried_lookupKey (h : t.WellFormed) (hlength : key.length = t.config.keyLength) :
    (t.lookupKey key).2.buried = t.buried := keepsBuried_lookupWithin _ t key _ h rfl hlength

/-- A new key that is stored in a tombstone uses it up. -/
theorem tombstones_of_vacant (h : t.WellFormed) {i : Nat} {onTombstone : Bool}
    (hp : t.probe key (Hash.ofState key 0) = .vacant i onTombstone) (hroom : t.hasRoom = true) :
    (t.lookupKey key).2.tombstones + onTombstone.toNat = t.tombstones ∧
      (t.lookupKey key).2.reclaimed = t.reclaimed + onTombstone.toNat := by
  have heq : t.lookupKey key = (.inserted, t.insertAt i onTombstone key (Hash.ofState key 0)) := by
    rw [lookupKey, lookupHashed_eq, lookupOr, hp]
    exact if_pos hroom
  rw [heq]
  exact ⟨tombstones_occupy h rfl hp, rfl⟩

/-- A lookup of a member keeps the tombstones, also if it moves the member. -/
theorem tombstones_of_mem (h : t.WellFormed) (hk : key ∈ t) :
    (t.lookupKey key).2.tombstones = t.tombstones ∧ (t.lookupKey key).2.reclaimed = t.reclaimed := by
  unfold lookupKey
  rw [lookupHashed_eq]
  rcases lookupOr_of_mem h rfl hk _ with heq | ⟨i, j, hi, hj, hslot, heq⟩
  · rw [heq]
    exact ⟨rfl, rfl⟩
  · rw [heq]
    exact ⟨tombstones_relocate h hi hj.lt hslot, rfl⟩

theorem buried_resize (h : t.WellFormed) : t.resize.2.buried = t.buried := by
  rw [resize_eq]
  split
  · rename_i hlt
    exact buried_growWith faithful_lookupHashed (fun t key hash => keepsBuried_lookupWithin _ t key hash) h hlt
  · rfl

/-- A table that was resized has no tombstone, so it counts all that there were as reclaimed. -/
theorem tombstones_of_resize (h : t.WellFormed) (hgrown : t.resize.1 = true) : t.resize.2.tombstones = 0 := by
  rw [resize_eq] at hgrown ⊢
  split at hgrown
  · rename_i hlt
    rw [if_pos hlt]
    exact tombstones_eq_zero_iff.2 (tidy_growWith h hlt)
  · simp at hgrown

/-! ## Histories -/

/-- The number of removals since the last clear that found their key, after one more operation with this answer. -/
def tally (n : Nat) : Op → Answer → Nat
  | .clear, _ => 0
  | .remove _, .bool true => n + 1
  | _, _ => n

/-- A table and the number of removals since its last clear that found their key, after one more operation. An operation
that fails does not end the history. -/
def record (history : Table × Nat) (op : Op) : Table × Nat :=
  match history.1.apply op with
  | (.ok answer, t) => (t, tally history.2 op answer)
  | (.error _, t) => (t, history.2)

/-- One operation: a removal of a member adds a tombstone, and clearing forgets them all. -/
theorem buried_act (h : t.WellFormed) {op : Op} (hop : t.check op = .ok ()) :
    (t.act op).2.buried = tally t.buried op (t.act op).1 := by
  rw [check_eq_ok] at hop
  cases op with
  | insert key => exact buried_lookupKey h (hop key rfl)
  | contains key => rfl
  | remove key =>
    show (t.removeKey key).2.buried = tally t.buried (.remove key) (.bool (t.removeKey key).1)
    rcases removeKey_cases h key with ⟨-, heq⟩ | ⟨i, hi, heq⟩
    · rw [heq]
      rfl
    · rw [heq]
      show (t.vacate i).tombstones + t.reclaimed = t.tombstones + t.reclaimed + 1
      rw [tombstones_vacate h hi]
      omega
  | resize => exact buried_resize h
  | clear => exact congrArg (· + 0) (tombstones_eq_zero_iff.2 (tidy_clear t))

/-- A history that has counted right so far counts the next operation right. -/
theorem record_buried (h : t.WellFormed) (op : Op) :
    record (t, t.buried) op = ((t.apply op).2, (t.apply op).2.buried) := by
  unfold record
  cases hop : t.check op with
  | error wrong =>
    have heq : t.apply op = (.error wrong, t) := by simp [apply, hop]
    simp only [heq]
  | ok u =>
    simp only [apply_of_check hop]
    rw [buried_act h hop]

theorem foldl_record_buried (ops : List Op) {t : Table} (h : t.WellFormed) :
    ∃ t' : Table, t'.WellFormed ∧ ops.foldl record (t, t.buried) = (t', t'.buried) := by
  induction ops generalizing t with
  | nil => exact ⟨t, h, rfl⟩
  | cons op rest ih =>
    rw [List.foldl_cons, record_buried h op]
    exact ih (h.apply op)

/-- **No tombstone is lost.** After every history of operations, the tombstones in use and those reclaimed are as many
as the removals since the last clear that found their key. So growth on request leaves exactly these as reclaimed. A
lookup that finds its key keeps both numbers, one that stores a new key in a tombstone takes it from the one and adds it
to the other, and every lookup keeps their sum, however often it has to grow the table. -/
theorem tombstones_of_history {config : Config} {memory : Memory} {t : Table}
    (hc : Table.create config memory = .ok t) (ops : List Op) :
    let t' := (ops.foldl record (t, 0)).1
    let removed := (ops.foldl record (t, 0)).2
    t'.tombstones + t'.stats.reclaimed = removed ∧
      (t'.resize.1 = true → t'.resize.2.tombstones = 0 ∧ t'.resize.2.stats.reclaimed = removed) ∧
      ∀ key : State, key.length = t'.config.keyLength →
        (t'.lookupKey key).2.tombstones + (t'.lookupKey key).2.stats.reclaimed = removed ∧
        (key ∈ t' → (t'.lookupKey key).2.tombstones = t'.tombstones ∧
          (t'.lookupKey key).2.stats.reclaimed = t'.stats.reclaimed) ∧
        ∀ i onTombstone, t'.probe key (Hash.ofState key 0) = .vacant i onTombstone → t'.hasRoom = true →
          (t'.lookupKey key).2.tombstones + onTombstone.toNat = t'.tombstones ∧
            (t'.lookupKey key).2.stats.reclaimed = t'.stats.reclaimed + onTombstone.toNat := by
  obtain ⟨-, rfl⟩ := create_eq_ok hc
  have hnone : (empty config).buried = 0 :=
    congrArg (· + 0) (tombstones_eq_zero_iff.2 fun i _ => by simp [slot_empty])
  obtain ⟨t', h, heq⟩ := foldl_record_buried ops (wellFormed_create hc)
  rw [hnone] at heq
  rw [heq]
  refine ⟨rfl, fun hgrown => ?_, fun key hlength => ?_⟩
  · have hzero := tombstones_of_resize h hgrown
    have hkept : t'.resize.2.tombstones + t'.resize.2.reclaimed = t'.buried := buried_resize h
    rw [hzero, Nat.zero_add] at hkept
    exact ⟨hzero, hkept⟩
  · exact ⟨buried_lookupKey h hlength, tombstones_of_mem h, fun i onTombstone => tombstones_of_vacant h⟩

/-- Three removals of members and one of another key, a member that moves into a tombstone, and a new key that takes
one. -/
def burials : List Op :=
  [.insert [2], .insert [3], .insert [7], .remove [2], .insert [3], .remove [9], .insert [1, 1], .remove [7],
    .insert [10], .remove [3]]

theorem tombstones_of_burials : Table.create ⟨1, 2, 6⟩ = .ok (empty ⟨1, 2, 6⟩) ∧
    let t := (burials.foldl record (empty ⟨1, 2, 6⟩, 0)).1
    t.tombstones = 2 ∧ t.stats.reclaimed = 1 ∧ t.tombstones + t.stats.reclaimed = 3 ∧
      t.resize.2.tombstones = 0 ∧ t.resize.2.stats.reclaimed = 3 ∧
      (t.lookupKey [10]).2.tombstones = 2 ∧ (t.lookupKey [13]).2.stats.reclaimed = 2 := by
  have hc : Table.create ⟨1, 2, 6⟩ = .ok (empty ⟨1, 2, 6⟩) := by decide
  obtain ⟨hsum, hresize, hlookup⟩ := tombstones_of_history hc burials
  have hremoved : (burials.foldl record (empty ⟨1, 2, 6⟩, 0)).2 = 3 := by decide +kernel
  have htombstones : (burials.foldl record (empty ⟨1, 2, 6⟩, 0)).1.tombstones = 2 := by decide +kernel
  have hreclaimed : (burials.foldl record (empty ⟨1, 2, 6⟩, 0)).1.stats.reclaimed = 1 := by decide +kernel
  rw [hremoved] at hsum hresize
  obtain ⟨hnone, hall⟩ := hresize (by decide +kernel)
  obtain ⟨-, hmem, -⟩ := hlookup [10] (by decide +kernel)
  obtain ⟨-, -, hnew⟩ := hlookup [13] (by decide +kernel)
  refine ⟨hc, htombstones, hreclaimed, hsum, hnone, hall, ?_, ?_⟩
  · rw [(hmem ⟨2, by decide +kernel, keyTag [10], by decide +kernel⟩).1, htombstones]
  · rw [(hnew 0 true (by decide +kernel) (by decide +kernel)).2, hreclaimed]
    rfl

end StateSpace.Table
