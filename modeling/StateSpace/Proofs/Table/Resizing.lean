import Mathlib.Data.Nat.ModEq
import StateSpace.Proofs.Table.LoadBound

/-!
# Growth loses no key but one that is packed

Growth starts from a table without tombstones and only fills slots from there on, so a key that a doubling took out
finds its place again unless all slots of its walk are occupied. Below the largest capacity the table then grows once
more. At the largest capacity the key is dropped; but then no slot is emptied any more, and the walk of the key is still
packed with other members when the growth is over (`Packed.retained`). So what a growth does to the members is read off
the table that it leaves (`retains_growWith`): a key is a member of it, or packed in it.

Growth and lookup call each other, so what a lookup retains is shown from what lookups retain with fewer doublings left
(`retains_lookupHashed`). A lookup needs room for its key; a growth has room for every entry that it puts back, since
the entries were members before (`load_doubled`).

Entries are put back by their stored tag, which is as good as the hash of their key (`probe_congr`).
-/

namespace StateSpace.Table

variable {t t' t'' : Table} {key : State} {hash : UInt32}

/-- The capacity is the largest one, and every slot that the walk of the key visits is occupied by another key. -/
structure Packed (t : Table) (key : State) : Prop where
  doublingsLeft_eq : t.doublingsLeft = 0
  occupied : ∀ i ∈ walk t.capacity key, ∃ other, other ≠ key ∧ t.Stores i other

/-- `t'` is a later table than `t` in the course of a growth. No entry leaves its slot while the capacity stays the
same, and every member of `t` and every given key is a member or packed. -/
structure Retains (t t' : Table) (keys : List State) : Prop extends Follows t t' where
  wellFormed : t'.WellFormed
  stores : t'.pow2 = t.pow2 → ∀ i key, t.Stores i key → t'.Stores i key
  mem_or_packed : ∀ key, key ∈ t ∨ key ∈ keys → key ∈ t' ∨ t'.Packed key

/-- A key that is packed stays packed: the capacity cannot change any more. -/
theorem Packed.retained {keys : List State} (h : t.Packed key) (hr : Retains t t' keys) : t'.Packed key := by
  have hle := hr.pow2_le
  have hmax := hr.wellFormed.pow2_le
  have hleft := doublingsLeft_eq_zero_iff.1 h.doublingsLeft_eq
  rw [hr.config_eq] at hmax
  have hpow2 : t'.pow2 = t.pow2 := by omega
  have hcap : t'.capacity = t.capacity := by rw [capacity, capacity, hpow2]
  refine ⟨?_, fun i hi => ?_⟩
  · rw [doublingsLeft_eq_zero_iff, hr.config_eq]
    omega
  · obtain ⟨other, hne, hs⟩ := h.occupied i (hcap ▸ hi)
    exact ⟨other, hne, hr.stores hpow2 i other hs⟩

namespace Retains

variable {keys keys' : List State}

/-- A table retains itself, and keys that are members or packed anyway. -/
theorem refl (h : t.WellFormed) (hkeys : ∀ key ∈ keys, key ∈ t ∨ t.Packed key) : Retains t t keys :=
  ⟨Follows.refl t, h, fun _ _ _ hs => hs, fun key hk => hk.elim .inl (hkeys key)⟩

theorem trans (h : Retains t t' keys) (h' : Retains t' t'' keys') : Retains t t'' (keys ++ keys') := by
  refine ⟨h.toFollows.trans h'.toFollows, h'.wellFormed, fun heq i key hs => ?_, fun key hk => ?_⟩
  · have hle := h.pow2_le
    have hle' := h'.pow2_le
    exact h'.stores (by omega) i key (h.stores (by omega) i key hs)
  · rw [List.mem_append, ← or_assoc] at hk
    rcases hk with hk | hk
    · rcases h.mem_or_packed key hk with hk | hk
      · exact h'.mem_or_packed key (.inl hk)
      · exact .inr (hk.retained h')
    · exact h'.mem_or_packed key (.inr hk)

theorem with_counters (h : Retains t t' keys) (resizes relocations reclaimed dropped : Nat) :
    Retains t { t' with resizes, relocations, reclaimed, dropped } keys := by
  refine ⟨⟨h.config_eq, h.pow2_le⟩, h.wellFormed.with_counters _ _ _ _, h.stores, fun key hk => ?_⟩
  exact (h.mem_or_packed key hk).imp_right fun hp => ⟨hp.doublingsLeft_eq, hp.occupied⟩

end Retains

/-! ## Storing -/

theorem retains_occupy (h : t.WellFormed) (hh : Fingerprint.tagOf hash = keyTag key)
    (hlength : key.length = t.config.keyLength) {i : Nat} {onTombstone : Bool}
    (hp : t.probe key hash = .vacant i onTombstone) : Retains t (t.occupy i key hash) [key] := by
  have hcap := (probe_vacant hh hp).1.lt
  have hi := h.lt_size hcap
  refine ⟨⟨rfl, Nat.le_refl _⟩, wellFormed_occupy h hh hlength hp, fun _ j other hs => ?_, fun other hk => ?_⟩
  · exact (stores_occupy hi hcap (not_stores_of_vacant hh hp) j other).2 (.inr hs)
  · exact .inl ((mem_occupy h hh hp other).2 (hk.symm.imp_left List.mem_singleton.1))

/-- At the largest capacity, a table without tombstones whose probe for a key is exhausted is packed with other keys. -/
theorem packed_of_exhausted (h : t.WellFormed) (htidy : t.Tidy) (hh : Fingerprint.tagOf hash = keyTag key)
    (hleft : t.doublingsLeft = 0) (hp : t.probe key hash = .exhausted) : t.Packed key := by
  refine ⟨hleft, fun i hi => ?_⟩
  have hlt : i < t.capacity := lt_of_mem_walk hi
  obtain ⟨hempty, hkey⟩ := probe_exhausted hh hp i hi
  cases hs : t.slot i with
  | empty => exact absurd hs hempty
  | tombstone => exact absurd hs (htidy i hlt)
  | entry tag other =>
    refine ⟨other, ?_, hlt, tag, hs⟩
    rintro rfl
    rw [hs, h.tag_eq i tag other hlt hs] at hkey
    exact hkey rfl

/-! ## Growth -/

/-- Lookups with at most `n` doublings left retain all members and their key, if there are no tombstones and the table
has room. -/
def RetainsUpTo (n : Nat) : Prop :=
  ∀ (t : Table) (key : State) (hash : UInt32), t.doublingsLeft ≤ n → t.WellFormed → t.Tidy → t.hasRoom = true →
    Fingerprint.tagOf hash = keyTag key → key.length = t.config.keyLength →
    Retains t (t.lookupHashed key hash).2 [key]

section

variable {n : Nat}

theorem retains_putBack (hlook : RetainsUpTo n) (hn : t.doublingsLeft ≤ n) (h : t.WellFormed) (htidy : t.Tidy)
    (hroom : t.hasRoom = true) {entry : UInt32 × State} (htag : entry.1 = keyTag entry.2)
    (hlength : entry.2.length = t.config.keyLength) : Retains t (putBack lookupHashed t entry) [entry.2] := by
  have hh : Fingerprint.tagOf entry.1 = keyTag entry.2 := by rw [htag, tagOf_keyTag]
  have hlooked := hlook t entry.2 entry.1 hn h htidy hroom hh hlength
  unfold putBack
  split
  · rename_i hp
    exact retains_occupy h hh hlength hp
  · split <;> rename_i heq <;> rw [heq] at hlooked
    · exact hlooked.with_counters _ _ _ _
    · exact hlooked

theorem retains_foldl_putBack (hlook : RetainsUpTo n) (entries : List (UInt32 × State)) {t : Table}
    (hn : t.doublingsLeft ≤ n) (h : t.WellFormed) (htidy : t.Tidy)
    (hroom : (t.load + entries.length) * 4 ≤ t.capacity * 3)
    (hentries : ∀ entry ∈ entries, entry.1 = keyTag entry.2 ∧ entry.2.length = t.config.keyLength) :
    Retains t (entries.foldl (putBack lookupHashed) t) (entries.map Prod.snd) := by
  induction entries generalizing t with
  | nil => exact .refl h (by simp)
  | cons entry rest ih =>
    rw [List.length_cons] at hroom
    obtain ⟨htag, hlength⟩ := hentries entry List.mem_cons_self
    have hext := extends_putBack faithful_lookupHashed h htag hlength
    have hfirst := retains_putBack hlook hn h htidy (hasRoom_iff.2 (by omega)) htag hlength
    -- the entry takes one of the places that were there for all
    have hload := hext.load_le h
    have hcap := capacity_mono hfirst.pow2_le
    rw [List.length_singleton] at hload
    refine hfirst.trans (ih ?_ hext.wellFormed (hext.tidy htidy) (by omega) fun entry he => ?_)
    · exact Nat.le_trans hfirst.doublingsLeft_le hn
    · rw [hext.config_eq]
      exact hentries entry (List.mem_cons_of_mem _ he)

/-- Growth retains every member. -/
theorem retains_growWith (hlook : RetainsUpTo n) (hn : t.doublingsLeft ≤ n + 1) (h : t.WellFormed) (hb : t.Bounded)
    (hlt : t.pow2 < t.config.maxPow2) : Retains t (growWith lookupHashed t) [] := by
  have hload := load_doubled h
  have hroom : (t.doubled.load + t.staged.length) * 4 ≤ t.doubled.capacity * 3 := by
    rw [hload, capacity_doubled]
    unfold Bounded at hb
    omega
  have hleft : t.doubled.doublingsLeft ≤ n := by
    rw [doublingsLeft_doubled]
    omega
  have hfold := retains_foldl_putBack hlook t.staged hleft (wellFormed_doubled h hlt) (tidy_doubled t) hroom fun _ =>
    h.of_mem_staged
  have hpow2 : t.pow2 < (t.staged.foldl (putBack lookupHashed) t.doubled).pow2 := hfold.pow2_le
  have hret : Retains t (t.staged.foldl (putBack lookupHashed) t.doubled) [] := by
    refine ⟨⟨hfold.config_eq, Nat.le_of_lt hpow2⟩, hfold.wellFormed, fun heq => ?_, fun key hk => ?_⟩
    · omega
    · exact hfold.mem_or_packed key ((mem_iff_doubled h key).1 (hk.elim id (by simp)))
  exact hret.with_counters _ _ _ _

/-- Growth leaves no tombstones. -/
theorem tidy_growWith (h : t.WellFormed) (hlt : t.pow2 < t.config.maxPow2) : (growWith lookupHashed t).Tidy :=
  (extends_foldl_putBack faithful_lookupHashed t.staged (wellFormed_doubled h hlt) fun _ => h.of_mem_staged).tidy
    (tidy_doubled t)

/-- A table that has grown has room, since it has twice the capacity for the same members. -/
theorem hasRoom_growWith (h : t.WellFormed) (hroom : t.hasRoom = true) (hlt : t.pow2 < t.config.maxPow2) :
    (growWith lookupHashed t).hasRoom = true := by
  have hload := load_growWith_le faithful_lookupHashed h hlt
  have hcap := capacity_growWith_le grows_lookupHashed t
  rw [hasRoom_iff] at hroom ⊢
  omega

end

/-! ## Lookup -/

/-- A lookup retains all members and its key if growth does where the walk of the key is packed. -/
theorem retains_lookupOr (h : t.WellFormed) (htidy : t.Tidy) (hroom : t.hasRoom = true)
    (hh : Fingerprint.tagOf hash = keyTag key) (hlength : key.length = t.config.keyLength)
    {grow : Table → Lookup × Table} (hgrow : t.probe key hash = .exhausted → Retains t (grow t).2 [key]) :
    Retains t (lookupOr grow t key hash).2 [key] := by
  unfold lookupOr
  split
  · rename_i hp
    have hk : key ∈ t := (h.mem_iff_probe hh).2 ⟨_, _, hp⟩
    exact .refl h fun other ho => by rw [List.mem_singleton.1 ho]; exact .inl hk
  · rename_i hp
    obtain ⟨-, -, htomb⟩ := probe_hit hh hp
    obtain ⟨hreach, hslot⟩ := htomb _ rfl
    exact absurd hslot (htidy _ hreach.lt)
  · rename_i hp
    rw [if_pos hroom]
    exact (retains_occupy h hh hlength hp).with_counters _ _ _ _
  · rename_i hp
    exact hgrow hp

/-- A lookup retains all members and its key, if there are no tombstones and the table has room. -/
theorem retains_lookupHashed (n : Nat) : RetainsUpTo n := by
  induction n with
  | zero =>
    intro t key hash hn h htidy hroom hh hlength
    have hleft : t.doublingsLeft = 0 := Nat.le_zero.1 hn
    have hmax := doublingsLeft_eq_zero_iff.1 hleft
    rw [lookupHashed_eq]
    refine retains_lookupOr h htidy hroom hh hlength fun hp => ?_
    rw [if_neg hmax]
    exact .refl h fun other ho => by
      rw [List.mem_singleton.1 ho]
      exact .inr (packed_of_exhausted h htidy hh hleft hp)
  | succ n ih =>
    intro t key hash hn h htidy hroom hh hlength
    by_cases hlt : t.pow2 < t.config.maxPow2
    · rw [lookupHashed_eq]
      refine retains_lookupOr h htidy hroom hh hlength fun _ => ?_
      rw [if_pos hlt]
      have hgrown := retains_growWith ih hn h (bounded_of_hasRoom hroom) hlt
      have hleft := doublingsLeft_growWith_le grows_lookupHashed t
      have hlength' : key.length = (growWith lookupHashed t).config.keyLength := by rw [hgrown.config_eq, hlength]
      exact hgrown.trans (ih _ key hash (by omega) hgrown.wellFormed (tidy_growWith h hlt)
        (hasRoom_growWith h hroom hlt) hh hlength')
    · have hleft := doublingsLeft_eq_zero_iff.2 hlt
      exact ih t key hash (by omega) h htidy hroom hh hlength

/-! ## Packed windows -/

/-- The slots of a window are different. -/
theorem nodup_window (capacity : Nat) (hash : UInt32) : (window capacity hash).Nodup := by
  unfold window
  refine List.Nodup.map_on (fun a ha b hb heq => ?_) List.nodup_range
  have ha := List.mem_range.1 ha
  have hb := List.mem_range.1 hb
  have hmod : a ≡ b [MOD min windowSlots capacity] := Nat.ModEq.add_left_cancel' _ (Nat.add_left_cancel heq)
  exact hmod.eq_of_lt_of_lt ha hb

theorem length_window (capacity : Nat) (hash : UInt32) : (window capacity hash).length = min windowSlots capacity := by
  simp [window]

/-- A walk begins with a whole window. -/
theorem mem_walk_of_mem_window {i : Nat} (h : i ∈ window t.capacity (keyTag key)) : i ∈ walk t.capacity key := by
  unfold walk windows
  rw [show probeAttempts = 63 + 1 from rfl, windowsFrom, List.flatten_cons]
  exact List.mem_append_left _ h

/-- A table that is packed for some key has at least a window full of members. -/
theorem Packed.window_le_load (h : t.Packed key) (hwf : t.WellFormed) : min windowSlots t.capacity ≤ t.load := by
  have hsub : (window t.capacity (keyTag key)).toFinset ⊆ t.occupied := by
    intro i hi
    obtain ⟨other, -, hs⟩ := h.occupied i (mem_walk_of_mem_window (List.mem_toFinset.1 hi))
    exact mem_occupied.2 ⟨other, hs⟩
  calc min windowSlots t.capacity = (window t.capacity (keyTag key)).length := (length_window _ _).symm
    _ = (window t.capacity (keyTag key)).toFinset.card := (List.toFinset_card_of_nodup (nodup_window _ _)).symm
    _ ≤ t.occupied.card := Finset.card_le_card hsub
    _ = t.load := hwf.load_eq.symm

/-! ## Stored tags -/

/-- A probe sees no more of a hash than its tag. -/
theorem probe_congr {hash' : UInt32} (h : Fingerprint.tagOf hash = Fingerprint.tagOf hash') (t : Table) (key : State) :
    t.probe key hash = t.probe key hash' := by
  unfold probe
  rw [h]

/-- The stored tag of an entry stands for the hash of its key. -/
theorem WellFormed.probe_of_mem_staged (h : t.WellFormed) {entry : UInt32 × State} (he : entry ∈ t.staged) (u : Table) :
    windowsFrom u.capacity entry.2 probeAttempts 0 (Fingerprint.tagOf entry.1) = windows u.capacity entry.2 ∧
      u.probe entry.2 entry.1 = u.probe entry.2 (Hash.ofState entry.2 0) := by
  have htag : Fingerprint.tagOf entry.1 = keyTag entry.2 := by rw [(h.of_mem_staged he).1, tagOf_keyTag]
  refine ⟨?_, probe_congr htag u entry.2⟩
  rw [htag]
  rfl

/-! ## Resizing -/

/-- No key is packed in a table of at most 32 slots that has grown: a window alone would take more members than three
quarters of half the slots. -/
theorem Packed.false_of_small (h : t'.Packed key) (hwf : t'.WellFormed) (hb : t.Bounded) (hload : t'.load ≤ t.load)
    (hcap : 2 * t.capacity ≤ t'.capacity) (hmax : t'.config.maxPow2 ≤ 5) : False := by
  have hwindow := h.window_le_load hwf
  have hsmall : t'.capacity ≤ 32 := by
    rw [capacity, Nat.one_shiftLeft]
    exact Nat.pow_le_pow_right (n := 2) (by decide) (Nat.le_trans hwf.pow2_le hmax)
  have hpos := t'.capacity_pos
  unfold Bounded at hb
  unfold windowSlots at hwindow
  omega

/-- **Growth on request loses no key but one that is packed.** A table below its largest capacity grows: it is
well-formed again, of the same geometry and of at least twice the capacity. It has no tombstones then, no key that was
no member, and every key that was one, unless the capacity is the largest now and every slot that the walk of the key
visits is occupied by another member. So the members are the same if the capacity is still below the largest, and always
if the largest has no more than 32 slots. Before and after, the members are the keys that are found.

Every entry that growth puts back, also when a growth happens within a growth, is looked up by its stored tag, and in
every table the walk and the probe of the tag are those of the hash of its key. -/
theorem resize_retains (h : t.Reachable) (hlt : t.capacity < t.config.maxCapacity) :
    t.resize.1 = true ∧ t.resize.2.WellFormed ∧ t.resize.2.config = t.config ∧
      2 * t.capacity ≤ t.resize.2.capacity ∧ t.resize.2.Tidy ∧ (∀ key ∈ t.resize.2, key ∈ t) ∧
      (∀ key ∈ t, key ∈ t.resize.2 ∨ t.resize.2.Packed key) ∧
      (t.resize.2.capacity < t.config.maxCapacity ∨ t.config.maxPow2 ≤ 5 → ∀ key, key ∈ t.resize.2 ↔ key ∈ t) ∧
      (∀ key, (t.hasKey key = true ↔ key ∈ t) ∧ (t.resize.2.hasKey key = true ↔ key ∈ t.resize.2)) ∧
      ∀ u : Table, u.WellFormed → ∀ entry ∈ u.staged, ∀ v : Table,
        windowsFrom v.capacity entry.2 probeAttempts 0 (Fingerprint.tagOf entry.1) = windows v.capacity entry.2 ∧
          v.probe entry.2 entry.1 = v.probe entry.2 (Hash.ofState entry.2 0) := by
  have hwf := h.wellFormed
  have hlt' := capacity_lt_max_iff.1 hlt
  have hgrown : t.resize = (true, growWith lookupHashed t) := by rw [resize_eq, if_pos hlt']
  have hext := extends_growWith faithful_lookupHashed hwf hlt'
  have hret := retains_growWith (retains_lookupHashed _) (Nat.le_succ _) hwf h.bounded hlt'
  rw [hgrown]
  have hmem : ∀ key ∈ growWith lookupHashed t, key ∈ t := fun key hk => (hext.mem_or key hk).elim id (by simp)
  have hcap := capacity_growWith_le grows_lookupHashed t
  refine ⟨rfl, hext.wellFormed, hext.config_eq, hcap, tidy_growWith hwf hlt', hmem,
    fun key hk => hret.mem_or_packed key (.inl hk), fun hsmall key => ?_,
    fun key => ⟨hwf.hasKey_iff, hext.wellFormed.hasKey_iff⟩, fun u hu entry he v => hu.probe_of_mem_staged he v⟩
  refine ⟨hmem key, fun hk => (hret.mem_or_packed key (.inl hk)).resolve_right fun hpacked => ?_⟩
  rcases hsmall with hsmall | hsmall
  · have hmax := capacity_eq_of_doublingsLeft hext.wellFormed.toGeometry hpacked.doublingsLeft_eq
    rw [hext.config_eq] at hmax
    exact absurd hmax (Nat.ne_of_lt hsmall)
  · exact hpacked.false_of_small hext.wellFormed h.bounded (load_growWith_le faithful_lookupHashed hwf hlt') hcap
      (by rwa [hext.config_eq])

/-- Two members and two tombstones in four slots; both members have to move. -/
def unsettled : Table :=
  ((empty ⟨1, 2, 6⟩).run [.insert [2], .insert [3], .insert [7], .remove [2], .insert [10], .remove [3]]).2

theorem resize_retains_unsettled : Table.create ⟨1, 2, 6⟩ = .ok (empty ⟨1, 2, 6⟩) ∧
    unsettled.capacity < unsettled.config.maxCapacity ∧ unsettled.tombstones = 2 ∧ unsettled.staged.length = 2 ∧
    unsettled.resize.2.Tidy ∧ (∀ key, key ∈ unsettled.resize.2 ↔ key ∈ unsettled) ∧
    ∀ key, unsettled.resize.2.hasKey key = unsettled.hasKey key := by
  have hc : Table.create ⟨1, 2, 6⟩ = .ok (empty ⟨1, 2, 6⟩) := by decide
  have hlt : unsettled.capacity < unsettled.config.maxCapacity := by decide +kernel
  have hstill : unsettled.resize.2.capacity < unsettled.config.maxCapacity := by decide +kernel
  have hreach : unsettled.Reachable := (Reachable.create hc).run _
  obtain ⟨-, -, -, -, htidy, -, -, hsame, hfinds, -⟩ := resize_retains hreach hlt
  refine ⟨hc, hlt, by decide +kernel, by decide +kernel, htidy, hsame (.inl hstill), fun key => ?_⟩
  rw [Bool.eq_iff_iff, (hfinds key).1, (hfinds key).2]
  exact hsame (.inl hstill) key

end StateSpace.Table
