import StateSpace.Proofs.Table.Resizing

/-!
# The probes of a lookup

A lookup probes once and, if it leaves its key to growth, many times more: growth probes for every entry that it puts
back, looks up those that it finds no place for, and then the lookup begins again. The probes that a lookup makes in all
are those that its first probe leads to (`Inquiry.Leads`).

All of them are probes of well-formed and bounded tables with no more members than there were at first (`Leads.within`).
If none of them uses up all its attempts at the largest capacity, the lookup drops no key, and refuses its own for the
load bound alone (`keeps_of_decided`). In small tables, and in tables with fewer members than a window has slots, there
is no such probe (`Leads.decided_of_small`).
-/

namespace StateSpace.Table

/-! ## On the way of a growth -/

section

variable {t : Table} {n : Nat}

theorem follows_midway (t : Table) (n : Nat) : Follows t.doubled (t.midway n) :=
  follows_foldl_putBack grows_lookupHashed _ _

/-- While an entry waits to be put back, the table holds fewer members than before the growth. -/
theorem load_midway_lt (h : t.WellFormed) (hlt : t.pow2 < t.config.maxPow2) (hn : n < t.staged.length) :
    (t.midway n).load < t.load := by
  have hload := (extends_midway h hlt n).load_le (wellFormed_doubled h hlt)
  have htaken := load_doubled h
  rw [List.length_map, List.length_take, Nat.min_eq_left (Nat.le_of_lt hn)] at hload
  omega

/-- So there is room for the entry. -/
theorem hasRoom_midway (h : t.WellFormed) (hb : t.Bounded) (hlt : t.pow2 < t.config.maxPow2)
    (hn : n < t.staged.length) : (t.midway n).hasRoom = true := by
  have hload := load_midway_lt h hlt hn
  have hcap := capacity_mono (follows_midway t n).pow2_le
  rw [capacity_doubled] at hcap
  rw [hasRoom_iff]
  unfold Bounded at hb
  omega

end

/-! ## Probes that follow from probes -/

/-- A probe of a table for a key with the given hash. -/
structure Inquiry where
  table : Table
  key : State
  hash : UInt32

namespace Inquiry

def answer (q : Inquiry) : Probe := q.table.probe q.key q.hash

/-- The lookup that begins with the probe. -/
def lookup (q : Inquiry) : Lookup × Table := q.table.lookupHashed q.key q.hash

/-- The lookup that begins with the probe leaves the key to growth. -/
def Doubles (q : Inquiry) : Prop :=
  q.table.pow2 < q.table.config.maxPow2 ∧
    (q.answer = .exhausted ∨ q.table.hasRoom = false ∧ ∃ slot onTombstone, q.answer = .vacant slot onTombstone)

/-- The probe for an entry that growth puts back, after `n` others. -/
def ofEntry (t : Table) (n : Nat) (entry : UInt32 × State) : Inquiry := ⟨t.midway n, entry.2, entry.1⟩

/-- The probe with which a lookup begins again when the table has grown. -/
def grown (q : Inquiry) : Inquiry := ⟨growWith lookupHashed q.table, q.key, q.hash⟩

/-- The lookup that begins with the first probe makes the second. -/
inductive Leads : Inquiry → Inquiry → Prop
  | first (q : Inquiry) : Leads q q
  /-- Growth probes for an entry that it puts back. -/
  | putBack {q : Inquiry} {n : Nat} {entry : UInt32 × State} :
      q.Doubles → q.table.staged[n]? = some entry → Leads q (ofEntry q.table n entry)
  /-- An entry for which growth finds no place is looked up. -/
  | nested {q r : Inquiry} {n : Nat} {entry : UInt32 × State} :
      q.Doubles → q.table.staged[n]? = some entry →
      (∀ slot onTombstone, (ofEntry q.table n entry).answer ≠ .vacant slot onTombstone) →
      Leads (ofEntry q.table n entry) r → Leads q r
  /-- The lookup begins again. -/
  | again {q r : Inquiry} : q.Doubles → Leads q.grown r → Leads q r

/-- The probe is not one that uses up all its attempts at the largest capacity. -/
def Decided (q : Inquiry) : Prop := q.table.capacity = q.table.config.maxCapacity → q.answer ≠ .exhausted

/-! ## What holds of all probes -/

/-- The probe is for a key of the right length under its own tag, in a table as operations leave it. -/
structure Sound (q : Inquiry) : Prop where
  wellFormed : q.table.WellFormed
  bounded : q.table.Bounded
  tag_eq : Fingerprint.tagOf q.hash = keyTag q.key
  length_eq : q.key.length = q.table.config.keyLength

/-- The table of the second probe comes from that of the first, and holds no more members. -/
structure Within (q r : Inquiry) : Prop where
  sound : r.Sound
  config_eq : r.table.config = q.table.config
  load_le : r.table.load ≤ q.table.load
  tidy : q.table.Tidy → r.table.Tidy

theorem Within.refl {q : Inquiry} (h : q.Sound) : Within q q := ⟨h, rfl, Nat.le_refl _, id⟩

theorem Within.trans {q r s : Inquiry} (h : Within q r) (h' : Within r s) : Within q s :=
  ⟨h'.sound, h'.config_eq.trans h.config_eq, Nat.le_trans h'.load_le h.load_le, h'.tidy ∘ h.tidy⟩

section

variable {q r : Inquiry} {n : Nat} {entry : UInt32 × State}

theorem within_ofEntry (h : q.Sound) (hd : q.Doubles) (he : q.table.staged[n]? = some entry) :
    Within q (ofEntry q.table n entry) := by
  obtain ⟨hn, -⟩ := List.getElem?_eq_some_iff.1 he
  obtain ⟨htag, hlength⟩ := h.wellFormed.of_mem_staged (List.mem_of_getElem? he)
  have hext := extends_midway h.wellFormed hd.1 n
  have hbounded := bounded_midway h.wellFormed h.bounded hd.1 n
  refine ⟨⟨hext.wellFormed, hbounded, ?_, ?_⟩, hext.config_eq, ?_, fun _ => hext.tidy (tidy_doubled _)⟩
  · show Fingerprint.tagOf entry.1 = keyTag entry.2
    rw [htag, tagOf_keyTag]
  · show entry.2.length = (q.table.midway n).config.keyLength
    rw [hext.config_eq]
    exact hlength
  · exact Nat.le_of_lt (load_midway_lt h.wellFormed hd.1 hn)

theorem within_grown (h : q.Sound) (hd : q.Doubles) : Within q q.grown := by
  have hext := extends_growWith faithful_lookupHashed h.wellFormed hd.1
  have hbounded := bounded_growWith faithful_lookupHashed grows_lookupHashed h.wellFormed h.bounded hd.1
  refine ⟨⟨hext.wellFormed, hbounded, h.tag_eq, ?_⟩, hext.config_eq, ?_, fun _ => tidy_growWith h.wellFormed hd.1⟩
  · show q.key.length = (growWith lookupHashed q.table).config.keyLength
    rw [hext.config_eq]
    exact h.length_eq
  · exact load_growWith_le faithful_lookupHashed h.wellFormed hd.1

theorem Leads.within (hleads : q.Leads r) (h : q.Sound) : Within q r := by
  induction hleads with
  | first q => exact .refl h
  | putBack hd he => exact within_ofEntry h hd he
  | nested hd he _ _ ih =>
    have hentry := within_ofEntry h hd he
    exact hentry.trans (ih hentry.sound)
  | again hd _ ih =>
    have hgrown := within_grown h hd
    exact hgrown.trans (ih hgrown.sound)

/-- The walk of a key begins with a window of the table, and an exhausted probe has met members only. A table within
its load bound is not full, so the window has 16 slots, and the table as many members. -/
theorem decided_of_tidy (h : q.Sound) (htidy : q.table.Tidy)
    (hsmall : q.table.config.maxPow2 ≤ 4 ∨ q.table.load < windowSlots) : q.Decided := by
  intro hcap hp
  have hleft : q.table.doublingsLeft = 0 := by
    rw [doublingsLeft_eq_zero_iff, ← capacity_lt_max_iff]
    exact Nat.not_lt.2 (Nat.le_of_eq hcap.symm)
  have hwindow := (packed_of_exhausted h.wellFormed htidy h.tag_eq hleft hp).window_le_load h.wellFormed
  have hbounded := h.bounded
  have hpos := q.table.capacity_pos
  have hsixteen : q.table.config.maxPow2 ≤ 4 → q.table.capacity ≤ windowSlots := fun hle => by
    rw [hcap, Config.maxCapacity, Nat.one_shiftLeft]
    exact Nat.pow_le_pow_right (n := 2) (by decide) hle
  unfold Bounded at hbounded
  omega

/-- In small tables, and in tables with fewer members than a window has slots, all probes of a lookup are decided. -/
theorem Leads.decided_of_small (hleads : q.Leads r) (h : q.Sound) (htidy : q.table.Tidy)
    (hsmall : q.table.config.maxPow2 ≤ 4 ∨ q.table.load < windowSlots) : r.Decided := by
  have hwithin := hleads.within h
  refine decided_of_tidy hwithin.sound (hwithin.tidy htidy) ?_
  rw [hwithin.config_eq]
  exact hsmall.imp_right (Nat.lt_of_le_of_lt hwithin.load_le)

/-! ## Lookups -/

/-- The lookup drops no key, and refuses its own for the load bound alone. -/
structure Keeps (q : Inquiry) : Prop where
  dropped_eq : q.lookup.2.dropped = q.table.dropped
  noRoom : q.lookup.1 = .full → q.lookup.2.hasRoom = false

/-- Lookups with at most `n` doublings left keep all keys, if all their probes are decided. -/
def KeepsUpTo (n : Nat) : Prop :=
  ∀ q : Inquiry, q.table.doublingsLeft ≤ n → q.Sound → (∀ r, q.Leads r → r.Decided) → q.Keeps

theorem lookup_of_doubles (hd : q.Doubles) : q.lookup = q.grown.lookup := by
  obtain ⟨hlt, hp⟩ := hd
  unfold answer at hp
  unfold lookup
  rw [lookupHashed_eq, lookupOr]
  rcases hp with hp | ⟨hroom, slot, onTombstone, hp⟩
  · rw [hp]
    exact if_pos hlt
  · rw [hp, hroom]
    exact if_pos hlt

theorem keeps_of_eq {answer : Lookup} {t : Table} (heq : q.lookup = (answer, t)) (hd : t.dropped = q.table.dropped)
    (hroom : answer = .full → t.hasRoom = false) : q.Keeps :=
  ⟨by rw [heq, hd], by rwa [heq]⟩

/-- A lookup that does not leave its key to growth keeps all keys, if its probe is decided. -/
theorem keeps_of_not_doubles (hd : ¬ q.Doubles) (h : q.Sound) (hdecided : q.Decided) : q.Keeps := by
  have hlookup : q.lookup = _ := lookupHashed_eq q.table q.key q.hash
  unfold lookupOr at hlookup
  cases hp : q.answer with
  | hit slot tombstone =>
    rw [show q.table.probe q.key q.hash = _ from hp] at hlookup
    cases tombstone <;> exact keeps_of_eq hlookup rfl (by simp)
  | vacant slot onTombstone =>
    rw [show q.table.probe q.key q.hash = _ from hp] at hlookup
    by_cases hroom : q.table.hasRoom = true
    · exact keeps_of_eq (hlookup.trans (if_pos hroom)) rfl (by simp)
    · have hlt : ¬ q.table.pow2 < q.table.config.maxPow2 := fun hlt =>
        hd ⟨hlt, .inr ⟨Bool.eq_false_iff.2 hroom, slot, onTombstone, hp⟩⟩
      refine keeps_of_eq (hlookup.trans ((if_neg hroom).trans (if_neg hlt))) rfl fun _ => ?_
      exact Bool.eq_false_iff.2 hroom
  | exhausted =>
    have hlt : ¬ q.table.pow2 < q.table.config.maxPow2 := fun hlt => hd ⟨hlt, .inl hp⟩
    have hleft := doublingsLeft_eq_zero_iff.2 hlt
    exact absurd hp (hdecided (capacity_eq_of_doublingsLeft h.wellFormed.toGeometry hleft))

/-- Growth has room for an entry that it puts back, so it drops none as long as lookups keep all keys. -/
theorem dropped_putBack (hkeep : KeepsUpTo n) (hn : r.table.doublingsLeft ≤ n) (h : r.Sound)
    (hroom : r.table.hasRoom = true)
    (hdecided : (∀ slot onTombstone, r.answer ≠ .vacant slot onTombstone) → ∀ s, r.Leads s → s.Decided) :
    (putBack lookupHashed r.table (r.hash, r.key)).dropped = r.table.dropped := by
  unfold putBack
  split
  · rfl
  · rename_i hp
    have hkeeps := hkeep r hn h (hdecided hp)
    have hext := (looked_lookupHashed h.wellFormed h.tag_eq h.length_eq).extends_
    have hcap := capacity_mono (grows_lookupHashed r.table r.key r.hash).pow2_le
    split
    · rename_i t heq
      have hlookup : r.lookup = (.full, t) := heq
      have hfull := hkeeps.noRoom (by rw [hlookup])
      rw [hlookup] at hfull
      rw [heq] at hext hcap
      dsimp only at hfull hext hcap
      -- a lookup without success adds no member, so the room is still there
      have hload : t.load ≤ r.table.load := hext.load_le h.wellFormed
      have hstill : t.hasRoom = true := by
        rw [hasRoom_iff] at hroom ⊢
        omega
      rw [hstill] at hfull
      contradiction
    · rename_i answer t hne heq
      have hlookup : r.lookup = (answer, t) := heq
      have hdropped := hkeeps.dropped_eq
      rwa [hlookup] at hdropped

/-- On its way a growth drops no key. -/
theorem dropped_midway (hkeep : KeepsUpTo n) (hn : q.table.doublingsLeft ≤ n + 1) (h : q.Sound) (hd : q.Doubles)
    (hdecided : ∀ r, q.Leads r → r.Decided) {k : Nat} (hk : k ≤ q.table.staged.length) :
    (q.table.midway k).dropped = q.table.dropped := by
  induction k with
  | zero => rfl
  | succ k ih =>
    obtain ⟨entry, he⟩ : ∃ entry, q.table.staged[k]? = some entry := ⟨_, List.getElem?_eq_getElem hk⟩
    have hwithin := within_ofEntry h hd he
    have hnext : q.table.midway (k + 1) = putBack lookupHashed (q.table.midway k) entry := by
      unfold midway
      rw [List.take_add_one, he, Option.toList_some, List.foldl_append]
      rfl
    have hleft : (q.table.midway k).doublingsLeft ≤ n := by
      have hle := (follows_midway q.table k).doublingsLeft_le
      rw [doublingsLeft_doubled] at hle
      omega
    have hroom := hasRoom_midway h.wellFormed h.bounded hd.1 hk
    rw [hnext, ← ih (Nat.le_of_lt hk)]
    exact dropped_putBack (r := ofEntry q.table k entry) hkeep hleft hwithin.sound hroom fun hne r hr =>
      hdecided r (.nested hd he hne hr)

theorem keepsUpTo (n : Nat) : KeepsUpTo n := by
  induction n with
  | zero =>
    intro q hn h hdecided
    refine keeps_of_not_doubles (fun hd => ?_) h (hdecided q (.first q))
    exact doublingsLeft_eq_zero_iff.1 (Nat.le_zero.1 hn) hd.1
  | succ n ih =>
    intro q hn h hdecided
    by_cases hd : q.Doubles
    · have hleft : q.grown.table.doublingsLeft ≤ n := by
        have hle := doublingsLeft_growWith_le grows_lookupHashed q.table
        exact Nat.le_trans hle (by omega)
      have hkeeps := ih q.grown hleft (within_grown h hd).sound fun r hr => hdecided r (.again hd hr)
      have hdropped : q.grown.table.dropped = q.table.dropped := by
        show (growWith lookupHashed q.table).dropped = q.table.dropped
        rw [growWith_eq_midway]
        exact dropped_midway ih hn h hd hdecided (Nat.le_refl _)
      have hlookup : q.lookup = (q.grown.lookup.1, q.grown.lookup.2) := lookup_of_doubles hd
      exact keeps_of_eq hlookup (hkeeps.dropped_eq.trans hdropped) hkeeps.noRoom
    · exact keeps_of_not_doubles hd h (hdecided q (.first q))

/-- A lookup all of whose probes are decided drops no key, and refuses its own for the load bound alone. -/
theorem keeps_of_decided (h : q.Sound) (hdecided : ∀ r, q.Leads r → r.Decided) : q.Keeps :=
  keepsUpTo _ q (Nat.le_refl _) h hdecided

end

end Inquiry

end StateSpace.Table
