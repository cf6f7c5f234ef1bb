import StateSpace.Proofs.Table.Staging

/-!
# No operation faults

A lookup at the present capacity ends without a fault: the probe gives slots in use, and the slot that an entry is
written to has none (`performs_attempt`). Growth puts the entries back by lookups on a table of twice the capacity, so
that lookup and growth end without a fault is shown from the same on tables with fewer doublings left (`LooksUpTo`).
The other operations make a single probe, or none (`performs_perform`).

A table is made with two arrays, whose sizes are products. One of them may be no machine word, if keys are so long that
no memory holds them; `create`, which counts without a limit, then refuses, and making the table faults (`make_exact`).

So all that operations do to the storage of a table is what they do to the table, and the only fault is that of a key of
the wrong length, which is found before anything has changed (`perform_exact`).
-/

namespace StateSpace.Table

open Access

variable {t : Table} {config : Config} {key : State} {hash : UInt32}

/-! ## Lookups without growth -/

/-- The place that is found for a key has no entry. -/
theorem free_of_vacant (hh : Fingerprint.tagOf hash = keyTag key) {i : Nat} {onTombstone : Bool}
    (hp : t.probe key hash = .vacant i onTombstone) :
    t.Reaches key i ∧ ∀ tag key', t.slot i ≠ .entry tag key' := by
  obtain ⟨hreach, hslot, -⟩ := probe_vacant hh hp
  refine ⟨hreach, ?_⟩
  rw [hslot]
  cases onTombstone <;> simp

section

variable (hc : t.config = config) (h : t.WellFormed) (hh : Fingerprint.tagOf hash = keyTag key)
  (hlength : key.length = config.keyLength)

include hc h

theorem performs_occupy (hlength : key.length = config.keyLength) (hash : UInt32) {i : Nat} (hi : i < t.capacity)
    (hfree : ∀ tag key, t.slot i ≠ .entry tag key) :
    Performs t (config.occupy i key hash) () (t.occupy i key hash) := by
  refine (performs_write hc (lt_maxCapacity hc h hi) hfree hlength).bind ?_
  refine performs_modify _ rfl rfl (fun _ => rfl) (fun _ => rfl) fun l hl => ?_
  rw [hl]
  rfl

include hh hlength

/-- A lookup finds the key, or stores it, or leaves it to growth. -/
theorem performs_attempt (grow : Table → Lookup × Table) :
    Performs t (config.attempt key hash) none t ∧ lookupOr grow t key hash = grow t ∨
      Performs t (config.attempt key hash) (some (lookupOr grow t key hash).1) (lookupOr grow t key hash).2 := by
  have hprobe := performs_probe hc h key hash
  unfold Config.attempt
  cases hp : t.probe key hash with
  | exhausted =>
    rw [hp] at hprobe
    exact .inl ⟨hprobe.bind performs_pure, by rw [lookupOr, hp]⟩
  | hit i tombstone =>
    rw [hp] at hprobe
    cases tombstone with
    | none =>
      have hlook : lookupOr grow t key hash = (.found, t) := by rw [lookupOr, hp]
      rw [hlook]
      exact .inr (hprobe.bind performs_pure)
    | some j =>
      have hlook : lookupOr grow t key hash = (.found, t.relocate i j) := by rw [lookupOr, hp]
      obtain ⟨hi, hreach, hj⟩ := movable_of_hit hh hp
      have hslot := h.slot_eq hi
      have hmax := lt_maxCapacity hc h hi.1
      have hfree : ∀ tag key, t.slot j ≠ .entry tag key := by simp [hj]
      rw [hlook]
      refine .inr (hprobe.bind ?_)
      refine (performs_copyEntry hc hmax (lt_maxCapacity hc h hreach.lt) hslot hfree hlength).bind ?_
      have hleave : Performs (t.setSlot j (.entry (keyTag key) key)) (Layout.setFingerprint i .tombstone) ()
          ((t.setSlot j (.entry (keyTag key) key)).setSlot i .tombstone) :=
        performs_setFingerprint (t := t.setSlot j _) hc hmax (s := .tombstone) (by simp)
      have hcount : Performs ((t.setSlot j (.entry (keyTag key) key)).setSlot i .tombstone)
          (modify fun s => { s with relocations := s.relocations + 1 }) () (t.relocate i j) := by
        refine performs_modify _ rfl ?_ (fun _ => rfl) (fun _ => rfl) fun l hl => ?_
        · simp only [relocate, hslot, setSlot]
        · rw [hl]
          rfl
      exact hleave.bind (hcount.bind performs_pure)
  | vacant i onTombstone =>
    rw [hp] at hprobe
    obtain ⟨hreach, hfree⟩ := free_of_vacant hh hp
    by_cases hroom : t.hasRoom = true
    · have hlook : lookupOr grow t key hash = (.inserted, t.insertAt i onTombstone key hash) := by
        simp only [lookupOr, hp, if_pos hroom]
      rw [hlook]
      refine .inr (hprobe.bind (ends_get fun l hl => ?_))
      rw [hl.capacity_eq, hl.load_eq, if_pos (hasRoom_iff.1 hroom)]
      have hcount : Performs t (modify fun s => { s with reclaimed := s.reclaimed + onTombstone.toNat }) ()
          { t with reclaimed := t.reclaimed + onTombstone.toNat } := by
        refine performs_modify _ rfl rfl (fun _ => rfl) (fun _ => rfl) fun l hl => ?_
        rw [hl]
        rfl
      have hoccupy := performs_occupy (t := { t with reclaimed := t.reclaimed + onTombstone.toNat }) hc
        (h.with_counters _ _ _ _) hlength hash hreach.lt hfree
      exact hcount.bind (hoccupy.bind performs_pure)
    · refine .inl ⟨hprobe.bind (ends_get fun l hl => ?_), by simp only [lookupOr, hp, if_neg hroom]⟩
      rw [hl.capacity_eq, hl.load_eq, if_neg (mt hasRoom_iff.2 hroom)]
      exact performs_pure

end

/-! ## Lookup and growth -/

/-- On tables with at most `n` doublings left, the recursion ends without a fault, with the result of the lookup. -/
def LooksUpTo (config : Config) (n : Nat) : Prop :=
  ∀ (t : Table) (key : State) (hash : UInt32), t.config = config → t.WellFormed →
    Fingerprint.tagOf hash = keyTag key → key.length = config.keyLength → t.doublingsLeft ≤ n →
    Performs t (config.lookup key hash) (t.lookupHashed key hash).1 (t.lookupHashed key hash).2

section

variable {n : Nat} (hc : t.config = config) (h : t.WellFormed)

include hc h

theorem performs_putBack (hlook : LooksUpTo config n) (hn : t.doublingsLeft ≤ n)
    (hh : Fingerprint.tagOf hash = keyTag key) (hlength : key.length = config.keyLength) :
    Performs t (config.putBack key hash) () (putBack lookupHashed t (hash, key)) := by
  have hprobe := performs_probe hc h key hash
  have hlooked := hlook t key hash hc h hh hlength hn
  rw [Config.putBack]
  unfold putBack
  cases hp : t.probe key hash with
  | vacant i onTombstone =>
    rw [hp] at hprobe
    obtain ⟨hreach, hfree⟩ := free_of_vacant hh hp
    exact hprobe.bind (performs_occupy hc h hlength hash hreach.lt hfree)
  | hit | exhausted =>
    rw [hp] at hprobe
    refine hprobe.bind (hlooked.bind (performs_pure.alike ?_))
    generalize t.lookupHashed key hash = r
    obtain ⟨answer, t'⟩ := r
    cases answer <;> exact ⟨rfl, rfl, fun _ => rfl, rfl⟩

/-- The entries are put back one by one; the words of those that are left stand behind the words of `k` others. -/
theorem performs_forM_putBack (hlook : LooksUpTo config n) (hn : t.doublingsLeft ≤ n) {staging : Staging}
    (rest : List (UInt32 × State))
    (hrest : ∀ entry ∈ rest, entry.1 = keyTag entry.2 ∧ entry.2.length = config.keyLength) {front : List Int32}
    {k : Nat} (hwords : staging.words.toList = front ++ rest.flatMap Prod.snd)
    (hfront : front.length = k * config.keyLength) :
    Performs t (((rest.map Prod.fst).zipIdx k).forM fun entry => do
        let key ← config.stagedKey staging entry.2
        config.putBack key entry.1) () (rest.foldl (putBack lookupHashed) t) := by
  induction rest generalizing t front k with
  | nil => exact performs_pure
  | cons entry rest ih =>
    obtain ⟨⟨htag, hlength⟩, hrest⟩ := List.forall_mem_cons.1 hrest
    have hext := extends_putBack faithful_lookupHashed h htag (hc ▸ hlength)
    have hle := (follows_putBack grows_lookupHashed t entry).doublingsLeft_le
    have hh : Fingerprint.tagOf entry.1 = keyTag entry.2 := by rw [htag, tagOf_keyTag]
    rw [List.flatMap_cons, ← List.append_assoc] at hwords
    have hkey : Performs t (config.stagedKey staging k) entry.2 t := by
      have hslice := slice_eq_of_toList hwords
      have hsize := congrArg List.length hwords
      simp only [List.length_append, Array.length_toList] at hsize
      rw [hfront, hlength] at hslice
      exact hslice ▸ ends_range (by omega)
    have hfirst : Performs t (do
        let key ← config.stagedKey staging k
        config.putBack key entry.1) () (putBack lookupHashed t entry) :=
      hkey.bind (performs_putBack hc h hlook hn hh hlength)
    refine hfirst.bind (ih (hext.config_eq.trans hc) hext.wellFormed (Nat.le_trans hle hn) hrest hwords ?_)
    rw [List.length_append, hfront, hlength, Nat.succ_mul]

omit h in
theorem performs_resize_of_largest (hmax : ¬ t.pow2 < t.config.maxPow2) : Performs t config.resize false t := by
  rw [Config.resize]
  refine ends_get fun l hl => ?_
  rw [hl.capacity_eq, if_pos (hc ▸ Nat.not_lt.1 (mt capacity_lt_max_iff.1 hmax))]
  exact performs_pure

/-- Growth doubles the capacity and puts everything back. -/
theorem performs_growth (hlook : LooksUpTo config n) (hn : t.doublingsLeft ≤ n + 1)
    (hlt : t.pow2 < t.config.maxPow2) : Performs t config.resize true (growWith lookupHashed t) := by
  subst hc
  have hleft : t.doubled.doublingsLeft ≤ n := by
    rw [doublingsLeft_doubled]
    omega
  have hentries : ∀ entry ∈ t.staged, entry.1 = keyTag entry.2 ∧ entry.2.length = t.config.keyLength :=
    fun entry => h.of_mem_staged
  have hwords : (Staging.of t.staged).words.toList = [] ++ t.staged.flatMap Prod.snd := rfl
  have hback := performs_forM_putBack rfl (wellFormed_doubled h hlt) hlook hleft t.staged hentries hwords
    (Nat.zero_mul _).symm
  have hcount : Performs (t.staged.foldl (putBack lookupHashed) t.doubled)
      (modify fun s => { s with resizes := s.resizes + 1 }) () (growWith lookupHashed t) := by
    refine performs_modify _ rfl rfl (fun _ => rfl) (fun _ => rfl) fun l hl => ?_
    rw [hl]
    rfl
  rw [Config.resize]
  refine ends_get fun l hl => ?_
  rw [hl.capacity_eq, if_neg (Nat.not_le.2 (capacity_lt_max_iff.2 hlt))]
  exact (performs_double rfl h hlt).bind (hback.bind (hcount.bind performs_pure))

theorem performs_resize (hlook : LooksUpTo config n) (hn : t.doublingsLeft ≤ n + 1) :
    Performs t config.resize t.resize.1 t.resize.2 := by
  rw [resize_eq]
  split
  · rename_i hlt
    exact performs_growth hc h hlook hn hlt
  · rename_i hmax
    exact performs_resize_of_largest hc hmax

end

/-- A lookup ends without a fault if growth does, and what comes after it. -/
theorem performs_lookup_of_grow (hc : t.config = config) (h : t.WellFormed) (hh : Fingerprint.tagOf hash = keyTag key)
    (hlength : key.length = config.keyLength) {grow : Table → Lookup × Table}
    (hgrow : Performs t (do if ← config.resize then config.lookup key hash else return .full) (grow t).1 (grow t).2) :
    Performs t (config.lookup key hash) (lookupOr grow t key hash).1 (lookupOr grow t key hash).2 := by
  rw [Config.lookup]
  rcases performs_attempt hc h hh hlength grow with ⟨hattempt, heq⟩ | hattempt
  · rw [heq]
    exact hattempt.bind hgrow
  · exact hattempt.bind performs_pure

theorem looks_lookup (config : Config) (n : Nat) : LooksUpTo config n := by
  induction n with
  | zero =>
    intro t key hash hc h hh hlength hn
    have hmax := doublingsLeft_eq_zero_iff.1 (Nat.le_zero.1 hn)
    rw [lookupHashed_eq]
    refine performs_lookup_of_grow hc h hh hlength ?_
    rw [if_neg hmax]
    exact (performs_resize_of_largest hc hmax).bind performs_pure
  | succ n ih =>
    intro t key hash hc h hh hlength hn
    by_cases hlt : t.pow2 < t.config.maxPow2
    · have hext := extends_growWith faithful_lookupHashed h hlt
      have hleft := doublingsLeft_growWith_le grows_lookupHashed t
      have hagain := ih (growWith lookupHashed t) key hash (hext.config_eq.trans hc) hext.wellFormed hh hlength
        (by omega)
      rw [lookupHashed_eq]
      refine performs_lookup_of_grow hc h hh hlength ?_
      rw [if_pos hlt]
      exact (performs_growth hc h ih hn hlt).bind hagain
    · have hleft := doublingsLeft_eq_zero_iff.2 hlt
      exact ih t key hash hc h hh hlength (by omega)

/-! ## Operations -/

section

variable (hc : t.config = config) (h : t.WellFormed)

include hc h

theorem performs_lookupOrInsert (hlength : key.length = config.keyLength) :
    Performs t (config.lookupOrInsert key) (t.lookupKey key).1 (t.lookupKey key).2 := by
  have hlook := looks_lookup config t.doublingsLeft t key (Hash.ofState key 0) hc h rfl hlength (Nat.le_refl _)
  unfold Config.lookupOrInsert Config.checkKey
  rw [if_neg (not_not.2 hlength)]
  exact performs_pure.bind hlook

theorem performs_contains (hlength : key.length = config.keyLength) :
    Performs t (config.contains key) (t.hasKey key) t := by
  have hprobe := performs_probe hc h key (Hash.ofState key 0)
  unfold Config.contains Config.checkKey hasKey
  rw [if_neg (not_not.2 hlength)]
  refine performs_pure.bind (hprobe.bind ?_)
  cases t.probe key (Hash.ofState key 0) <;> exact performs_pure

theorem performs_remove (hlength : key.length = config.keyLength) :
    Performs t (config.remove key) (t.removeKey key).1 (t.removeKey key).2 := by
  have hprobe := performs_probe hc h key (Hash.ofState key 0)
  unfold Config.remove Config.checkKey removeKey
  rw [if_neg (not_not.2 hlength)]
  refine performs_pure.bind (hprobe.bind ?_)
  cases hp : t.probe key (Hash.ofState key 0) with
  | hit i tombstone =>
    obtain ⟨hreach, hslot, -⟩ := probe_hit rfl hp
    have hload : 0 < t.load := by
      rw [h.load_eq]
      exact Finset.card_pos.2 ⟨i, mem_occupied.2 ⟨key, hreach.lt, _, hslot⟩⟩
    have hleave := performs_setFingerprint (t := t) hc (lt_maxCapacity hc h hreach.lt) (s := .tombstone) (by simp)
    exact hleave.bind ((performs_unload (t := t.setSlot i .tombstone) hload).bind performs_pure)
  | vacant | exhausted => exact performs_pure

end

theorem slot_clear_eq (t : Table) (i : Nat) :
    t.clear.slot i = if i < t.config.initialCapacity then .empty else t.slot i := by
  simp only [clear, slot, Array.getD_eq_getD_getElem?, getElem?_updateBelow]
  split
  · cases t.slots[i]? <;> rfl
  · rfl

/-- Clearing needs a good geometry, and nothing of the slots. -/
theorem performs_clear (hc : t.config = config) (hvalid : config.validate = .ok ()) :
    Performs t config.clear () t.clear := by
  have hle : config.initialCapacity ≤ config.maxCapacity := by
    unfold Config.initialCapacity Config.maxCapacity
    rw [Nat.one_shiftLeft, Nat.one_shiftLeft]
    exact Nat.pow_le_pow_right Nat.two_pos (Nat.le_of_lt (initial_lt_of_validate hvalid))
  let reset : Table :=
    { t with pow2 := t.config.initialPow2, load := 0, resizes := 0, relocations := 0, reclaimed := 0 }
  have hreset : Performs t (modify fun s =>
      { s with capacity := config.initialCapacity, load := 0, resizes := 0, relocations := 0, reclaimed := 0 }) ()
      reset :=
    performs_modify _ rfl rfl (fun _ => rfl) (fun _ => rfl) fun _ _ => hc ▸ rfl
  refine hreset.bind ((performs_clearRange (t := reset) hc 0 hle).alike ?_)
  obtain ⟨hconfig, hsize, hcounters, hslot⟩ := alike_emptied reset (List.range' 0 (config.initialCapacity - 0))
  refine ⟨hconfig.symm, ?_, fun i => ?_, hcounters.symm⟩
  · rw [hsize]
    exact size_updateBelow ..
  · rw [hslot, slot_clear_eq, hc]
    simp only [List.mem_range'_1, Nat.zero_le, true_and, Nat.zero_add, Nat.sub_zero]
    rfl

/-! ## Making a table -/

/-- The storage of a new table holds an empty one. -/
theorem holds_allocate (config : Config) : config.allocate.Holds (empty config) := by
  refine ⟨Array.size_replicate, fun i hi => ?_, Array.size_replicate, fun i _ tag key hs => ?_, rfl⟩
  · have hline : i < windowSlots * config.lines := by
      have hi : i < config.maxCapacity := hi
      unfold windowSlots Config.lines windowSlots
      omega
    rw [slot_empty]
    exact (Array.getElem?_replicate ..).trans (if_pos hline)
  · rw [slot_empty] at hs
    contradiction

/-- Clearing the storage of a new table makes the table. -/
theorem exec_clear_allocate (hvalid : config.validate = .ok ()) :
    ∃ l, config.clear.exec config.allocate = some (.ok (), l) ∧ l.Holds (empty config) := by
  obtain ⟨l, hexec, hl⟩ := performs_clear (t := empty config) rfl hvalid _ (holds_allocate config)
  refine ⟨l, hexec, hl.alike ⟨rfl, ?_, fun i => ?_, rfl⟩⟩
  · exact (size_updateBelow ..).symm
  · rw [slot_clear_eq, slot_empty, ite_self]

theorem exec_multiply {a b : Nat} (h : a * b < Access.wordLimit) (l : Layout) :
    (Access.multiply a b).exec l = some (.ok (a * b), l) := by
  rw [Access.multiply, if_pos h]
  rfl

theorem exec_multiply_of_le {a b : Nat} (h : Access.wordLimit ≤ a * b) (l : Layout) :
    (Access.multiply a b).exec l = some (.error (.overflow a b), l) := by
  rw [Access.multiply, if_neg (Nat.not_lt.2 h)]
  rfl

/-- There is no room for an array of more bytes than a machine word can count. -/
theorem lt_wordLimit_of_hasRoom {memory : Memory} {bytes align : Nat} (h : memory.hasRoom bytes align = true) :
    bytes < Access.wordLimit := by
  have hlimit : arrayLimit < Access.wordLimit := by decide
  simp only [Memory.hasRoom, Bool.or_eq_true, Bool.and_eq_true, decide_eq_true_eq] at h
  omega

theorem exec_reserveArray (memory : Memory) {count size : Nat} (h : count * size < Access.wordLimit) (align : Nat)
    (l : Layout) :
    (Layout.reserveArray memory count size align).exec l = some (.ok (memory.reserve (count * size) align), l) := by
  unfold Layout.reserveArray Memory.reserve
  split
  · rfl
  · rw [exec_bind_of_ok (exec_multiply h l)]
    rfl

/-- If there is no room for an array, its length has to be told, which may be no machine word. -/
theorem exec_reserveArray_of_le (memory : Memory) {count size : Nat} (h : Access.wordLimit ≤ count * size) (align : Nat)
    (l : Layout) :
    (Layout.reserveArray memory count size align).exec l = some (.error (.overflow count size), l) := by
  have hroom : memory.hasRoom (count * size) align = false :=
    eq_false_of_ne_true fun hroom => Nat.not_lt.2 h (lt_wordLimit_of_hasRoom hroom)
  unfold Layout.reserveArray
  rw [hroom]
  exact exec_bind_of_error (exec_multiply_of_le h l)

theorem lines_mul_lt (h : config.validate = .ok ()) : config.lines * lineBytes < Access.wordLimit := by
  have hcap := maxCapacity_le_of_validate h
  have hlimit : Access.wordLimit = 18446744073709551616 := by decide
  unfold Config.lines lineBytes windowSlots
  omega

/-- The lines are reserved, but the bytes of the keys are more than a machine word can count. -/
structure Config.Overflows (config : Config) (memory : Memory) : Prop where
  valid : config.validate = .ok ()
  lines_reserved : memory.reserve (config.lines * lineBytes) lineBytes = .ok ()
  wordLimit_le : Access.wordLimit ≤ config.keyWords * wordBytes

/-- Keys of less than `2 ^ 32` words are never too long for that. -/
theorem not_overflows (memory : Memory) (hlength : config.keyLength < 1 <<< 32) : ¬ config.Overflows memory := by
  rintro ⟨hvalid, -, hle⟩
  have hcap := maxCapacity_le_of_validate hvalid
  have hwords : config.keyWords ≤ 2 ^ 30 * (2 ^ 32 - 1) := Nat.mul_le_mul hcap (Nat.le_pred_of_lt hlength)
  have hlimit : Access.wordLimit = 2 ^ 64 := by decide
  unfold wordBytes at hle
  omega

/-- If the bytes of the keys overflow, making a table faults before anything has changed. -/
theorem exec_make_of_overflows {memory : Memory} (h : config.Overflows memory) (l : Layout) :
    ∃ a b, Access.wordLimit ≤ a * b ∧ (config.make memory).exec l = some (.error (.overflow a b), l) := by
  have hlines := exec_reserveArray memory (lines_mul_lt h.valid) lineBytes l
  rw [h.lines_reserved] at hlines
  unfold Config.make
  rw [h.valid]
  dsimp only
  rcases Nat.lt_or_ge config.keyWords Access.wordLimit with hlt | hle
  · refine ⟨config.keyWords, wordBytes, h.wordLimit_le, ?_⟩
    rw [exec_bind_of_ok hlines, exec_bind_of_ok (exec_multiply hlt l)]
    exact exec_bind_of_error (exec_reserveArray_of_le memory h.wordLimit_le wordBytes l)
  · refine ⟨config.maxCapacity, config.keyLength, hle, ?_⟩
    rw [exec_bind_of_ok hlines]
    exact exec_bind_of_error (exec_multiply_of_le hle l)

/-- Where a table can be made, no size overflows. -/
theorem not_overflows_of_create {memory : Memory} {t : Table} (h : Table.create config memory = .ok t) :
    ¬ config.Overflows memory := by
  intro hover
  obtain ⟨⟨-, hreserve⟩, -⟩ := create_eq_ok_iff.1 h
  have hkeys : memory.reserve (config.keyWords * wordBytes) wordBytes = .ok () := by
    rw [← hreserve, Config.reserve, hover.lines_reserved]
    rfl
  unfold Memory.reserve at hkeys
  split at hkeys
  · rename_i hroom
    exact Nat.not_lt.2 hover.wordLimit_le (lt_wordLimit_of_hasRoom hroom)
  · cases hkeys

/-- If they do not, a table is made, or not for the same reason. -/
theorem exec_make {memory : Memory} (h : ¬ config.Overflows memory) (l : Layout) :
    (Table.create config memory = .ok (empty config) ∧
      ∃ l', (config.make memory).exec l = some (.ok (.ok ()), l') ∧ l'.Holds (empty config)) ∨
    ∃ e, Table.create config memory = .error e ∧ (config.make memory).exec l = some (.ok (.error e), l) := by
  unfold Table.create Config.reserve Config.make
  cases hvalid : config.validate with
  | error e => exact .inr ⟨e, rfl, rfl⟩
  | ok =>
    have hlines := exec_reserveArray memory (lines_mul_lt hvalid) lineBytes l
    cases hreserved : memory.reserve (config.lines * lineBytes) lineBytes with
    | error e =>
      rw [hreserved] at hlines
      exact .inr ⟨e, rfl, exec_bind_of_ok hlines⟩
    | ok =>
      rw [hreserved] at hlines
      have hlt : config.keyWords * wordBytes < Access.wordLimit :=
        Nat.not_le.1 fun hle => h ⟨hvalid, hreserved, hle⟩
      have hwords : (Access.multiply config.maxCapacity config.keyLength).exec l = some (.ok config.keyWords, l) :=
        exec_multiply (Nat.lt_of_le_of_lt (Nat.le_mul_of_pos_right config.keyWords (by decide)) hlt) l
      have hkeys := exec_reserveArray memory hlt wordBytes l
      dsimp only
      rw [exec_bind_of_ok hlines, exec_bind_of_ok hwords]
      cases hreserved' : memory.reserve (config.keyWords * wordBytes) wordBytes with
      | error e =>
        rw [hreserved'] at hkeys
        exact .inr ⟨e, rfl, exec_bind_of_ok hkeys⟩
      | ok =>
        rw [hreserved'] at hkeys
        obtain ⟨l', hclear, hl'⟩ := exec_clear_allocate hvalid
        refine .inl ⟨rfl, l', ?_, hl'⟩
        rw [exec_bind_of_ok hkeys]
        exact exec_bind_of_ok hclear

/-- **Making a table faults only where the length of its keys overflows.** Otherwise it ends with the storage of a new
table, or with the error that `create` gives, and then the storage is as before. It cannot overflow where a table is
made, nor with keys of less than `2 ^ 32` words. -/
theorem make_exact (config : Config) (memory : Memory) (l : Layout) :
    (∀ created, Table.create config memory = .ok created →
      ∃ l', (config.make memory).exec l = some (.ok (.ok ()), l') ∧ l'.Holds created) ∧
    (∀ e, Table.create config memory = .error e → ¬ config.Overflows memory →
      (config.make memory).exec l = some (.ok (.error e), l)) ∧
    (config.Overflows memory →
      ∃ a b, Access.wordLimit ≤ a * b ∧ (config.make memory).exec l = some (.error (.overflow a b), l)) ∧
    (config.keyLength < 1 <<< 32 → ¬ config.Overflows memory) := by
  refine ⟨fun created hc => ?_, fun e he hsize => ?_, fun hover => exec_make_of_overflows hover l, not_overflows memory⟩
  · rcases exec_make (not_overflows_of_create hc) l with ⟨hc', hmake⟩ | ⟨e, he, -⟩
    · rwa [← Except.ok.inj (hc'.symm.trans hc)]
    · rw [he] at hc
      contradiction
  · rcases exec_make hsize l with ⟨hc, -⟩ | ⟨e', he', hmake⟩
    · rw [hc] at he
      contradiction
    · rwa [Except.error.inj (he.symm.trans he')]

/-- In a table of two slots, keys of `2 ^ 63` words overflow. -/
example : (⟨1 <<< 63, 0, 1⟩ : Config).Overflows .ordinary := ⟨by decide, by decide, by decide⟩

/-! ## Operations one after another -/

theorem performs_perform (hc : t.config = config) (h : t.WellFormed) {op : Op} (hop : t.check op = .ok ()) :
    Performs t (config.perform op) (t.act op).1 (t.act op).2 := by
  rw [check_eq_ok, hc] at hop
  cases op with
  | insert key => exact (performs_lookupOrInsert hc h (hop key rfl)).bind performs_pure
  | contains key => exact (performs_contains hc h (hop key rfl)).bind performs_pure
  | remove key => exact (performs_remove hc h (hop key rfl)).bind performs_pure
  | resize =>
    exact (performs_resize hc h (looks_lookup config t.doublingsLeft) (Nat.le_succ _)).bind performs_pure
  | clear => exact (performs_clear hc (hc ▸ h.valid)).bind performs_pure

/-- A key of another length is a fault, whatever the storage. -/
theorem exec_perform_of_wrongLength {op : Op} (hkey : op.key? = some key) (hlength : key.length ≠ config.keyLength)
    (l : Layout) :
    (config.perform op).exec l = some (.error (.wrongLength ⟨key.length, config.keyLength⟩), l) := by
  have hcheck : (config.checkKey key).exec l = some (.error (.wrongLength ⟨key.length, config.keyLength⟩), l) := by
    unfold Config.checkKey
    rw [if_pos hlength]
    rfl
  cases op with
  | insert _ | contains _ | remove _ =>
    obtain rfl := Option.some.inj hkey
    exact exec_bind_of_error (exec_bind_of_error hcheck)
  | resize | clear => contradiction

/-- Operations one after another. -/
theorem performs_mapM (hc : t.config = config) (h : t.WellFormed) (ops : List Op)
    (hops : ∀ op ∈ ops, ∀ key, op.key? = some key → key.length = config.keyLength) :
    ∃ answers, (t.run ops).1 = .ok answers ∧ Performs t (ops.mapM config.perform) answers (t.run ops).2 := by
  induction ops generalizing t with
  | nil => exact ⟨[], rfl, performs_pure⟩
  | cons op rest ih =>
    obtain ⟨hop, hrest⟩ := List.forall_mem_cons.1 hops
    have hcheck : t.check op = .ok () := check_eq_ok.2 (hc ▸ hop)
    have hfirst := performs_perform hc h hcheck
    have hconfig := config_apply h op
    rw [apply_of_check hcheck] at hconfig
    obtain ⟨answers, hanswers, hperforms⟩ := ih (hconfig.trans hc) (h.act hcheck) hrest
    have hrun : t.run (op :: rest) = (.ok ((t.act op).1 :: answers), ((t.act op).2.run rest).2) := by
      rw [run, apply_of_check hcheck]
      dsimp only
      rw [hanswers]
      rfl
    rw [hrun, List.mapM_cons]
    exact ⟨_, rfl, hfirst.bind (hperforms.bind performs_pure)⟩

/-- **No operation faults, unless its key has the wrong length, and then it has changed nothing.** A new table is stored
without a fault, and no size of its arrays overflows. On the storage of any table that operations have made of it,
operations on keys of the right length end, with the answers of the table and with a storage of the table that it has
become: no position is beyond the slots, no range is beyond the words of the keys or of the entries taken out, and the
load is never counted below zero, also where growth happens within growth. An operation on a key of another length stops
at once and leaves the storage as it is. -/
theorem perform_exact {config : Config} {memory : Memory} {created : Table}
    (hc : Table.create config memory = .ok created) :
    (∃ l, config.clear.exec config.allocate = some (.ok (), l) ∧ l.Holds created) ∧
    (∀ l : Layout, ∃ l', (config.make memory).exec l = some (.ok (.ok ()), l') ∧ l'.Holds created) ∧
    ∀ t : Table, t.Reachable → t.config = config → ∀ l : Layout, l.Holds t →
      (∀ ops : List Op, (∀ op ∈ ops, ∀ key, op.key? = some key → key.length = config.keyLength) →
        ∃ answers l', (ops.mapM config.perform).exec l = some (.ok answers, l') ∧ (t.run ops).1 = .ok answers ∧
          l'.Holds (t.run ops).2) ∧
      ∀ (op : Op) (key : State), op.key? = some key → key.length ≠ config.keyLength →
        (config.perform op).exec l = some (.error (.wrongLength ⟨key.length, config.keyLength⟩), l) := by
  refine ⟨?_, fun l => (make_exact config memory l).1 created hc, fun t ht hconfig l hl => ⟨fun ops hops => ?_,
    fun op key hkey hlength => exec_perform_of_wrongLength hkey hlength l⟩⟩
  · obtain ⟨hvalid, rfl⟩ := create_eq_ok hc
    exact exec_clear_allocate hvalid
  · obtain ⟨answers, hanswers, hperforms⟩ := performs_mapM hconfig ht.wellFormed ops hops
    obtain ⟨l', hexec, hl'⟩ := hperforms l hl
    exact ⟨answers, l', hexec, hanswers, hl'⟩

/-- A history in which a table grows from four slots to thirty-two and goes on with four when it is cleared; and a key
of two words, where keys have one. -/
theorem perform_exact_crowding : Table.create ⟨1, 2, 6⟩ = .ok (empty ⟨1, 2, 6⟩) ∧
    ∃ l l' answers, (Config.clear ⟨1, 2, 6⟩).exec (Config.allocate ⟨1, 2, 6⟩) = some (.ok (), l) ∧
      (crowding.mapM (Config.perform ⟨1, 2, 6⟩)).exec l = some (.ok answers, l') ∧
      l'.Holds ((empty ⟨1, 2, 6⟩).run crowding).2 ∧
      ((empty ⟨1, 2, 6⟩).run crowding).1 = .ok answers ∧
      (Config.perform ⟨1, 2, 6⟩ (.remove [3, 3])).exec l' = some (.error (.wrongLength ⟨2, 1⟩), l') := by
  have hc : Table.create ⟨1, 2, 6⟩ = .ok (empty ⟨1, 2, 6⟩) := by decide
  have hops : ∀ op ∈ crowding, ∀ key, op.key? = some key → key.length = 1 := by decide
  have hreach : (empty ⟨1, 2, 6⟩).Reachable := .create hc
  obtain ⟨⟨l, hnew, hl⟩, -, hperform⟩ := perform_exact hc
  obtain ⟨hall, -⟩ := hperform _ hreach rfl l hl
  obtain ⟨answers, l', hexec, hanswers, hl'⟩ := hall crowding hops
  obtain ⟨-, hwrong⟩ := hperform _ (hreach.run crowding) (hreach.config_run crowding) l' hl'
  exact ⟨hc, l, l', answers, hnew, hexec, hl', hanswers, hwrong (.remove [3, 3]) [3, 3] rfl (by decide)⟩

end StateSpace.Table
