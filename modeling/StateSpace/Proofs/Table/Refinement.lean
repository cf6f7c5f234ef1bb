import StateSpace.Proofs.Table.Histories

/-!
# A table is a set of keys

`SetStep` says what one operation answers about a set of keys, what becomes of the set, and what the operation may do
to the counters of the table; `SetRun` says it of a history. As long as growth drops no entry (`DropsNothing`), a table
answers like the set of its members (`setStep_act`), so a new table answers like the empty set, for every history
(`run_eq_setRun`).
-/

namespace StateSpace.Table

/-- What an operation on table `t` that leaves table `t'` answers about a set of keys, and the set that it leaves. -/
inductive SetStep (t t' : Table) (keys : Finset State) : Op → Answer → Finset State → Prop
  /-- A member is found, whatever the load, and the table is no fuller and no larger than before. -/
  | found {key : State} : key ∈ keys → t'.load = t.load → t'.capacity = t.capacity → t'.resizes = t.resizes →
      SetStep t t' keys (.insert key) (.lookup .found) keys
  | inserted {key : State} : key ∉ keys → SetStep t t' keys (.insert key) (.lookup .inserted) (insert key keys)
  /-- There is no room only for a new key, and only at the largest capacity. -/
  | full {key : State} : key ∉ keys → t'.capacity = t.config.maxCapacity →
      SetStep t t' keys (.insert key) (.lookup .full) keys
  | contains {key : State} : t' = t → SetStep t t' keys (.contains key) (.bool (key ∈ keys)) keys
  | remove {key : State} : SetStep t t' keys (.remove key) (.bool (key ∈ keys)) (keys.erase key)
  | resize {grown : Bool} : SetStep t t' keys .resize (.bool grown) keys
  | clear : SetStep t t' keys .clear .unit ∅

/-- What a history of operations answers about a set of keys. At every moment, the load of the table is the size of the
set. -/
inductive SetRun : Table → Finset State → List Op → List Answer → Prop
  | nil {t : Table} {keys : Finset State} : t.load = keys.card → SetRun t keys [] []
  | cons {t : Table} {keys keys' : Finset State} {op : Op} {answer : Answer} {ops : List Op} {answers : List Answer} :
      t.load = keys.card → SetStep t (t.act op).2 keys op answer keys' → SetRun (t.act op).2 keys' ops answers →
      SetRun t keys (op :: ops) (answer :: answers)

/-- At no moment of the history has growth dropped an entry since the table was cleared last. -/
def DropsNothing (t : Table) : List Op → Prop
  | [] => t.dropped = 0
  | op :: ops => t.dropped = 0 ∧ DropsNothing (t.act op).2 ops

instance : (t : Table) → (ops : List Op) → Decidable (t.DropsNothing ops)
  | t, [] => inferInstanceAs (Decidable (t.dropped = 0))
  | t, op :: ops =>
    have : Decidable ((t.act op).2.DropsNothing ops) := instDecidableDropsNothing (t.act op).2 ops
    inferInstanceAs (Decidable (t.dropped = 0 ∧ (t.act op).2.DropsNothing ops))

theorem DropsNothing.dropped_eq {t : Table} {ops : List Op} (h : t.DropsNothing ops) : t.dropped = 0 := by
  cases ops with
  | nil => exact h
  | cons op ops => exact h.1

/-! ## One operation -/

section

variable {t : Table} {keys : Finset State}

theorem capacity_eq_of_doublingsLeft {t : Table} (h : t.Geometry) (hd : t.doublingsLeft = 0) :
    t.capacity = t.config.maxCapacity := by
  have hle := h.pow2_le
  unfold doublingsLeft at hd
  have heq : t.pow2 = t.config.maxPow2 := by omega
  rw [capacity, Config.maxCapacity, heq]

theorem setStep_insert (h : t.WellFormed) (hkeys : ∀ key, key ∈ keys ↔ key ∈ t) {key : State}
    (hlength : key.length = t.config.keyLength) (hd : (t.lookupKey key).2.dropped = t.dropped) :
    ∃ keys', SetStep t (t.lookupKey key).2 keys (.insert key) (.lookup (t.lookupKey key).1) keys' ∧
      ∀ k, k ∈ keys' ↔ k ∈ (t.lookupKey key).2 := by
  obtain ⟨hext, hfound⟩ := looked_lookupKey h hlength
  have hmem := hext.mem_iff hd
  cases ha : (t.lookupKey key).1 with
  | found =>
    have hk := hfound.1 ha
    have hsame : (t.lookupKey key).2.load = t.load ∧ (t.lookupKey key).2.capacity = t.capacity ∧
        (t.lookupKey key).2.resizes = t.resizes := by
      rcases lookupKey_of_mem h hk with heq | ⟨i, j, heq⟩
      · rw [heq]
        exact ⟨rfl, rfl, rfl⟩
      · rw [heq]
        exact ⟨rfl, rfl, rfl⟩
    refine ⟨keys, .found ((hkeys key).2 hk) hsame.1 hsame.2.1 hsame.2.2, fun k => ?_⟩
    rw [hkeys, hmem, ha]
    simp
  | inserted =>
    have hk : key ∉ t := fun hk => by simp [hfound.2 hk] at ha
    refine ⟨insert key keys, .inserted fun hmem => hk ((hkeys key).1 hmem), fun k => ?_⟩
    rw [hmem, ha, Finset.mem_insert, hkeys]
    simp [or_comm]
  | full =>
    have hk : key ∉ t := fun hk => by simp [hfound.2 hk] at ha
    have hleft : (t.lookupKey key).2.doublingsLeft = 0 := doublingsLeft_of_full (Nat.le_refl _) ha
    have hcap := capacity_eq_of_doublingsLeft hext.wellFormed.toGeometry hleft
    rw [hext.config_eq] at hcap
    refine ⟨keys, .full (fun hmem => hk ((hkeys key).1 hmem)) hcap, fun k => ?_⟩
    rw [hkeys, hmem, ha]
    simp

theorem setStep_remove (h : t.WellFormed) (hkeys : ∀ key, key ∈ keys ↔ key ∈ t) (key : State) :
    SetStep t (t.removeKey key).2 keys (.remove key) (.bool (t.removeKey key).1) (keys.erase key) ∧
      ∀ k, k ∈ keys.erase key ↔ k ∈ (t.removeKey key).2 := by
  rcases removeKey_cases h key with ⟨hk, heq⟩ | ⟨i, hi, heq⟩
  · have hnot : key ∉ keys := fun hmem => hk ((hkeys key).1 hmem)
    have hfalse : false = decide (key ∈ keys) := by simp [hnot]
    rw [heq, hfalse, Finset.erase_eq_of_notMem hnot]
    refine ⟨?_, hkeys⟩
    have hstep : SetStep t t keys (.remove key) (.bool (key ∈ keys)) (keys.erase key) := .remove
    rwa [Finset.erase_eq_of_notMem hnot] at hstep
  · have hmem : key ∈ keys := (hkeys key).2 ⟨i, hi⟩
    have htrue : true = decide (key ∈ keys) := by simp [hmem]
    rw [heq, htrue]
    refine ⟨.remove, fun k => ?_⟩
    rw [Finset.mem_erase, mem_vacate h hi, hkeys]

/-- An operation on a table that drops nothing answers like the set of members, and does to the members what it does to
the set. -/
theorem setStep_act (h : t.WellFormed) (hkeys : ∀ key, key ∈ keys ↔ key ∈ t) {op : Op} (hop : t.check op = .ok ())
    (hd : t.dropped = 0) (hd' : (t.act op).2.dropped = 0) :
    ∃ keys', SetStep t (t.act op).2 keys op (t.act op).1 keys' ∧ ∀ key, key ∈ keys' ↔ key ∈ (t.act op).2 := by
  rw [check_eq_ok] at hop
  cases op with
  | insert key => exact setStep_insert h hkeys (hop key rfl) (hd'.trans hd.symm)
  | contains key =>
    have heq : t.hasKey key = decide (key ∈ keys) := by
      rw [Bool.eq_iff_iff, h.hasKey_iff, decide_eq_true_iff, hkeys]
    refine ⟨keys, ?_, hkeys⟩
    show SetStep t t keys (.contains key) (.bool (t.hasKey key)) keys
    rw [heq]
    exact .contains rfl
  | remove key => exact ⟨_, setStep_remove h hkeys key⟩
  | resize =>
    refine ⟨keys, .resize, fun key => ?_⟩
    show key ∈ keys ↔ key ∈ t.resize.2
    rw [hkeys]
    simpa using ((extends_resize h).mem_iff (hd'.trans hd.symm) key).symm
  | clear =>
    refine ⟨∅, .clear, fun key => ?_⟩
    show key ∈ ∅ ↔ key ∈ t.clear
    simpa using not_mem_clear t key

end

/-! ## Histories -/

theorem config_act {t : Table} (h : t.WellFormed) {op : Op} (hop : t.check op = .ok ()) :
    (t.act op).2.config = t.config := by
  rw [check_eq_ok] at hop
  cases op with
  | insert key => exact (looked_lookupKey h (hop key rfl)).extends_.config_eq
  | contains key => rfl
  | remove key =>
    show (t.removeKey key).2.config = t.config
    rcases removeKey_cases h key with ⟨-, heq⟩ | ⟨i, -, heq⟩
    · rw [heq]
    · rw [heq]
      rfl
  | resize => exact (extends_resize h).config_eq
  | clear => rfl

/-- No operation changes the geometry, whatever the length of its key. -/
theorem config_apply {t : Table} (h : t.WellFormed) (op : Op) : (t.apply op).2.config = t.config := by
  cases hop : t.check op with
  | error wrong => simp only [apply, hop]
  | ok u => rw [apply_of_check hop, config_act h hop]

theorem run_cons_of_check {t : Table} {op : Op} {ops : List Op} {answers : List Answer} (hop : t.check op = .ok ())
    (h : ((t.act op).2.run ops).1 = .ok answers) : (t.run (op :: ops)).1 = .ok ((t.act op).1 :: answers) := by
  unfold run
  rw [apply_of_check hop]
  simp [h, Except.map]

/-- A history on a well-formed table answers like the set of its members. -/
theorem setRun_of_mem_iff (ops : List Op) {t : Table} {keys : Finset State} (h : t.WellFormed)
    (hkeys : ∀ key, key ∈ keys ↔ key ∈ t)
    (hlength : ∀ op ∈ ops, ∀ key, op.key? = some key → key.length = t.config.keyLength) (hd : t.DropsNothing ops) :
    ∃ answers, (t.run ops).1 = .ok answers ∧ SetRun t keys ops answers := by
  induction ops generalizing t keys with
  | nil => exact ⟨[], rfl, .nil (h.card_eq_load hkeys).symm⟩
  | cons op ops ih =>
    have hop : t.check op = .ok () := check_eq_ok.2 (hlength op List.mem_cons_self)
    obtain ⟨keys', hstep, hkeys'⟩ := setStep_act h hkeys hop hd.dropped_eq hd.2.dropped_eq
    have hlength' : ∀ op' ∈ ops, ∀ key, op'.key? = some key → key.length = (t.act op).2.config.keyLength := by
      intro op' hmem
      rw [config_act h hop]
      exact hlength op' (List.mem_cons_of_mem _ hmem)
    obtain ⟨answers, hrun, hset⟩ := ih (h.act hop) hkeys' hlength' hd.2
    exact ⟨_, run_cons_of_check hop hrun, .cons (h.card_eq_load hkeys).symm hstep hset⟩

/-- **A new table is an empty set of keys.** Every history of operations on keys of the right length in which growth
drops nothing answers like the set. -/
theorem run_eq_setRun {config : Config} {memory : Memory} {t : Table} (hc : Table.create config memory = .ok t)
    (ops : List Op) (hlength : ∀ op ∈ ops, ∀ key, op.key? = some key → key.length = config.keyLength)
    (hd : t.DropsNothing ops) :
    ∃ answers, (t.run ops).1 = .ok answers ∧ SetRun t ∅ ops answers := by
  obtain ⟨-, rfl⟩ := create_eq_ok hc
  refine setRun_of_mem_iff ops (wellFormed_create hc) (fun key => ?_) hlength hd
  simp [mem_def, Stores, slot_empty]

theorem run_eq_setRun_crowding : Table.create ⟨1, 2, 3⟩ = .ok (empty ⟨1, 2, 3⟩) ∧
    (empty ⟨1, 2, 3⟩).DropsNothing crowding ∧
    ∃ answers, ((empty ⟨1, 2, 3⟩).run crowding).1 = .ok answers ∧ SetRun (empty ⟨1, 2, 3⟩) ∅ crowding answers := by
  have hc : Table.create ⟨1, 2, 3⟩ = .ok (empty ⟨1, 2, 3⟩) := by decide
  have hlength : ∀ op ∈ crowding, ∀ key, op.key? = some key → key.length = 1 := by simp [crowding, Op.key?]
  have hd : (empty ⟨1, 2, 3⟩).DropsNothing crowding := by decide +kernel
  exact ⟨hc, hd, run_eq_setRun hc crowding hlength hd⟩

end StateSpace.Table
