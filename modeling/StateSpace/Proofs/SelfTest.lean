import StateSpace.Proofs.Table.Inquiries
import StateSpace.SelfTest

/-!
# The self-test never blames a correct table

While a test inserts its keys, its table holds the first so many of them (`Holds`), and nothing else. A key that is new
is stored as long as the load bound allows, and refused at the bound, if no probe of its lookup uses up all its attempts
at the largest capacity (`Holds.newKey`). A key that is a member is found and changes nothing, as there are no
tombstones (`Holds.roundStep_found`). So round 0 inserts the keys, all later rounds find them, and the last key is
answered as it must be (`Passable.run_eq`).

The lookups of a test are the list that it leaves when it keeps one (`lookups`), which changes nothing else
(`run_recorded`). They are made where everything before them has passed (`mem_lookups_iff`), and the probes of a test
are those that they lead to (`NeverExhausted`). In a small table, and with few keys, the probes are decided by what the
table holds, and what it holds follows from earlier lookups (`neverExhausted_of_small`).
-/

namespace StateSpace.SelfTest

open Table (Inquiry)

/-! ## The bound -/

section

variable {config : Table.Config} {t : Table}

theorem loadBound_lt (h : config.validate = .ok ()) : config.loadBound < 2 ^ 31 := by
  have hcap := Table.maxCapacity_le_of_validate h
  unfold Table.Config.loadBound
  omega

/-- A table of good geometry has room for one key at least. -/
theorem loadBound_pos (h : config.validate = .ok ()) : 0 < config.loadBound := by
  have hlt := Table.initial_lt_of_validate h
  have hcap : 2 ^ 1 ≤ config.maxCapacity := by
    rw [Table.Config.maxCapacity, Nat.one_shiftLeft]
    exact Nat.pow_le_pow_right (by decide) (by omega)
  unfold Table.Config.loadBound
  omega

/-- No bounded table holds more keys than the bound. -/
theorem load_le_loadBound (h : t.WellFormed) (hb : t.Bounded) (hconfig : t.config = config) :
    t.load ≤ config.loadBound := by
  have hcap := h.capacity_le_max
  rw [hconfig] at hcap
  unfold Table.Bounded at hb
  unfold Table.Config.loadBound
  omega

/-- A table of the largest capacity that has no room is at the bound. -/
theorem loadBound_le_load (h : t.WellFormed) (hleft : t.doublingsLeft = 0) (hroom : t.hasRoom = false)
    (hconfig : t.config = config) : config.loadBound ≤ t.load := by
  have hcap := Table.capacity_eq_of_doublingsLeft h.toGeometry hleft
  rw [← Bool.not_eq_true, Table.hasRoom_iff, hcap, hconfig] at hroom
  unfold Table.Config.loadBound
  omega

end

/-! ## Keys -/

/-- The key of number `i` for a geometry. -/
def numbered (config : Table.Config) (i : Nat) : State := List.replicate config.keyLength (Int32.ofNat i)

section

variable {config : Table.Config} {i j : Nat}

theorem key_eq (hi : i < 2 ^ 31) : key config i = .ok (numbered config i) := if_pos hi

theorem toInt_ofNat (hi : i < 2 ^ 31) : (Int32.ofNat i).toInt = i := Int32.toInt_ofNat_of_lt hi

/-- Different numbers have different keys, if keys have a word. -/
theorem numbered_inj (hlength : 1 ≤ config.keyLength) (hi : i < 2 ^ 31) (hj : j < 2 ^ 31)
    (h : numbered config i = numbered config j) : i = j := by
  have hword : Int32.ofNat i = Int32.ofNat j := (List.replicate_right_inj (by omega)).1 h
  have hint := congrArg Int32.toInt hword
  rw [toInt_ofNat hi, toInt_ofNat hj] at hint
  exact Int.ofNat_inj.1 hint

end

/-! ## The lookups of a test -/

/-- A computation that keeps a list of its lookups: the table, and the number of the key. -/
abbrev Recorded := ExceptT Failure (StateM (List (Table × Nat)))

/-- Looks up the key of number `i`, and adds that to the list. -/
def lookRecorded (t : Table) (i : Nat) : Recorded (Lookup × Table) := do
  modify (· ++ [(t, i)])
  MonadExcept.ofExcept (look t i)

/-- The lookups of a test, in order. -/
def lookups (config : Table.Config) (given : Option Nat) (rounds : Nat) (memory : Table.Memory) : List (Table × Nat) :=
  ((runWith lookRecorded config given rounds memory).run.run []).2

/-- The probe with which key `i` is looked up. -/
def inquiry (t : Table) (i : Nat) : Inquiry :=
  ⟨t, numbered t.config i, Hash.ofState (numbered t.config i) 0⟩

/-- No probe of a test uses up all its attempts at the largest capacity. -/
def NeverExhausted (config : Table.Config) (given : Option Nat) (rounds : Nat) (memory : Table.Memory) : Prop :=
  ∀ t i, (t, i) ∈ lookups config given rounds memory → ∀ q, (inquiry t i).Leads q → q.Decided

/-- A test of `keys` keys looks up the key of number `i` in table `t`. -/
inductive Looks (config : Table.Config) (memory : Table.Memory) (keys rounds : Nat) : Table → Nat → Prop
  /-- In a round, when the rounds before and the keys before it have passed. -/
  | inRound {created started t : Table} {round i : Nat} :
      Table.create config memory = .ok created → keys ≤ config.loadBound → round < rounds →
      runRounds look keys round 0 created = .ok started → i < keys →
      (List.range i).foldlM (roundStep look round) started = .ok t → Looks config memory keys rounds t i
  /-- After all rounds have passed. -/
  | last {created t : Table} :
      Table.create config memory = .ok created → keys ≤ config.loadBound →
      runRounds look keys rounds 0 created = .ok t → Looks config memory keys rounds t keys

section

variable {α β : Type} {x : Recorded α} {f : α → Recorded β} {result : Except Failure α} {g : α → Except Failure β}
  {made made' : List (Table × Nat)}

/-- The computation has this result and makes these lookups. -/
def Records (x : Recorded α) (result : Except Failure α) (made : List (Table × Nat)) : Prop :=
  ∀ before, x.run.run before = (result, before ++ made)

theorem records_ofExcept (result : Except Failure α) : Records (MonadExcept.ofExcept result) result [] := by
  intro before
  rw [List.append_nil]
  cases result <;> rfl

theorem records_check {p : Prop} [Decidable p] (a : α) (e : Failure) :
    Records (if p then pure a else throw e) (if p then pure a else throw e) [] := by
  split
  · exact records_ofExcept (.ok a)
  · exact records_ofExcept (.error e)

theorem records_look (t : Table) (i : Nat) : Records (lookRecorded t i) (look t i) [(t, i)] := by
  intro before
  unfold lookRecorded
  cases look t i <;> rfl

theorem Records.bind {a : α} (h : Records x result made) (hresult : result = .ok a)
    (h' : Records (f a) (g a) made') : Records (x >>= f) (result >>= g) (made ++ made') := by
  intro before
  rw [ExceptT.run_bind, StateT.run_bind, h before, hresult, ← List.append_assoc]
  exact h' (before ++ made)

theorem Records.bind_error {e : Failure} (h : Records x result made) (hresult : result = .error e) :
    Records (x >>= f) (result >>= g) made := by
  intro before
  rw [ExceptT.run_bind, StateT.run_bind, h before, hresult]
  rfl

/-- A lookup whose answer has to be the expected one. -/
theorem records_answer (t : Table) (i : Nat) (expected : Lookup) (a : Lookup × Table → α)
    (e : Lookup × Table → Failure) :
    Records (lookRecorded t i >>= fun r => if r.1 = expected then pure (a r) else throw (e r))
      (look t i >>= fun r => if r.1 = expected then pure (a r) else throw (e r)) [(t, i)] := by
  cases hr : look t i with
  | error e => exact hr ▸ (records_look t i).bind_error hr
  | ok r => exact hr ▸ (records_look t i).bind hr (records_check (a r) (e r))

end

section

variable {config : Table.Config} {memory : Table.Memory} {keys rounds : Nat}

theorem records_roundStep (round : Nat) (t : Table) (i : Nat) :
    Records (roundStep lookRecorded round t i) (roundStep look round t i) [(t, i)] :=
  records_answer t i _ _ _

/-- A round looks up its keys as long as those before them have passed. -/
theorem records_foldlM (round : Nat) (t : Table) (n : Nat) :
    ∃ made, Records ((List.range n).foldlM (roundStep lookRecorded round) t)
        ((List.range n).foldlM (roundStep look round) t) made ∧
      ∀ t' i, (t', i) ∈ made ↔ i < n ∧ (List.range i).foldlM (roundStep look round) t = .ok t' := by
  induction n with
  | zero => exact ⟨[], records_ofExcept (.ok t), by simp⟩
  | succ n ih =>
    obtain ⟨made, hrecords, hmade⟩ := ih
    simp only [List.range_succ, List.foldlM_append, List.foldlM_cons, List.foldlM_nil, bind_pure]
    cases hr : (List.range n).foldlM (roundStep look round) t with
    | error e =>
      refine ⟨made, hr ▸ hrecords.bind_error hr, fun t' i => ?_⟩
      rw [hmade]
      refine and_congr_left fun hi => ?_
      have hne : i ≠ n := fun heq => by rw [heq, hr] at hi; cases hi
      omega
    | ok last =>
      refine ⟨made ++ [(last, n)], hr ▸ hrecords.bind hr (records_roundStep round last n), fun t' i => ?_⟩
      rw [List.mem_append, hmade, List.mem_singleton, Prod.mk.injEq]
      constructor
      · rintro (⟨hi, hfold⟩ | ⟨rfl, rfl⟩)
        · exact ⟨Nat.lt_succ_of_lt hi, hfold⟩
        · exact ⟨Nat.lt_succ_self _, hr⟩
      · rintro ⟨hi, hfold⟩
        rcases Nat.lt_succ_iff_lt_or_eq.1 hi with hi | rfl
        · exact .inl ⟨hi, hfold⟩
        · exact .inr ⟨(Except.ok.inj (hr.symm.trans hfold)).symm, rfl⟩

/-- Rounds look up their keys as long as all that came before has passed. -/
theorem records_runRounds (keys left round : Nat) (t : Table) :
    ∃ made, Records (runRounds lookRecorded keys left round t) (runRounds look keys left round t) made ∧
      ∀ t' i, (t', i) ∈ made ↔ ∃ k < left, ∃ started, runRounds look keys k round t = .ok started ∧ i < keys ∧
        (List.range i).foldlM (roundStep look (round + k)) started = .ok t' := by
  induction left generalizing round t with
  | zero => exact ⟨[], records_ofExcept (.ok t), by simp⟩
  | succ left ih =>
    obtain ⟨made, hrecords, hmade⟩ := records_foldlM round t keys
    have hnow (t' : Table) (i : Nat) : (t', i) ∈ made ↔ ∃ started, runRounds look keys 0 round t = .ok started ∧
        i < keys ∧ (List.range i).foldlM (roundStep look (round + 0)) started = .ok t' := by
      rw [hmade]
      exact ⟨fun h => ⟨t, rfl, h⟩, fun ⟨started, hstarted, h⟩ => Except.ok.inj hstarted ▸ h⟩
    cases hr : (List.range keys).foldlM (roundStep look round) t with
    | error e =>
      have hlater (k : Nat) : runRounds look keys (k + 1) round t = .error e := by
        simp only [runRounds, runRound, hr]
        rfl
      refine ⟨made, hrecords.bind_error hr, fun t' i => ?_⟩
      rw [Nat.exists_lt_succ_left, hnow]
      simp [hlater]
    | ok next =>
      have hlater (k : Nat) : runRounds look keys (k + 1) round t = runRounds look keys k (round + 1) next := by
        simp only [runRounds, runRound, hr]
        rfl
      obtain ⟨made', hrecords', hmade'⟩ := ih (round + 1) next
      refine ⟨made ++ made', hrecords.bind hr hrecords', fun t' i => ?_⟩
      rw [Nat.exists_lt_succ_left, List.mem_append, hnow, hmade']
      simp only [hlater, Nat.add_right_comm round 1, ← Nat.add_assoc]

/-- The lookups of a test that can be made and has no more keys than the bound. -/
theorem looks_iff {created t : Table} {i : Nat} (hc : Table.create config memory = .ok created)
    (hkeys : keys ≤ config.loadBound) :
    Looks config memory keys rounds t i ↔
      (∃ round < rounds, ∃ started, runRounds look keys round 0 created = .ok started ∧ i < keys ∧
        (List.range i).foldlM (roundStep look round) started = .ok t) ∨
      runRounds look keys rounds 0 created = .ok t ∧ i = keys := by
  constructor
  · rintro (⟨hc', -, hround, hstarted, hi, hfold⟩ | ⟨hc', -, hlast⟩)
    · obtain rfl := Except.ok.inj (hc.symm.trans hc')
      exact .inl ⟨_, hround, _, hstarted, hi, hfold⟩
    · obtain rfl := Except.ok.inj (hc.symm.trans hc')
      exact .inr ⟨hlast, rfl⟩
  · rintro (⟨round, hround, started, hstarted, hi, hfold⟩ | ⟨hlast, rfl⟩)
    · exact .inRound hc hkeys hround hstarted hi hfold
    · exact .last hc hkeys hlast

/-- Keeping a list of the lookups does not change the test, and the list is that of its lookups. -/
theorem records_run (config : Table.Config) (given : Option Nat) (rounds : Nat) (memory : Table.Memory) :
    ∃ made, Records (runWith lookRecorded config given rounds memory) (run config given rounds memory) made ∧
      ∀ t i, (t, i) ∈ made ↔ Looks config memory (given.getD config.loadBound) rounds t i := by
  have hcreate := records_ofExcept ((Table.create config memory).mapError Failure.geometry)
  generalize hkeys : given.getD config.loadBound = keys
  unfold run runWith
  cases hc : Table.create config memory with
  | error e =>
    rw [hc] at hcreate
    refine ⟨[], hcreate.bind_error rfl, fun t i => ?_⟩
    simp only [List.not_mem_nil, false_iff]
    rintro (⟨hc', -⟩ | ⟨hc', -⟩) <;> (rw [hc] at hc'; cases hc')
  | ok created =>
    rw [hc] at hcreate
    by_cases hbound : config.loadBound < keys
    · simp only [hkeys, if_pos hbound]
      refine ⟨[], hcreate.bind rfl ((records_ofExcept (.error _)).bind_error rfl), fun t i => ?_⟩
      simp only [List.not_mem_nil, false_iff]
      rintro (⟨-, hle, -⟩ | ⟨-, hle, -⟩) <;> omega
    · obtain ⟨made, hrecords, hmade⟩ := records_runRounds keys rounds 0 created
      simp only [Nat.zero_add] at hmade
      simp only [hkeys, if_neg hbound, looks_iff hc (Nat.not_lt.1 hbound), ← hmade]
      cases hr : runRounds look keys rounds 0 created with
      | error e =>
        refine ⟨made, hcreate.bind rfl (hrecords.bind_error hr), fun t i => ?_⟩
        simp
      | ok last =>
        refine ⟨made ++ [(last, keys)], hcreate.bind rfl (hrecords.bind hr (records_answer last keys _ _ _)),
          fun t i => ?_⟩
        simp [eq_comm]

/-- Keeping a list of the lookups changes nothing. -/
theorem run_recorded (config : Table.Config) (given : Option Nat) (rounds : Nat) (memory : Table.Memory) :
    (runWith lookRecorded config given rounds memory).run.run [] =
      (run config given rounds memory, lookups config given rounds memory) := by
  obtain ⟨made, hrecords, -⟩ := records_run config given rounds memory
  rw [lookups, hrecords []]

/-- The lookups of a test, by what came before each. -/
theorem mem_lookups_iff {given : Option Nat} {t : Table} {i : Nat} :
    (t, i) ∈ lookups config given rounds memory ↔ Looks config memory (given.getD config.loadBound) rounds t i := by
  obtain ⟨made, hrecords, hmade⟩ := records_run config given rounds memory
  rw [lookups, hrecords []]
  exact hmade t i

theorem Looks.keys_le {t : Table} {i : Nat} (h : Looks config memory keys rounds t i) : keys ≤ config.loadBound := by
  cases h with
  | inRound _ hkeys => exact hkeys
  | last _ hkeys => exact hkeys

/-- A test with more keys than the bound allows looks up none of them. -/
theorem lookups_eq_nil {given : Option Nat} (hkeys : config.loadBound < given.getD config.loadBound) :
    lookups config given rounds memory = [] :=
  List.eq_nil_iff_forall_not_mem.2 fun _ hmem => Nat.not_le.2 hkeys (mem_lookups_iff.1 hmem).keys_le

end

/-! ## One lookup -/

/-- The members of the table are the first `n` keys. -/
structure Holds (config : Table.Config) (n : Nat) (t : Table) : Prop where
  config_eq : t.config = config
  wellFormed : t.WellFormed
  bounded : t.Bounded
  tidy : t.Tidy
  load_eq : t.load = n
  mem_iff : ∀ key, key ∈ t ↔ ∃ i < n, key = numbered config i

section

variable {config : Table.Config} {t : Table} {n i : Nat}

theorem Holds.sound (h : Holds config n t) (i : Nat) : (inquiry t i).Sound :=
  ⟨h.wellFormed, h.bounded, rfl, List.length_replicate⟩

theorem look_eq (hi : i < 2 ^ 31) : look t i = .ok (inquiry t i).lookup := by
  have hlength : (numbered t.config i).length = t.config.keyLength := List.length_replicate
  unfold look
  rw [key_eq hi]
  show ((t.lookupOrInsert (numbered t.config i)).mapError _) = _
  rw [Table.lookupOrInsert_of_length hlength]
  rfl

/-- A key that is a member is found, and the table stays as it is. -/
theorem Holds.roundStep_found (h : Holds config n t) (hi : i < n) (hlt : i < 2 ^ 31) {round : Nat}
    (hround : round ≠ 0) : roundStep look round t i = .ok t := by
  have hmem : numbered t.config i ∈ t := (h.mem_iff _).2 ⟨i, hi, by rw [h.config_eq]⟩
  have hfound : (inquiry t i).lookup = (.found, t) := Table.lookupKey_of_tidy h.wellFormed h.tidy hmem
  unfold roundStep
  rw [look_eq hlt, hfound]
  simp [bind, Except.bind, expectedIn, hround, pure, Except.pure]

/-- A key that is no member is stored if the load bound allows, and refused otherwise. -/
inductive NewKey (config : Table.Config) (n i : Nat) : Lookup × Table → Prop
  | inserted {t : Table} : n < config.loadBound → t.load = n + 1 → (i = n → Holds config (n + 1) t) →
      NewKey config n i (.inserted, t)
  | full {t : Table} : config.loadBound ≤ n → t.load = n → NewKey config n i (.full, t)

theorem Holds.not_mem (h : Holds config n t) (hlength : 1 ≤ config.keyLength) (hi : n ≤ i) (hlt : i < 2 ^ 31) :
    numbered t.config i ∉ t := by
  rw [h.mem_iff, h.config_eq]
  rintro ⟨j, hj, heq⟩
  have hij := numbered_inj hlength hlt (by omega) heq
  omega

/-- A lookup of a key that is no member keeps all others, and answers as the bound says. -/
theorem Holds.newKey (h : Holds config n t) (hlength : 1 ≤ config.keyLength) (hi : n ≤ i) (hlt : i < 2 ^ 31)
    (hdecided : ∀ q, (inquiry t i).Leads q → q.Decided) : NewKey config n i (inquiry t i).lookup := by
  have hsound := h.sound i
  have hnew := h.not_mem hlength hi hlt
  obtain ⟨hdropped, hroom⟩ := Inquiry.keeps_of_decided hsound hdecided
  have hbounded : (inquiry t i).lookup.2.Bounded := Table.bounded_lookupWithin _ h.wellFormed h.bounded _ _
  have hlooked : t.Looked (numbered t.config i) (inquiry t i).lookup :=
    Table.looked_lookupHashed h.wellFormed hsound.tag_eq hsound.length_eq
  have hleft (hfull : (inquiry t i).lookup.1 = .full) : (inquiry t i).lookup.2.doublingsLeft = 0 :=
    Table.doublingsLeft_of_full (Nat.le_refl _) hfull
  generalize (inquiry t i).lookup = r at hdropped hroom hbounded hlooked hleft ⊢
  obtain ⟨answer, t'⟩ := r
  obtain ⟨hext, hfound⟩ := hlooked
  have hconfig := hext.config_eq.trans h.config_eq
  cases answer with
  | found => exact absurd (hfound.1 rfl) hnew
  | inserted =>
    have hload : t'.load = n + 1 := by
      have hgrown := hext.load_eq h.wellFormed hdropped (by simp) (by simpa using hnew)
      simpa [h.load_eq] using hgrown
    have hle : t'.load ≤ config.loadBound := load_le_loadBound hext.wellFormed hbounded hconfig
    refine .inserted (by omega) hload fun heq => ?_
    subst heq
    refine ⟨hconfig, hext.wellFormed, hbounded, hext.tidy h.tidy, hload, fun key => ?_⟩
    rw [hext.mem_iff hdropped, h.mem_iff, h.config_eq]
    simp only [if_true, List.mem_singleton, Nat.lt_succ_iff_lt_or_eq, or_and_right, exists_or, exists_eq_left]
  | full =>
    have hload : t'.load = n := by
      have hsame := hext.load_eq h.wellFormed hdropped (by simp) (by simp)
      simpa [h.load_eq] using hsame
    have hle : config.loadBound ≤ t'.load := loadBound_le_load hext.wellFormed (hleft rfl) (hroom rfl) hconfig
    exact .full (by omega) hload

end

/-! ## All rounds -/

/-- What a test passes under: its table can be made, keys have a word, there are no more of them than the bound allows,
and the probes of its lookups are decided as long as the table holds the first keys. -/
structure Passable (config : Table.Config) (memory : Table.Memory) (keys rounds : Nat) (created : Table) : Prop where
  create_eq : Table.create config memory = .ok created
  length_pos : 1 ≤ config.keyLength
  keys_le : keys ≤ config.loadBound
  decided : ∀ t n i, Looks config memory keys rounds t i → Holds config n t → n ≤ keys →
    ∀ q, (inquiry t i).Leads q → q.Decided

section

variable {config : Table.Config} {memory : Table.Memory} {created t : Table} {keys rounds n : Nat}

/-- The last step of a loop over the first numbers. -/
theorem foldlM_range_succ {f : Table → Nat → Except Failure Table} {t t' t'' : Table} {i : Nat}
    (h : (List.range i).foldlM f t = .ok t') (hstep : f t' i = .ok t'') :
    (List.range (i + 1)).foldlM f t = .ok t'' := by
  rw [List.range_succ, List.foldlM_append, h]
  simp [bind, Except.bind, pure, Except.pure, hstep]

theorem holds_created (h : Table.create config memory = .ok created) : Holds config 0 created := by
  have hwf := Table.wellFormed_create h
  obtain ⟨-, rfl⟩ := Table.create_eq_ok h
  refine ⟨rfl, hwf, Nat.zero_le _, fun i _ => ?_, rfl, fun key => ?_⟩
  · rw [Table.slot_empty]
    simp
  · simp [Table.mem_def, Table.Stores, Table.slot_empty]

/-- In round 0 the keys are inserted one after another. -/
theorem Passable.insertions (h : Passable config memory keys rounds created) (hrounds : 0 < rounds) {i : Nat}
    (hi : i ≤ keys) : ∃ t, (List.range i).foldlM (roundStep look 0) created = .ok t ∧ Holds config i t := by
  have hbound := loadBound_lt (Table.create_eq_ok h.create_eq).1
  have hkeys := h.keys_le
  induction i with
  | zero => exact ⟨created, rfl, holds_created h.create_eq⟩
  | succ i ih =>
    obtain ⟨t, hfold, hholds⟩ := ih (Nat.le_of_succ_le hi)
    have hlooks : Looks config memory keys rounds t i := .inRound h.create_eq h.keys_le hrounds rfl hi hfold
    have hnew := hholds.newKey h.length_pos (Nat.le_refl i) (by omega)
      (h.decided t i i hlooks hholds (Nat.le_of_succ_le hi))
    have hlook := look_eq (t := t) (i := i) (by omega)
    generalize (inquiry t i).lookup = r at hnew hlook
    cases hnew with
    | @inserted t' _ _ hnext =>
      refine ⟨t', foldlM_range_succ hfold ?_, hnext rfl⟩
      unfold roundStep
      rw [hlook]
      rfl
    | full hle => omega

/-- In a later round the keys are found one after another, and the table stays as it is. -/
theorem Holds.foldlM_found (h : Holds config n t) (hn : n < 2 ^ 31) {round : Nat} (hround : round ≠ 0) {i : Nat}
    (hi : i ≤ n) : (List.range i).foldlM (roundStep look round) t = .ok t := by
  induction i with
  | zero => rfl
  | succ i ih => exact foldlM_range_succ (ih (by omega)) (h.roundStep_found hi (by omega) hround)

theorem Holds.runRounds_found (h : Holds config n t) (hn : n < 2 ^ 31) (left : Nat) {round : Nat} (hround : round ≠ 0) :
    runRounds look n left round t = .ok t := by
  induction left generalizing round with
  | zero => rfl
  | succ left ih =>
    have hfound : runRound look n t round = .ok t := h.foldlM_found hn hround (Nat.le_refl n)
    rw [runRounds, hfound]
    exact ih (Nat.succ_ne_zero round)

/-- All rounds pass; round 0 fills the table. -/
theorem Passable.rounds_pass (h : Passable config memory keys rounds created) {round : Nat} (hround : round ≤ rounds) :
    ∃ t, runRounds look keys round 0 created = .ok t ∧ Holds config (if round = 0 then 0 else keys) t := by
  have hbound := loadBound_lt (Table.create_eq_ok h.create_eq).1
  cases round with
  | zero => exact ⟨created, rfl, holds_created h.create_eq⟩
  | succ round =>
    obtain ⟨t, hfold, hholds⟩ := h.insertions (Nat.lt_of_lt_of_le (Nat.succ_pos round) hround) (Nat.le_refl keys)
    have hround : runRound look keys created 0 = .ok t := hfold
    refine ⟨t, ?_, hholds⟩
    rw [runRounds, hround]
    exact hholds.runRounds_found (Nat.lt_of_le_of_lt h.keys_le hbound) round Nat.one_ne_zero

/-- Whenever a key is looked up, the table holds the first keys. -/
theorem Passable.holds_of_looks (h : Passable config memory keys rounds created) {i : Nat}
    (hlooks : Looks config memory keys rounds t i) : ∃ n ≤ keys, Holds config n t := by
  have hbound := loadBound_lt (Table.create_eq_ok h.create_eq).1
  cases hlooks with
  | @inRound created' started _ round _ hc _ hround hstarted hi hfold =>
    obtain rfl := Except.ok.inj (h.create_eq.symm.trans hc)
    cases round with
    | zero =>
      obtain rfl := Except.ok.inj hstarted
      obtain ⟨t', hfold', hholds⟩ := h.insertions hround (Nat.le_of_lt hi)
      obtain rfl := Except.ok.inj (hfold'.symm.trans hfold)
      exact ⟨i, Nat.le_of_lt hi, hholds⟩
    | succ round =>
      obtain ⟨t', hstarted', hholds⟩ := h.rounds_pass (Nat.le_of_lt hround)
      obtain rfl := Except.ok.inj (hstarted'.symm.trans hstarted)
      have hlt := Nat.lt_of_le_of_lt h.keys_le hbound
      have hfound := hholds.foldlM_found hlt (Nat.succ_ne_zero round) (Nat.le_of_lt hi)
      obtain rfl := Except.ok.inj (hfound.symm.trans hfold)
      exact ⟨keys, Nat.le_refl keys, hholds⟩
  | last hc _ hrounds =>
    obtain rfl := Except.ok.inj (h.create_eq.symm.trans hc)
    obtain ⟨t', hrounds', hholds⟩ := h.rounds_pass (Nat.le_refl rounds)
    obtain rfl := Except.ok.inj (hrounds'.symm.trans hrounds)
    refine ⟨_, ?_, hholds⟩
    split <;> omega

/-- After all rounds, the answer for the last key decides. -/
theorem run_of_rounds {given : Option Nat} {got : Lookup} {t' : Table} (hc : Table.create config memory = .ok created)
    (hgiven : given.getD config.loadBound = keys) (hkeys : keys ≤ config.loadBound)
    (hrounds : runRounds look keys rounds 0 created = .ok t) (hlook : look t keys = .ok (got, t'))
    (hgot : got = if 0 < rounds ∧ keys = config.loadBound then .full else .inserted) :
    run config given rounds memory = .ok ⟨keys, rounds, t'.stats⟩ := by
  subst hgiven
  unfold run runWith
  simp only [hc, Except.mapError, MonadExcept.ofExcept, bind, Except.bind, pure, Except.pure,
    if_neg (Nat.not_lt.2 hkeys), hrounds, hlook, if_pos hgot]

/-- A test that can pass does, with the load that its last key leaves. -/
theorem Passable.run_eq (h : Passable config memory keys rounds created) {given : Option Nat}
    (hgiven : given.getD config.loadBound = keys) :
    ∃ stats, run config given rounds memory = .ok ⟨keys, rounds, stats⟩ ∧
      stats.load = if rounds = 0 then 1 else if keys = config.loadBound then config.loadBound else keys + 1 := by
  have hvalid := (Table.create_eq_ok h.create_eq).1
  have hbound := loadBound_lt hvalid
  have hpos := loadBound_pos hvalid
  have hkeys := h.keys_le
  obtain ⟨t, hrounds, hholds⟩ := h.rounds_pass (Nat.le_refl rounds)
  have hlooks : Looks config memory keys rounds t keys := .last h.create_eq h.keys_le hrounds
  have hle : (if rounds = 0 then 0 else keys) ≤ keys := by split <;> omega
  have hnew := hholds.newKey h.length_pos hle (by omega) (h.decided t _ keys hlooks hholds hle)
  have hlook := look_eq (t := t) (i := keys) (by omega)
  generalize (inquiry t keys).lookup = r at hnew hlook
  cases hnew with
  | @inserted t' hroom hload _ =>
    have hbelow : rounds ≠ 0 → keys ≠ config.loadBound := fun hsome => by
      rw [if_neg hsome] at hroom
      exact Nat.ne_of_lt hroom
    refine ⟨t'.stats, run_of_rounds h.create_eq hgiven hkeys hrounds hlook ?_, ?_⟩
    · rw [if_neg fun ⟨hsome, heq⟩ => hbelow (Nat.ne_of_gt hsome) heq]
    · show t'.load = _
      rw [hload]
      by_cases hsome : rounds = 0
      · rw [if_pos hsome, if_pos hsome]
      · rw [if_neg hsome, if_neg hsome, if_neg (hbelow hsome)]
  | @full t' hfull hload =>
    have hsome : rounds ≠ 0 := by
      rintro rfl
      simp at hfull
      omega
    rw [if_neg hsome] at hfull hload
    have heq : keys = config.loadBound := Nat.le_antisymm hkeys hfull
    refine ⟨t'.stats, run_of_rounds h.create_eq hgiven hkeys hrounds hlook ?_, ?_⟩
    · rw [if_pos ⟨Nat.pos_of_ne_zero hsome, heq⟩]
    · show t'.load = _
      rw [if_neg hsome, if_pos heq, hload, heq]

/-- A test with more keys than the bound allows fails at once. -/
theorem run_of_bound_lt {given : Option Nat} (hc : Table.create config memory = .ok created)
    (hgiven : given.getD config.loadBound = keys) (hkeys : config.loadBound < keys) :
    run config given rounds memory = .error (.tooManyKeys keys config.loadBound config.maxPow2) := by
  subst hgiven
  unfold run runWith
  simp only [hc, Except.mapError, MonadExcept.ofExcept, bind, Except.bind, if_pos hkeys]
  rfl

theorem Holds.decided_of_small (h : Holds config n t) (hsmall : config.maxPow2 ≤ 4 ∨ n < Table.windowSlots) (i : Nat)
    {q : Inquiry} (hq : (inquiry t i).Leads q) : q.Decided := by
  refine hq.decided_of_small (h.sound i) h.tidy ?_
  show t.config.maxPow2 ≤ 4 ∨ t.load < Table.windowSlots
  rwa [h.config_eq, h.load_eq]

/-- A test of a small table, or with fewer keys than a window has slots, exhausts no probe. -/
theorem neverExhausted_of_small {given : Option Nat} (hc : Table.create config memory = .ok created)
    (hlength : 1 ≤ config.keyLength) (hgiven : given.getD config.loadBound = keys)
    (hsmall : config.maxPow2 ≤ 4 ∨ keys < Table.windowSlots) : NeverExhausted config given rounds memory := by
  subst hgiven
  have hdecided {t : Table} {n : Nat} (hholds : Holds config n t) (hn : n ≤ given.getD config.loadBound) (i : Nat)
      {q : Inquiry} (hq : (inquiry t i).Leads q) : q.Decided :=
    hholds.decided_of_small (hsmall.imp_right (Nat.lt_of_le_of_lt hn)) i hq
  intro t i hmem q hq
  have hlooks := mem_lookups_iff.1 hmem
  have hpassable : Passable config memory (given.getD config.loadBound) rounds created :=
    ⟨hc, hlength, hlooks.keys_le, fun _ _ i _ hholds hn _ hq => hdecided hholds hn i hq⟩
  obtain ⟨n, hn, hholds⟩ := hpassable.holds_of_looks hlooks
  exact hdecided hholds hn i hq

end

/-- **The self-test never blames a correct table.** The table can be made and its keys have a word.

Up to the bound the number of every key is a word. A test of no more keys than the bound passes, if none of its probes
uses up all its attempts at the largest capacity; the load is then that of all its keys and one more, unless the bound
has no room for that one, and 1 without rounds. In a table of at most 16 slots, or with fewer than 16 keys, there is no
such probe.

A test of more keys than the bound fails before it looks up any. What a test looks up is the list that it leaves when it
keeps one, which does not change it otherwise. -/
theorem run_exact {config : Table.Config} {memory : Table.Memory} {created : Table} {given : Option Nat} {keys : Nat}
    (hc : Table.create config memory = .ok created) (hlength : 1 ≤ config.keyLength)
    (hgiven : given.getD config.loadBound = keys) (rounds : Nat) :
    (∀ i ≤ config.loadBound, key config i = .ok (numbered config i) ∧ (Int32.ofNat i).toInt = i) ∧
    (keys ≤ config.loadBound → NeverExhausted config given rounds memory →
      ∃ stats, run config given rounds memory = .ok ⟨keys, rounds, stats⟩ ∧
        stats.load = if rounds = 0 then 1 else if keys = config.loadBound then config.loadBound else keys + 1) ∧
    (config.maxPow2 ≤ 4 ∨ keys < Table.windowSlots → NeverExhausted config given rounds memory) ∧
    (config.loadBound < keys →
      run config given rounds memory = .error (.tooManyKeys keys config.loadBound config.maxPow2) ∧
      lookups config given rounds memory = []) ∧
    (runWith lookRecorded config given rounds memory).run.run [] =
      (run config given rounds memory, lookups config given rounds memory) := by
  have hbound := loadBound_lt (Table.create_eq_ok hc).1
  refine ⟨fun i hi => ?_, fun hkeys hnever => ?_, neverExhausted_of_small hc hlength hgiven, fun hkeys => ?_,
    run_recorded config given rounds memory⟩
  · have hlt := Nat.lt_of_le_of_lt hi hbound
    exact ⟨key_eq hlt, toInt_ofNat hlt⟩
  · refine Passable.run_eq ⟨hc, hlength, hkeys, fun t _ i hlooks _ _ => hnever t i ?_⟩ hgiven
    rwa [mem_lookups_iff, hgiven]
  · exact ⟨run_of_bound_lt hc hgiven hkeys, lookups_eq_nil (hgiven ▸ hkeys)⟩

/-- Up to six keys in a table that grows from one slot to eight. -/
theorem run_exact_eight_slots : Table.create ⟨2, 0, 3⟩ = .ok (Table.empty ⟨2, 0, 3⟩) ∧
    NeverExhausted ⟨2, 0, 3⟩ none 2 .ordinary ∧
    (∃ stats, run ⟨2, 0, 3⟩ none 2 = .ok ⟨6, 2, stats⟩ ∧ stats.load = 6) ∧
    (∃ stats, run ⟨2, 0, 3⟩ (some 4) 1 = .ok ⟨4, 1, stats⟩ ∧ stats.load = 5) ∧
    run ⟨2, 0, 3⟩ (some 7) 1 = .error (.tooManyKeys 7 6 3) ∧ lookups ⟨2, 0, 3⟩ (some 7) 1 .ordinary = [] := by
  have hc : Table.create ⟨2, 0, 3⟩ = .ok (Table.empty ⟨2, 0, 3⟩) := by decide
  have hlength : 1 ≤ (⟨2, 0, 3⟩ : Table.Config).keyLength := by decide
  have hnone : (none : Option Nat).getD (Table.Config.loadBound ⟨2, 0, 3⟩) = 6 := by decide
  have hfour : (some 4).getD (Table.Config.loadBound ⟨2, 0, 3⟩) = 4 := rfl
  have hseven : (some 7).getD (Table.Config.loadBound ⟨2, 0, 3⟩) = 7 := rfl
  obtain ⟨-, hall, hnever, -⟩ := run_exact hc hlength hnone 2
  obtain ⟨-, hsome, hnever', -⟩ := run_exact hc hlength hfour 1
  obtain ⟨-, -, -, hmany, -⟩ := run_exact hc hlength hseven 1
  exact ⟨hc, hnever (.inl (by decide)), hall (by decide) (hnever (.inl (by decide))),
    hsome (by decide) (hnever' (.inl (by decide))), hmany (by decide)⟩

end StateSpace.SelfTest
