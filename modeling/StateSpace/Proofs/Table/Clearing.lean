import StateSpace.Proofs.Table.Refinement

/-!
# Clearing a table makes it as good as new

Clearing empties the slots of the initial capacity only, so a cleared table still holds whatever was stored in later
slots. Two tables are alike (`Alike`) if they differ at most in slots that are not in use. A probe stays within the
slots in use, and growth empties the slots that it brings into use, so an operation answers the same on two tables that
are alike and leaves two tables that are alike (`alike_act`). A cleared table is alike to a new one (`alike_clear`), and
no sequence of commands tells them apart (`trace_clear`).
-/

namespace StateSpace.Table

/-- The tables differ at most in slots that are not in use. -/
structure Alike (t t' : Table) : Prop where
  /-- They differ at most in their slots. -/
  rest_eq : t' = { t with slots := t'.slots }
  size_eq : t'.slots.size = t.slots.size
  slot_eq : ∀ i < t.capacity, t'.slot i = t.slot i

/-- The same answer, and tables that are alike. -/
def SameResult {α : Type} (r r' : α × Table) : Prop := r'.1 = r.1 ∧ Alike r.2 r'.2

/-- A lookup function is blind if it does not look at slots that are not in use. -/
def Blind (look : Table → State → UInt32 → Lookup × Table) : Prop :=
  ∀ t t' key hash, Alike t t' → SameResult (look t key hash) (look t' key hash)

variable {t t' : Table}

theorem Alike.refl (t : Table) : Alike t t := ⟨rfl, rfl, fun _ _ => rfl⟩

theorem Alike.capacity_eq (h : Alike t t') : t'.capacity = t.capacity := by
  rw [h.rest_eq]
  rfl

theorem Alike.config_eq (h : Alike t t') : t'.config = t.config := by rw [h.rest_eq]

theorem Alike.stats_eq (h : Alike t t') : t'.stats = t.stats := by
  rw [h.rest_eq]
  rfl

theorem Alike.symm (h : Alike t t') : Alike t' t where
  rest_eq := by
    rw [h.rest_eq]
  size_eq := h.size_eq.symm
  slot_eq := fun i hi => (h.slot_eq i (h.capacity_eq ▸ hi)).symm

theorem Alike.trans {t'' : Table} (h : Alike t t') (h' : Alike t' t'') : Alike t t'' where
  rest_eq := by
    rw [h'.rest_eq, h.rest_eq]
  size_eq := h'.size_eq.trans h.size_eq
  slot_eq := fun i hi => (h'.slot_eq i (h.capacity_eq.symm ▸ hi)).trans (h.slot_eq i hi)

/-! ## Probes stay within the slots in use -/

theorem scan_congr {is : List Nat} (h : ∀ i ∈ is, t'.slot i = t.slot i) (key : State) (tag : UInt32)
    (seen : Option Nat) : t'.scan key tag is seen = t.scan key tag is seen := by
  induction is generalizing seen with
  | nil => rfl
  | cons i is ih =>
    have ih := ih fun j hj => h j (List.mem_cons_of_mem i hj)
    simp only [scan, h i List.mem_cons_self, ih]

theorem Alike.probeFrom_eq (h : Alike t t') (key : State) (tag : UInt32) (left : Nat) (attempt hash : UInt32) :
    t'.probeFrom key tag left attempt hash = t.probeFrom key tag left attempt hash := by
  induction left generalizing attempt hash with
  | zero => rfl
  | succ left ih =>
    have hslots : ∀ i ∈ window t.capacity hash, t'.slot i = t.slot i := fun i hi => h.slot_eq i (lt_of_mem_window hi)
    simp only [probeFrom, h.capacity_eq, scan_congr hslots, ih]

theorem Alike.probe_eq (h : Alike t t') (key : State) (hash : UInt32) : t'.probe key hash = t.probe key hash :=
  h.probeFrom_eq ..

/-- A key is found in a slot in use, whatever its hash. -/
theorem lt_of_probe_hit {key : State} {hash : UInt32} {i : Nat} {tombstone : Option Nat}
    (h : t.probe key hash = .hit i tombstone) : i < t.capacity := by
  have hp := t.probed_probeFrom key (Fingerprint.tagOf hash) probeAttempts 0 (Fingerprint.tagOf hash)
  rw [probe] at h
  rw [h] at hp
  generalize hws : windowsFrom t.capacity key probeAttempts 0 (Fingerprint.tagOf hash) = ws at hp
  cases hp with
  | hit hw _ _ =>
    have hmem : i ∈ (windowsFrom t.capacity key probeAttempts 0 (Fingerprint.tagOf hash)).flatten := by
      rw [hws, hw]
      simp
    exact lt_of_mem_windowsFrom hmem

/-! ## Changing slots -/

theorem alike_occupy (h : Alike t t') (i : Nat) (key : State) (hash : UInt32) :
    Alike (t.occupy i key hash) (t'.occupy i key hash) where
  rest_eq := by
    rw [h.rest_eq]
    rfl
  size_eq := by simp [occupy, h.size_eq]
  slot_eq := fun j hj => by
    have hslot : t'.slot j = t.slot j := h.slot_eq j hj
    unfold slot at hslot
    simp only [occupy, slot, getD_setIfInBounds, h.size_eq, hslot]

theorem alike_vacate (h : Alike t t') (i : Nat) : Alike (t.vacate i) (t'.vacate i) where
  rest_eq := by
    rw [h.rest_eq]
    rfl
  size_eq := by simp [vacate, h.size_eq]
  slot_eq := fun j hj => by
    have hslot : t'.slot j = t.slot j := h.slot_eq j hj
    unfold slot at hslot
    simp only [vacate, slot, getD_setIfInBounds, h.size_eq, hslot]

theorem alike_relocate (h : Alike t t') {i : Nat} (hi : i < t.capacity) (j : Nat) :
    Alike (t.relocate i j) (t'.relocate i j) where
  rest_eq := by
    rw [h.rest_eq]
    rfl
  size_eq := by simp [relocate, h.size_eq]
  slot_eq := fun k hk => by
    have hslot : t'.slot k = t.slot k := h.slot_eq k hk
    have hmoved := h.slot_eq i hi
    unfold slot at hslot hmoved
    simp only [relocate, slot, getD_setIfInBounds, Array.size_setIfInBounds, h.size_eq, hslot, hmoved]

theorem alike_insertAt (h : Alike t t') (i : Nat) (onTombstone : Bool) (key : State) (hash : UInt32) :
    Alike (t.insertAt i onTombstone key hash) (t'.insertAt i onTombstone key hash) := by
  have hcounted : Alike { t with reclaimed := t.reclaimed + onTombstone.toNat }
      { t' with reclaimed := t'.reclaimed + onTombstone.toNat } := by
    refine ⟨?_, h.size_eq, h.slot_eq⟩
    rw [h.rest_eq]
  exact alike_occupy hcounted i key hash

/-! ## Growth empties what it brings into use -/

theorem Alike.staged_eq (h : Alike t t') : t'.staged = t.staged := by
  unfold staged
  rw [h.capacity_eq]
  refine List.filterMap_congr fun i hi => ?_
  unfold displaced
  rw [h.slot_eq i (List.mem_range.1 hi)]

theorem Alike.tombstones_eq (h : Alike t t') : t'.tombstones = t.tombstones := by
  unfold tombstones
  rw [h.capacity_eq]
  refine List.countP_congr fun i hi => ?_
  rw [h.slot_eq i (List.mem_range.1 hi)]

theorem alike_doubled (h : Alike t t') : Alike t.doubled t'.doubled where
  rest_eq := by
    unfold doubled
    rw [h.staged_eq, h.tombstones_eq, h.rest_eq]
  size_eq := by
    unfold doubled
    rw [size_updateBelow, size_updateBelow, h.size_eq]
  slot_eq := fun i hi => by
    rw [capacity_doubled] at hi
    rw [slot_doubled, slot_doubled, h.capacity_eq, if_pos hi, if_pos hi]
    -- the old slots agree, and the new ones are emptied whatever they hold
    by_cases hold : i < t.capacity
    · rw [h.slot_eq i hold]
    · have hnew : 2 * t.capacity ≤ 2 * i := by omega
      unfold settled
      rw [if_pos hnew, if_pos hnew]

section

variable {look : Table → State → UInt32 → Lookup × Table}

theorem alike_putBack (hlook : Blind look) (h : Alike t t') (entry : UInt32 × State) :
    Alike (putBack look t entry) (putBack look t' entry) := by
  obtain ⟨hanswer, htable⟩ := hlook t t' entry.2 entry.1 h
  unfold putBack
  rw [h.probe_eq]
  split
  · exact alike_occupy h ..
  · generalize look t entry.2 entry.1 = r at hanswer htable
    generalize look t' entry.2 entry.1 = r' at hanswer htable
    obtain ⟨answer, u⟩ := r
    obtain ⟨answer', u'⟩ := r'
    cases hanswer
    cases answer with
    | inserted => exact htable
    | found => exact htable
    | full =>
      have hrest : u' = { u with slots := u'.slots } := htable.rest_eq
      refine ⟨?_, htable.size_eq, htable.slot_eq⟩
      dsimp only
      rw [hrest]

theorem alike_foldl_putBack (hlook : Blind look) (entries : List (UInt32 × State)) (h : Alike t t') :
    Alike (entries.foldl (putBack look) t) (entries.foldl (putBack look) t') := by
  induction entries generalizing t t' with
  | nil => exact h
  | cons entry rest ih => exact ih (alike_putBack hlook h entry)

theorem alike_growWith (hlook : Blind look) (h : Alike t t') : Alike (growWith look t) (growWith look t') := by
  have hfold := alike_foldl_putBack hlook t.staged (alike_doubled h)
  unfold growWith
  rw [h.staged_eq]
  refine ⟨?_, hfold.size_eq, hfold.slot_eq⟩
  dsimp only
  rw [hfold.rest_eq]

end

/-! ## Lookup -/

theorem sameResult_lookupOr {grow grow' : Table → Lookup × Table} (h : Alike t t')
    (hgrow : SameResult (grow t) (grow' t')) (key : State) (hash : UInt32) :
    SameResult (lookupOr grow t key hash) (lookupOr grow' t' key hash) := by
  have hroom : t'.hasRoom = t.hasRoom := by
    rw [h.rest_eq]
    rfl
  unfold lookupOr
  rw [h.probe_eq, hroom]
  split
  · exact ⟨rfl, h⟩
  · rename_i hp
    exact ⟨rfl, alike_relocate h (lt_of_probe_hit hp) _⟩
  · split
    · exact ⟨rfl, alike_insertAt h ..⟩
    · exact hgrow
  · exact hgrow

theorem blind_lookupWithin (n : Nat) : Blind (lookupWithin n) := by
  induction n with
  | zero => exact fun t t' key hash h => sameResult_lookupOr h ⟨rfl, h⟩ key hash
  | succ n ih =>
    intro t t' key hash h
    refine sameResult_lookupOr h ?_ key hash
    have hpow2 : t'.pow2 = t.pow2 := by rw [h.rest_eq]
    rw [hpow2, h.config_eq]
    split
    · exact ih _ _ key hash (alike_growWith ih h)
    · exact ⟨rfl, h⟩

theorem Alike.doublingsLeft_eq (h : Alike t t') : t'.doublingsLeft = t.doublingsLeft := by
  rw [h.rest_eq]
  rfl

theorem sameResult_lookupKey (h : Alike t t') (key : State) : SameResult (t.lookupKey key) (t'.lookupKey key) := by
  unfold lookupKey lookupHashed
  rw [h.doublingsLeft_eq]
  exact blind_lookupWithin _ t t' key _ h

/-! ## Operations -/

theorem sameResult_resize (h : Alike t t') : SameResult t.resize t'.resize := by
  unfold resize
  rw [h.doublingsLeft_eq]
  split
  · exact ⟨rfl, h⟩
  · exact ⟨rfl, alike_growWith (blind_lookupWithin _) h⟩

theorem sameResult_removeKey (h : Alike t t') (key : State) : SameResult (t.removeKey key) (t'.removeKey key) := by
  unfold removeKey
  rw [h.probe_eq]
  split
  · exact ⟨rfl, alike_vacate h _⟩
  · exact ⟨rfl, h⟩

/-- Clearing depends on the geometry only, as far as the slots in use go. -/
theorem alike_clear_clear (hconfig : t'.config = t.config) (hsize : t'.slots.size = t.slots.size) :
    Alike t.clear t'.clear where
  rest_eq := by simp only [clear, hconfig]
  size_eq := (size_updateBelow ..).trans (hsize.trans (size_updateBelow ..).symm)
  slot_eq := fun i hi => by
    have hi' : i < t'.clear.capacity := by
      simpa only [capacity, clear, hconfig] using hi
    rw [slot_clear hi, slot_clear hi']

/-- Every operation answers the same on two tables that are alike, and leaves two tables that are alike. -/
theorem alike_act (h : Alike t t') (op : Op) : SameResult (t.act op) (t'.act op) := by
  cases op with
  | insert key =>
    obtain ⟨hanswer, htable⟩ := sameResult_lookupKey h key
    exact ⟨congrArg Answer.lookup hanswer, htable⟩
  | contains key =>
    refine ⟨?_, h⟩
    simp only [act, hasKey, h.probe_eq]
  | remove key =>
    obtain ⟨hanswer, htable⟩ := sameResult_removeKey h key
    exact ⟨congrArg Answer.bool hanswer, htable⟩
  | resize =>
    obtain ⟨hanswer, htable⟩ := sameResult_resize h
    exact ⟨congrArg Answer.bool hanswer, htable⟩
  | clear => exact ⟨rfl, alike_clear_clear h.config_eq h.size_eq⟩

theorem alike_apply (h : Alike t t') (op : Op) : SameResult (t.apply op) (t'.apply op) := by
  have hcheck : t'.check op = t.check op := by simp only [check, checkLength, h.config_eq]
  unfold apply
  rw [hcheck]
  split
  · exact ⟨rfl, h⟩
  · obtain ⟨hanswer, htable⟩ := alike_act h op
    exact ⟨congrArg Except.ok hanswer, htable⟩

theorem alike_actOn (h : Alike t t') (op : KeyOp) (s : Series) : SameResult (t.actOn op s) (t'.actOn op s) := by
  unfold actOn
  generalize (#[] : Array Answer) = answers
  induction s.keys generalizing answers t t' with
  | nil => exact ⟨rfl, h⟩
  | cons key keys ih =>
    obtain ⟨hanswer, htable⟩ := alike_act h (op.on key)
    simp only [List.foldl_cons, hanswer]
    exact ih htable _

theorem alike_perform (h : Alike t t') (command : Command) :
    SameResult (t.perform command) (t'.perform command) := by
  cases command with
  | op op =>
    obtain ⟨hanswer, htable⟩ := alike_apply h op
    unfold perform
    dsimp only
    generalize t.apply op = r at hanswer htable
    generalize t'.apply op = r' at hanswer htable
    obtain ⟨answer, u⟩ := r
    obtain ⟨answer', u'⟩ := r'
    cases hanswer
    cases answer with
    | error wrong => exact ⟨rfl, htable⟩
    | ok answer => exact ⟨rfl, htable⟩
  | series op keys =>
    have hwrong : keys.wrongLength? t' = keys.wrongLength? t := by simp only [Series.wrongLength?, h.config_eq]
    unfold perform
    dsimp only
    rw [hwrong]
    split
    · exact ⟨rfl, h⟩
    · obtain ⟨hanswer, htable⟩ := alike_actOn h op keys
      exact ⟨congrArg Reply.answers hanswer, htable⟩
  | summary =>
    refine ⟨?_, h⟩
    simp only [perform, summary, h.config_eq, h.stats_eq]

/-! ## Sequences of commands -/

/-- The replies to commands, each with the statistics after it. -/
def trace (t : Table) : List Command → List (Reply × Stats)
  | [] => []
  | command :: rest =>
    let (reply, t) := t.perform command
    (reply, t.stats) :: t.trace rest

/-- No sequence of commands tells two tables that are alike apart. -/
theorem Alike.trace_eq (h : Alike t t') (commands : List Command) : t'.trace commands = t.trace commands := by
  induction commands generalizing t t' with
  | nil => rfl
  | cons command rest ih =>
    obtain ⟨hreply, htable⟩ := alike_perform h command
    simp only [trace, hreply, htable.stats_eq, ih htable]

/-- Clearing a table of good geometry gives a table that is alike to a new one. -/
theorem alike_clear (h : t.Geometry) : Alike (empty t.config) t.clear where
  rest_eq := rfl
  size_eq := by
    rw [clear, size_updateBelow, h.size_eq]
    simp [empty]
  slot_eq := fun i hi => by rw [slot_empty, slot_clear hi]

/-- A table that operations made of a new one has a geometry of which a new table can be made. -/
theorem Reachable.create_config (h : t.Reachable) : ∃ memory, Table.create t.config memory = .ok (empty t.config) := by
  induction h with
  | @create config memory t hc =>
    obtain ⟨-, rfl⟩ := create_eq_ok hc
    exact ⟨memory, hc⟩
  | apply op ht ih => rwa [config_apply ht.wellFormed op]

/-- **A cleared table is as good as new.** Clearing leaves the slots from the initial capacity on as they are, whatever
a history of operations stored there, and yet every sequence of commands gets the same replies from the cleared table
as from any new one of its geometry, with the same statistics after each of them; and a new one can be made. -/
theorem trace_clear (h : t.Reachable) :
    (∀ i, t.config.initialCapacity ≤ i → t.clear.slot i = t.slot i) ∧
      (∃ memory new, Table.create t.config memory = .ok new) ∧
      ∀ memory new, Table.create t.config memory = .ok new →
        ∀ commands, t.clear.trace commands = new.trace commands := by
  obtain ⟨memory, hnew⟩ := h.create_config
  refine ⟨fun i hi => ?_, ⟨memory, _, hnew⟩, fun memory' new hnew' commands => ?_⟩
  · simp only [clear, slot, Array.getD_eq_getD_getElem?, getElem?_updateBelow, if_neg (Nat.not_lt.2 hi)]
  · obtain ⟨-, rfl⟩ := create_eq_ok hnew'
    exact (alike_clear h.wellFormed.toGeometry).trace_eq commands

/-- A table that has grown from four slots to eight, and has members and a tombstone in the later four. -/
def regrown : Table := ((empty ⟨1, 2, 3⟩).run (crowding.take 13 ++ [.remove [7]])).2

/-- Commands that bring the later slots back into use. -/
def refilling : List Command :=
  [.op (.contains [10]), .series .insert ⟨7, 5, [(0, 1)]⟩, .op .resize, .op (.remove [10]), .op (.insert [1, 2]),
    .summary]

theorem trace_clear_regrown : regrown.Reachable ∧ regrown.clear.slot 4 = .tombstone ∧
    regrown.clear.slot 6 = .entry (keyTag [10]) [10] ∧ regrown.trace refilling ≠ (empty ⟨1, 2, 3⟩).trace refilling ∧
    regrown.clear.trace refilling = (empty ⟨1, 2, 3⟩).trace refilling := by
  have hc : Table.create ⟨1, 2, 3⟩ = .ok (empty ⟨1, 2, 3⟩) := by decide
  have hreach : regrown.Reachable := (Reachable.create hc).run _
  have hconfig : regrown.config = ⟨1, 2, 3⟩ := by decide +kernel
  obtain ⟨hlater, -, htrace⟩ := trace_clear hreach
  rw [hconfig] at hlater htrace
  refine ⟨hreach, ?_, ?_, by decide +kernel, htrace _ _ hc refilling⟩
  · rw [hlater 4 (by decide)]
    decide +kernel
  · rw [hlater 6 (by decide)]
    decide +kernel

end StateSpace.Table
