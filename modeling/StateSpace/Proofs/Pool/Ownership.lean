import Mathlib.Data.List.Perm.Basic
import StateSpace.Pool
import StateSpace.Proofs.Explore.Clients

/-!
# Who has a table

A pool and a worker agree on where the worker's table is. Either the pool does not know the worker, or it knows it and
may keep a table for it, or the worker holds a table and the pool keeps none (`Fleet.Desk`). Every step preserves that
(`Sound.step`), whatever memory says when a table has to be made; `step_cases` lists all that a step can do. So a worker
never holds two tables, its table is always taken back, and the counters of the pool count what there is
(`exclusive_run`), also after checkouts that failed while others held their tables.
-/

namespace StateSpace

/-! ## What a pool knows -/

namespace Pool

variable {p : Pool} {w : WorkerId} {e : Entry}

/-- A new pool knows nobody. -/
theorem create_eq_ok {config : Table.Config} (hp : Pool.create config = .ok p) : p = ⟨config, []⟩ := by
  unfold Pool.create at hp
  split at hp
  · cases hp
    rfl
  · cases hp

/-- The workers that a pool knows. -/
def workers (p : Pool) : List WorkerId := p.entries.map Prod.fst

theorem entry_eq_none_iff : p.entry? w = none ↔ w ∉ p.workers := by
  unfold entry? workers
  simp only [Option.map_eq_none_iff, List.find?_eq_none, List.mem_map, decide_eq_true_eq]
  constructor
  · rintro h ⟨entry, hmem, hw⟩
    exact h entry hmem hw
  · exact fun h entry hmem hw => h ⟨entry, hmem, hw⟩

theorem mem_of_entry_eq_some (h : p.entry? w = some e) : (w, e) ∈ p.entries := by
  obtain ⟨⟨w', e'⟩, hfind, rfl⟩ := Option.map_eq_some_iff.1 h
  have hw : w' = w := by simpa using List.find?_some hfind
  exact hw ▸ List.mem_of_find?_eq_some hfind

/-- The table that is kept for a worker, be the worker known or not. -/
theorem table_getD : ((p.entry? w).getD {}).table = (p.entry? w).bind (·.table) := by
  cases p.entry? w <;> rfl

theorem entry_of_mem (hp : p.workers.Nodup) (h : (w, e) ∈ p.entries) : p.entry? w = some e := by
  cases hs : p.entry? w with
  | none => exact absurd (List.mem_map_of_mem h) (entry_eq_none_iff.1 hs)
  | some e' =>
    have heq := List.inj_on_of_nodup_map hp (mem_of_entry_eq_some hs) h rfl
    rw [(Prod.mk.inj heq).2]

theorem any_eq_true_iff : p.entries.any (·.1 = w) = true ↔ w ∈ p.workers := by
  simp [workers]

theorem entries_put_of_mem (hw : w ∈ p.workers) (e : Entry) :
    (p.put w e).entries = p.entries.map fun old => if old.1 = w then (w, e) else old :=
  if_pos (any_eq_true_iff.2 hw)

theorem entries_put_of_not_mem (hw : w ∉ p.workers) (e : Entry) : (p.put w e).entries = p.entries ++ [(w, e)] :=
  if_neg (mt any_eq_true_iff.1 hw)

/-- Putting in an entry changes what the pool knows of that worker only. -/
theorem entry_put (p : Pool) (w : WorkerId) (e : Entry) (w' : WorkerId) :
    entry? (p.put w e) w' = if w' = w then some e else p.entry? w' := by
  by_cases hw : w ∈ p.workers
  · -- an entry that is replaced keeps its worker, so the search ends at the same place
    have hkey : ((fun entry : WorkerId × Entry => decide (entry.1 = w')) ∘
        fun old => if old.1 = w then (w, e) else old) = fun entry => decide (entry.1 = w') := by
      funext old
      by_cases hold : old.1 = w <;> simp [hold]
    unfold entry?
    rw [entries_put_of_mem hw, List.find?_map, hkey]
    cases hfind : p.entries.find? (·.1 = w') with
    | none =>
      have hnone : p.entry? w' = none := Option.map_eq_none_iff.2 hfind
      have hne : w' ≠ w := fun heq => entry_eq_none_iff.1 hnone (heq ▸ hw)
      simp [hne]
    | some old =>
      have hold : old.1 = w' := by simpa using List.find?_some hfind
      by_cases heq : w' = w <;> simp [hold, heq]
  · unfold entry?
    rw [entries_put_of_not_mem hw, List.find?_append]
    by_cases heq : w' = w
    · subst heq
      have hnone : p.entries.find? (·.1 = w') = none := Option.map_eq_none_iff.1 (entry_eq_none_iff.2 hw)
      simp [hnone]
    · simp [heq, Ne.symm heq]

theorem workers_put (p : Pool) (w : WorkerId) (e : Entry) :
    (p.put w e).workers = if w ∈ p.workers then p.workers else p.workers ++ [w] := by
  unfold workers
  split
  · rename_i hw
    rw [entries_put_of_mem hw, List.map_map]
    refine List.map_congr_left fun old _ => ?_
    by_cases hold : old.1 = w <;> simp [hold]
  · rename_i hw
    rw [entries_put_of_not_mem hw, List.map_append]
    rfl

theorem nodup_workers_put (hp : p.workers.Nodup) (w : WorkerId) (e : Entry) : (p.put w e).workers.Nodup := by
  rw [workers_put]
  split
  · exact hp
  · rename_i hw
    rw [List.nodup_append]
    refine ⟨hp, List.nodup_singleton w, fun w' hmem w'' hlast heq => hw ?_⟩
    rw [← List.mem_singleton.1 hlast, ← heq]
    exact hmem

theorem nodup_workers_shutdown (hp : p.workers.Nodup) : p.shutdown.2.workers.Nodup :=
  hp.sublist (List.filter_sublist.map _)

/-- A shutdown forgets the workers whose tables are not checked out. -/
theorem entry_shutdown (hp : p.workers.Nodup) (w : WorkerId) :
    entry? (p.shutdown.2) w = (p.entry? w).filter (·.checkedOut) := by
  cases hs : entry? (p.shutdown.2) w with
  | some e =>
    obtain ⟨hmem, hout⟩ := List.mem_filter.1 (mem_of_entry_eq_some hs)
    rw [entry_of_mem hp hmem, Option.filter_some, if_pos hout]
  | none =>
    cases ha : p.entry? w with
    | none => rfl
    | some e =>
      by_cases hout : e.checkedOut
      · have hmem : (w, e) ∈ p.shutdown.2.entries := List.mem_filter.2 ⟨mem_of_entry_eq_some ha, hout⟩
        exact absurd (List.mem_map_of_mem hmem) (entry_eq_none_iff.1 hs)
      · rw [Option.filter_some, if_neg hout]

/-- What one count counts is split between two others. -/
theorem countP_eq_add {α : Type} {l : List α} {q r s : α → Bool}
    (h : ∀ a ∈ l, (q a).toNat = (r a).toNat + (s a).toNat) : l.countP q = l.countP r + l.countP s := by
  have hite (b : Bool) : (if b = true then 1 else 0) = b.toNat := by cases b <;> rfl
  induction l with
  | nil => rfl
  | cons a rest ih =>
    have ha := h a List.mem_cons_self
    have hrest := ih fun b hb => h b (List.mem_cons_of_mem _ hb)
    simp only [List.countP_cons, hite]
    omega

/-- Where no table that is checked out is kept, the tables are those checked out and those kept. -/
theorem tables_eq (h : ∀ entry ∈ p.entries, entry.2.checkedOut = true → entry.2.table = none) :
    p.snapshot.tables = p.snapshot.checkedOut + p.entries.countP (·.2.table.isSome) := by
  refine countP_eq_add fun entry hmem => ?_
  have hentry := h entry hmem
  unfold Entry.hasTable
  cases hout : entry.2.checkedOut with
  | true => simp [hentry hout]
  | false => simp

end Pool

namespace Fleet

open Pool (Entry Loan)

/-! ## What the workers hold -/

/-- The table that a worker holds. -/
def heldBy (f : Fleet) (w : WorkerId) : Option Table := (f.held.find? (·.worker = w)).map (·.table)

/-- The workers that hold a table. -/
def holders (f : Fleet) : List WorkerId := f.held.map (·.worker)

/-- The table of a worker, be it with the worker or kept for it. -/
def tableOf (f : Fleet) (w : WorkerId) : Option Table := (f.heldBy w).or ((f.pool.entry? w).bind (·.table))

/-- The fleet after the worker's table was taken away. -/
def without (f : Fleet) (w : WorkerId) : Fleet := { f with held := f.held.filter (·.worker ≠ w) }

variable {f : Fleet} {w : WorkerId} {t : Table}

theorem heldBy_eq_none_iff : f.heldBy w = none ↔ w ∉ f.holders := by
  simp [heldBy, holders]

theorem mem_holders_iff : w ∈ f.holders ↔ ∃ t, f.heldBy w = some t := by
  rw [← Option.ne_none_iff_exists', ne_eq, heldBy_eq_none_iff, not_not]

theorem tableOf_eq_none_iff :
    f.tableOf w = none ↔ f.heldBy w = none ∧ (f.pool.entry? w).bind (·.table) = none := Option.or_eq_none_iff

theorem take?_of_none (h : f.heldBy w = none) : f.take? w = none := by
  have hfind : f.held.find? (·.worker = w) = none := Option.map_eq_none_iff.1 h
  unfold take?
  rw [hfind]

theorem take?_of_some (h : f.heldBy w = some t) : f.take? w = some (⟨w, t⟩, f.without w) := by
  obtain ⟨⟨w', t'⟩, hfind, rfl⟩ := Option.map_eq_some_iff.1 h
  have hw : w' = w := by simpa using List.find?_some hfind
  unfold take? without
  rw [hfind, hw]

@[simp]
theorem pool_hold (f : Fleet) (loan : Loan) : (f.hold loan).pool = f.pool := rfl

@[simp]
theorem pool_without (f : Fleet) (w : WorkerId) : (f.without w).pool = f.pool := rfl

theorem heldBy_hold (f : Fleet) (loan : Loan) (w : WorkerId) :
    (f.hold loan).heldBy w = if w = loan.worker then some loan.table else f.heldBy w := by
  unfold heldBy hold
  rw [List.find?_cons]
  by_cases h : w = loan.worker
  · simp [h]
  · simp [h, Ne.symm h]

theorem heldBy_without (f : Fleet) (w w' : WorkerId) :
    (f.without w).heldBy w' = if w' = w then none else f.heldBy w' := by
  unfold heldBy without
  rw [List.find?_filter]
  by_cases h : w' = w
  · subst h
    simp
  · rw [if_neg h]
    congr 2
    funext loan
    by_cases hloan : loan.worker = w' <;> simp [hloan, h]

theorem nodup_holders_without (h : f.holders.Nodup) (w : WorkerId) : (f.without w).holders.Nodup :=
  h.sublist (List.filter_sublist.map _)

theorem nodup_holders_hold (h : f.holders.Nodup) {loan : Loan} (hnone : f.heldBy loan.worker = none) :
    (f.hold loan).holders.Nodup :=
  List.nodup_cons.2 ⟨heldBy_eq_none_iff.1 hnone, h⟩

/-! ## Where a table is -/

/-- What the pool knows of a worker, and what the worker holds. -/
inductive Desk (config : Table.Config) : Option Entry → Option Table → Prop
  | unknown : Desk config none none
  /-- The pool knows the worker, and keeps its table if there is one. -/
  | idle {e : Entry} : e.checkedOut = false → (∀ t, e.table = some t → t.Used config) → Desk config (some e) none
  /-- The worker holds its table. -/
  | lent {e : Entry} {t : Table} : e.checkedOut = true → e.table = none → t.Used config →
      Desk config (some e) (some t)

/-- What every step preserves. -/
structure Sound (config : Table.Config) (f : Fleet) : Prop where
  config_eq : f.pool.config = config
  nodup_workers : f.pool.workers.Nodup
  nodup_holders : f.holders.Nodup
  desk : ∀ w, Desk config (f.pool.entry? w) (f.heldBy w)

/-- The worker of a step that works on its table, and the work. -/
def Step.work? : Step → Option (WorkerId × (Table → Reply × Table))
  | .table w command => some (w, fun t =>
    let (reply, t) := t.perform command
    (.table reply t.stats, t))
  | .explore w model request => some (w, fun t =>
    let o := Explorer.explore {} t model Array.push request #[]
    (.explored o.sink o.result o.table.stats, o.table))
  | _ => none

/-- What a step of a sound fleet replies, and what it leads to. -/
inductive StepCase (config : Table.Config) (f : Fleet) : Step → Reply → Fleet → Prop
  | inUse {w : WorkerId} {memory : Table.Memory} {t : Table} : f.heldBy w = some t →
      StepCase config f (.checkout w memory) (.refused (.inUse w)) f
  /-- No table is kept and none can be made, but the pool knows the worker now. -/
  | noTable {w : WorkerId} {memory : Table.Memory} {e : Entry} {error : Table.Error} : f.heldBy w = none →
      (f.pool.entry? w).getD {} = e → e.checkedOut = false → e.table = none →
      Table.create config memory = .error error →
      StepCase config f (.checkout w memory) (.refused (.table error)) { f with pool := f.pool.put w e }
  /-- The worker gets a table as good as new, and if none is kept for it, it is a new one. -/
  | checkedOut {w : WorkerId} {memory : Table.Memory} {e : Entry} {t : Table} : f.heldBy w = none →
      (f.pool.entry? w).getD {} = e → e.checkedOut = false →
      (e.table = none → Table.create config memory = .ok (Table.empty config)) →
      Table.Alike (Table.empty config) t → t.Used config →
      StepCase config f (.checkout w memory) (.checkedOut w (Table.empty config).summary)
        (hold { f with pool := f.pool.put w ⟨none, true, e.checkouts + 1⟩ } ⟨w, t⟩)
  | nothingHeld {w : WorkerId} : f.heldBy w = none → StepCase config f (.giveBack w) (.gaveBack false) f
  /-- The pool finds the worker's entry and keeps the table there. -/
  | gaveBack {w : WorkerId} {e : Entry} {t : Table} : f.heldBy w = some t → f.pool.entry? w = some e →
      e.checkedOut = true → t.Used config →
      StepCase config f (.giveBack w) (.gaveBack true)
        (without { f with pool := f.pool.put w { e with table := some t, checkedOut := false } } w)
  | notHeld {s : Step} {w : WorkerId} {work : Table → Reply × Table} : s.work? = some (w, work) → f.heldBy w = none →
      StepCase config f s .notHeld f
  | worked {s : Step} {w : WorkerId} {work : Table → Reply × Table} {t : Table} : s.work? = some (w, work) →
      f.heldBy w = some t → StepCase config f s (work t).1 ((f.without w).hold ⟨w, (work t).2⟩)
  | shutdown : StepCase config f .shutdown (.dropped f.pool.shutdown.1) { f with pool := f.pool.shutdown.2 }
  | describe : StepCase config f .describe (.text f.pool.text) f

section

variable {config : Table.Config} {s : Step} {work : Table → Reply × Table}

/-! ## Work on a table -/

theorem used_work (hs : s.work? = some (w, work)) (ht : t.Used config) : (work t).2.Used config := by
  cases s with
  | table w command =>
    cases hs
    exact ht.perform command
  | explore w model request =>
    cases hs
    exact ht.explore {} model Array.push request #[]
  | checkout | giveBack | shutdown | describe => cases hs

/-- Work does not tell tables that are alike apart. -/
theorem sameResult_work (hs : s.work? = some (w, work)) {t' : Table} (h : Table.Alike t t') :
    Table.SameResult (work t) (work t') := by
  cases s with
  | table w command =>
    cases hs
    obtain ⟨hreply, htable⟩ := Table.alike_perform h command
    refine ⟨?_, htable⟩
    simp only [hreply, htable.stats_eq]
  | explore w model request =>
    cases hs
    obtain ⟨hresult, hsink, htable⟩ := Explorer.alike_explore {} {} model Array.push request h #[]
    refine ⟨?_, htable⟩
    simp only [hresult, hsink, htable.stats_eq]
  | checkout | giveBack | shutdown | describe => cases hs

theorem step_of_work (hs : s.work? = some (w, work)) :
    f.step s = match f.heldBy w with
      | none => (.notHeld, f)
      | some t => ((work t).1, (f.without w).hold ⟨w, (work t).2⟩) := by
  cases hheld : f.heldBy w with
  | none =>
    have htake := take?_of_none hheld
    cases s with
    | table | explore =>
      cases hs
      simp only [step, htake]
    | checkout | giveBack | shutdown | describe => cases hs
  | some t =>
    have htake := take?_of_some hheld
    cases s with
    | table | explore =>
      cases hs
      simp only [step, htake]
    | checkout | giveBack | shutdown | describe => cases hs

/-! ## One step -/

theorem Desk.of_none {known : Option Entry} (h : Desk config known none) :
    (known.getD {}).checkedOut = false ∧ ∀ t, (known.getD {}).table = some t → t.Used config := by
  cases h with
  | unknown => exact ⟨rfl, fun t ht => by cases ht⟩
  | idle hout htable => exact ⟨hout, htable⟩

/-- The table of an entry that is marked as checked out is with the worker. -/
theorem Desk.of_checkedOut {e : Entry} {held : Option Table} (h : Desk config (some e) held)
    (hout : e.checkedOut = true) : e.table = none ∧ ∃ t, held = some t := by
  cases h with
  | idle hidle => rw [hout] at hidle; cases hidle
  | lent _ htable => exact ⟨htable, _, rfl⟩

theorem Desk.of_some {known : Option Entry} (h : Desk config known (some t)) :
    ∃ e, known = some e ∧ e.checkedOut = true ∧ e.table = none ∧ t.Used config := by
  cases h with
  | lent hout htable ht => exact ⟨_, rfl, hout, htable, ht⟩

/-- A shutdown forgets a worker that holds nothing, and leaves any other alone. -/
theorem Desk.shutdown {known : Option Entry} {held : Option Table} (h : Desk config known held) :
    Desk config (known.filter (·.checkedOut)) held ∧ (known.filter (·.checkedOut) = none ↔ held = none) := by
  cases h with
  | unknown => exact ⟨.unknown, by simp⟩
  | idle hout =>
    rw [Option.filter_some, if_neg (by simp [hout])]
    exact ⟨.unknown, by simp⟩
  | lent hout htable ht =>
    rw [Option.filter_some, if_pos hout]
    exact ⟨.lent hout htable ht, by simp⟩

theorem checkout_of_held (h : Sound config f) (hheld : f.heldBy w = some t) (memory : Table.Memory) :
    f.pool.checkout w memory = (.error (.inUse w), f.pool) := by
  obtain ⟨e, hentry, hout, -⟩ := (hheld ▸ h.desk w).of_some
  unfold Pool.checkout
  rw [hentry]
  exact if_pos hout

theorem Sound.case_checkout (h : Sound config f) (w : WorkerId) (memory : Table.Memory) :
    StepCase config f (.checkout w memory) (f.step (.checkout w memory)).1 (f.step (.checkout w memory)).2 := by
  cases hheld : f.heldBy w with
  | some t =>
    simp only [step, checkout_of_held h hheld]
    exact .inUse hheld
  | none =>
    obtain ⟨hout, htable⟩ := (hheld ▸ h.desk w).of_none
    simp only [step, Pool.checkout]
    generalize he : (f.pool.entry? w).getD {} = e at hout htable ⊢
    rw [if_neg (by simp [hout])]
    cases ht : e.table with
    | some t =>
      have hused := htable t ht
      have hsummary : t.clear.summary = (Table.empty config).summary :=
        Table.indistinct_alike.summary_eq hused.alike_clear
      dsimp only
      rw [hsummary]
      refine .checkedOut hheld he hout (fun hnone => ?_) hused.alike_clear hused.clear
      rw [ht] at hnone
      cases hnone
    | none =>
      dsimp only
      rw [h.config_eq]
      cases hc : Table.create config memory with
      | ok t =>
        obtain ⟨-, rfl⟩ := Table.create_eq_ok hc
        exact .checkedOut hheld he hout (fun _ => hc) (.refl _) (.of_create hc)
      | error error => exact .noTable hheld he hout ht hc

theorem Sound.case_giveBack (h : Sound config f) (w : WorkerId) :
    StepCase config f (.giveBack w) (f.step (.giveBack w)).1 (f.step (.giveBack w)).2 := by
  cases hheld : f.heldBy w with
  | none =>
    simp only [step, take?_of_none hheld]
    exact .nothingHeld hheld
  | some t =>
    obtain ⟨e, hentry, hout, -, ht⟩ := (hheld ▸ h.desk w).of_some
    have hback : f.pool.giveBack ⟨w, t⟩ = f.pool.put w { e with table := some t, checkedOut := false } := by
      simp only [Pool.giveBack, hentry]
    simp only [step, take?_of_some hheld]
    unfold without
    rw [hback]
    exact .gaveBack hheld hentry hout ht

/-- All that a step of a sound fleet can do. -/
theorem step_cases (h : Sound config f) (s : Step) : StepCase config f s (f.step s).1 (f.step s).2 := by
  have hwork : ∀ w work, s.work? = some (w, work) → StepCase config f s (f.step s).1 (f.step s).2 := by
    intro w work hs
    rw [step_of_work hs]
    cases hheld : f.heldBy w with
    | none => exact .notHeld hs hheld
    | some t => exact .worked hs hheld
  cases s with
  | checkout w memory => exact h.case_checkout w memory
  | giveBack w => exact h.case_giveBack w
  | table w command => exact hwork _ _ rfl
  | explore w model request => exact hwork _ _ rfl
  | shutdown => exact .shutdown
  | describe => exact .describe

/-- A fleet stays sound if what the pool knows of one worker is replaced together with what the worker holds. -/
theorem Sound.of_put (h : Sound config f) {f' : Fleet} {e : Entry} (hpool : f'.pool = f.pool.put w e)
    (hholders : f'.holders.Nodup) (hdesk : Desk config (some e) (f'.heldBy w))
    (hothers : ∀ w', w' ≠ w → f'.heldBy w' = f.heldBy w') : Sound config f' where
  config_eq := by rw [hpool]; exact h.config_eq
  nodup_workers := by rw [hpool]; exact Pool.nodup_workers_put h.nodup_workers w e
  nodup_holders := hholders
  desk := fun w' => by
    rw [hpool, Pool.entry_put]
    by_cases heq : w' = w
    · rw [if_pos heq, heq]
      exact hdesk
    · rw [if_neg heq, hothers w' heq]
      exact h.desk w'

/-- Every step keeps a fleet sound. -/
theorem Sound.step (h : Sound config f) (s : Step) : Sound config (f.step s).2 := by
  have hcase := step_cases h s
  generalize (f.step s).1 = reply at hcase
  generalize (f.step s).2 = f' at hcase
  cases hcase with
  | inUse | nothingHeld | notHeld | describe => exact h
  | @noTable w memory e error hheld he hout htable =>
    refine h.of_put rfl h.nodup_holders ?_ fun w' hne => rfl
    show Desk config (some e) (f.heldBy w)
    rw [hheld]
    exact .idle hout fun t ht => by rw [htable] at ht; cases ht
  | checkedOut hheld he hout hc halike ht =>
    refine h.of_put rfl (nodup_holders_hold h.nodup_holders hheld) ?_ fun w' hne => ?_
    · rw [heldBy_hold, if_pos rfl]
      exact .lent rfl rfl ht
    · rw [heldBy_hold, if_neg hne]
      rfl
  | gaveBack hheld hentry hout ht =>
    refine h.of_put rfl (nodup_holders_without h.nodup_holders _) ?_ fun w' hne => ?_
    · rw [heldBy_without, if_pos rfl]
      exact .idle rfl fun t' ht' => by cases ht'; exact ht
    · rw [heldBy_without, if_neg hne]
      rfl
  | worked hs hheld =>
    rename_i w work t
    -- the table is taken away for the work, so the worker has none when it gets it back
    have hnone : (f.without w).heldBy w = none := by rw [heldBy_without, if_pos rfl]
    refine ⟨h.config_eq, h.nodup_workers, nodup_holders_hold (nodup_holders_without h.nodup_holders w) hnone,
      fun w' => ?_⟩
    rw [heldBy_hold, heldBy_without, pool_hold, pool_without]
    split
    · rename_i heq
      obtain ⟨e, hentry, hout, htable, ht⟩ := (hheld ▸ h.desk w).of_some
      rw [heq, hentry]
      exact .lent hout htable (used_work hs ht)
    · exact h.desk w'
  | shutdown =>
    refine ⟨h.config_eq, Pool.nodup_workers_shutdown h.nodup_workers, h.nodup_holders, fun w => ?_⟩
    dsimp only
    rw [Pool.entry_shutdown h.nodup_workers]
    exact (h.desk w).shutdown.1

/-- A worker that has a table after a step had one before, or it has just checked out a new one. -/
theorem Sound.tableOf_step (h : Sound config f) (hsome : (f.step s).2.tableOf w ≠ none) :
    f.tableOf w ≠ none ∨ ∃ memory, s = .checkout w memory ∧ Table.create config memory = .ok (Table.empty config) := by
  have hcase := step_cases h s
  generalize (f.step s).1 = reply at hcase
  generalize (f.step s).2 = f' at hcase hsome
  simp only [ne_eq, tableOf_eq_none_iff] at hsome ⊢
  cases hcase with
  | inUse | nothingHeld | notHeld | describe => exact .inl hsome
  | @noTable w' _ _ _ hheld _ _ htable =>
    by_cases heq : w = w'
    · subst heq
      exact absurd ⟨hheld, by simp [Pool.entry_put, htable]⟩ hsome
    · rw [Pool.entry_put, if_neg heq] at hsome
      exact .inl hsome
  | @checkedOut w' memory e _ _ he _ hnew =>
    by_cases heq : w = w'
    · subst heq
      cases htable : e.table with
      | none => exact .inr ⟨memory, rfl, hnew htable⟩
      | some t =>
        rw [← Pool.table_getD, he, htable]
        exact .inl fun hnone => by cases hnone.2
    · rw [heldBy_hold, if_neg heq, pool_hold, Pool.entry_put, if_neg heq] at hsome
      exact .inl hsome
  | @gaveBack w' _ _ hheld =>
    by_cases heq : w = w'
    · subst heq
      exact .inl fun hnone => by rw [hheld] at hnone; cases hnone.1
    · rw [heldBy_without, if_neg heq, pool_without, Pool.entry_put, if_neg heq] at hsome
      exact .inl hsome
  | @worked _ w' _ _ _ hheld =>
    by_cases heq : w = w'
    · subst heq
      exact .inl fun hnone => by rw [hheld] at hnone; cases hnone.1
    · rw [heldBy_hold, if_neg heq, heldBy_without, if_neg heq] at hsome
      exact .inl hsome
  | shutdown =>
    refine .inl fun hnone => hsome ⟨hnone.1, ?_⟩
    rw [Pool.entry_shutdown h.nodup_workers]
    cases hentry : f.pool.entry? w with
    | none => rfl
    | some e =>
      have htable : e.table = none := by simpa [hentry] using hnone.2
      by_cases hout : e.checkedOut <;> simp [Option.filter_some, hout, htable]

/-! ## All steps -/

theorem sound_create {pool : Pool} (hp : Pool.create config = .ok pool) : Sound config ⟨pool, []⟩ := by
  cases Pool.create_eq_ok hp
  exact ⟨rfl, List.nodup_nil, List.nodup_nil, fun w => .unknown⟩

theorem Sound.run (h : Sound config f) (steps : List Step) : Sound config (f.run steps).2 := by
  induction steps generalizing f with
  | nil => exact h
  | cons s rest ih => exact ih (h.step s)

/-! ## The counters -/

theorem Sound.table_of_checkedOut (h : Sound config f) {e : Entry} (hentry : f.pool.entry? w = some e)
    (hout : e.checkedOut = true) : e.table = none :=
  ((hentry ▸ h.desk w).of_checkedOut hout).1

/-- A shutdown keeps what is known of the workers that hold a table. -/
theorem Sound.workers_shutdown_perm (h : Sound config f) : f.pool.shutdown.2.workers.Perm f.holders := by
  rw [List.perm_ext_iff_of_nodup (Pool.nodup_workers_shutdown h.nodup_workers) h.nodup_holders]
  intro w
  rw [← not_iff_not, ← Pool.entry_eq_none_iff, ← heldBy_eq_none_iff, Pool.entry_shutdown h.nodup_workers]
  exact (h.desk w).shutdown.2

theorem Sound.checkedOut_eq (h : Sound config f) : f.pool.snapshot.checkedOut = f.held.length := by
  have hlength := h.workers_shutdown_perm.length_eq
  simpa [Pool.workers, holders, Pool.shutdown, Pool.snapshot, List.countP_eq_length_filter] using hlength

theorem Sound.tables_eq (h : Sound config f) :
    f.pool.snapshot.tables = f.held.length + f.pool.entries.countP (·.2.table.isSome) := by
  have hsplit : ∀ entry ∈ f.pool.entries, entry.2.checkedOut = true → entry.2.table = none := fun entry hmem =>
    h.table_of_checkedOut (Pool.entry_of_mem h.nodup_workers hmem)
  rw [← h.checkedOut_eq, Pool.tables_eq hsplit]

/-- A fleet in which nobody has two tables, and whose pool knows who has one. -/
structure Exclusive (f : Fleet) : Prop where
  nodup : f.holders.Nodup
  /-- The entries marked as checked out are those of the holders. -/
  checkedOut_iff : ∀ w, (∃ e, f.pool.entry? w = some e ∧ e.checkedOut = true) ↔ w ∈ f.holders
  table_eq : ∀ w e, f.pool.entry? w = some e → e.checkedOut = true → e.table = none
  /-- A checkout is refused to a holder, and to nobody else, whatever memory says. -/
  inUse_iff : ∀ w memory, (f.pool.checkout w memory).1 = .error (.inUse w) ↔ w ∈ f.holders
  /-- A checkout that is refused changes nothing. -/
  inUse_pool : ∀ w ∈ f.holders, ∀ memory, (f.pool.checkout w memory).2 = f.pool
  /-- The pool finds the entry of a holder that gives its table back, and keeps the table there. -/
  giveBack_eq : ∀ loan : Loan, loan.worker ∈ f.holders → ∃ e, f.pool.entry? loan.worker = some e ∧
    f.pool.giveBack loan = f.pool.put loan.worker { e with table := some loan.table, checkedOut := false }
  snapshot_checkedOut : f.pool.snapshot.checkedOut = f.held.length
  snapshot_tables : f.pool.snapshot.tables = f.held.length + f.pool.entries.countP (·.2.table.isSome)

theorem Sound.checkedOut_iff (h : Sound config f) (w : WorkerId) :
    (∃ e, f.pool.entry? w = some e ∧ e.checkedOut = true) ↔ w ∈ f.holders := by
  rw [mem_holders_iff]
  constructor
  · rintro ⟨e, hentry, hout⟩
    exact ((hentry ▸ h.desk w).of_checkedOut hout).2
  · rintro ⟨t, hheld⟩
    obtain ⟨e, hentry, hout, -⟩ := (hheld ▸ h.desk w).of_some
    exact ⟨e, hentry, hout⟩

theorem Sound.inUse_iff (h : Sound config f) (w : WorkerId) (memory : Table.Memory) :
    (f.pool.checkout w memory).1 = .error (.inUse w) ↔ w ∈ f.holders := by
  rw [mem_holders_iff]
  constructor
  · intro hrefused
    by_contra hnone
    have hheld : f.heldBy w = none := by simpa [Option.eq_none_iff_forall_ne_some] using hnone
    obtain ⟨hout, -⟩ := (hheld ▸ h.desk w).of_none
    unfold Pool.checkout at hrefused
    rw [if_neg (by simp [hout])] at hrefused
    split at hrefused
    · cases hrefused
    · split at hrefused <;> cases hrefused
  · rintro ⟨t, hheld⟩
    rw [checkout_of_held h hheld]

theorem Sound.exclusive (h : Sound config f) : Exclusive f where
  nodup := h.nodup_holders
  checkedOut_iff := h.checkedOut_iff
  table_eq := fun _ _ => h.table_of_checkedOut
  inUse_iff := h.inUse_iff
  inUse_pool := fun w hw memory => by
    obtain ⟨t, hheld⟩ := mem_holders_iff.1 hw
    rw [checkout_of_held h hheld]
  giveBack_eq := fun loan hw => by
    obtain ⟨e, hentry, -⟩ := (h.checkedOut_iff _).2 hw
    exact ⟨e, hentry, by simp only [Pool.giveBack, hentry]⟩
  snapshot_checkedOut := h.checkedOut_eq
  snapshot_tables := h.tables_eq

/-- **Tables are held exclusively.** Whatever steps are taken with a new pool, whatever memory says to each checkout,
and also when the pool is shut down while tables are held: nobody has two tables, the entries that are marked as checked
out are those of the holders and keep no table, a checkout is refused for being one too many to the holders only and
then changes nothing, a table that is given back always finds its entry, and the counters count the tables held and
those kept. -/
theorem exclusive_run {pool : Pool} (hp : Pool.create config = .ok pool) (steps : List Step) :
    Exclusive (run ⟨pool, []⟩ steps).2 :=
  ((sound_create hp).run steps).exclusive

/-- Memory that grants nothing. -/
def noMemory : Table.Memory := ⟨fun _ _ => false⟩

/-- Memory that grants lines of fingerprints and no keys. -/
def noKeys : Table.Memory := ⟨fun _ align => align = Table.lineBytes⟩

/-- Three workers, a checkout too many, and shutdowns while tables are held; memory refuses a fourth worker twice, while
others hold their tables. -/
def shift : List Step :=
  [.checkout ⟨3⟩, .checkout ⟨3⟩, .checkout ⟨5⟩, .checkout ⟨9⟩ noMemory, .shutdown, .giveBack ⟨3⟩,
    .table ⟨5⟩ (.op (.insert [1])), .checkout ⟨7⟩, .table ⟨7⟩ (.op (.insert [2])), .giveBack ⟨5⟩, .shutdown,
    .checkout ⟨9⟩ noKeys, .giveBack ⟨7⟩, .checkout ⟨5⟩]

theorem exclusive_shift : Pool.create ⟨1, 2, 3⟩ = .ok ⟨⟨1, 2, 3⟩, []⟩ ∧
    Exclusive (run ⟨⟨⟨1, 2, 3⟩, []⟩, []⟩ (shift.take 4)).2 ∧
    (run ⟨⟨⟨1, 2, 3⟩, []⟩, []⟩ (shift.take 4)).2.holders = [⟨5⟩, ⟨3⟩] ∧
    (run ⟨⟨⟨1, 2, 3⟩, []⟩, []⟩ (shift.take 4)).1.getLast? =
      some (.refused (.table (.allocationFailure 64 64)), ⟨2, 2, 2⟩) ∧
    Exclusive (run ⟨⟨⟨1, 2, 3⟩, []⟩, []⟩ shift).2 ∧
    (run ⟨⟨⟨1, 2, 3⟩, []⟩, []⟩ shift).2.holders = [⟨5⟩] ∧
    (run ⟨⟨⟨1, 2, 3⟩, []⟩, []⟩ shift).2.pool.snapshot = ⟨2, 1, 2⟩ := by
  have hp : Pool.create ⟨1, 2, 3⟩ = .ok ⟨⟨1, 2, 3⟩, []⟩ := rfl
  exact ⟨hp, exclusive_run hp _, by decide +kernel, rfl, exclusive_run hp shift, by decide +kernel,
    by decide +kernel⟩

end

end Fleet

end StateSpace
