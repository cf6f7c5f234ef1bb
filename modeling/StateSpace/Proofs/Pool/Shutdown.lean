import Mathlib.Data.Finset.Card
import StateSpace.Proofs.Pool.Ownership

/-!
# What a shutdown drops

A shutdown removes the entries of the workers that hold no table, and says how many there were. These are the tables
that the pool keeps, and the entries of workers whom it could not give a table (`turnedAway`), so the number is too
large by those (`dropped_of_run`, `shutdown_counts_turnedAway`).

It leaves the entries of the workers that hold a table. A worker that gives its table back later finds its entry, so the
table comes to the pool again and stays there (`tables_after_shutdown`, `table_kept_after_shutdown`).
-/

namespace StateSpace

namespace Pool

variable {p : Pool} {w : WorkerId} {e : Entry}

/-- The pool knows the worker, and has no table for it, neither here nor checked out. -/
def Bare (p : Pool) (w : WorkerId) : Prop := ∃ e, p.entry? w = some e ∧ e.hasTable = false

theorem bare_put (p : Pool) (w : WorkerId) (e : Entry) (w' : WorkerId) :
    Bare (p.put w e) w' ↔ if w' = w then e.hasTable = false else p.Bare w' := by
  unfold Bare
  rw [entry_put]
  split <;> simp

/-- As many entries are without a table as there are workers whose entries are. -/
theorem countP_bare (hp : p.workers.Nodup) {away : Finset WorkerId} (haway : ∀ w, w ∈ away ↔ p.Bare w) :
    p.entries.countP (!·.2.hasTable) = away.card := by
  have hsub : ((p.entries.filter (!·.2.hasTable)).map Prod.fst).Nodup := hp.sublist (List.filter_sublist.map _)
  have heq : ((p.entries.filter (!·.2.hasTable)).map Prod.fst).toFinset = away := by
    ext w
    rw [List.mem_toFinset, haway, List.mem_map]
    constructor
    · rintro ⟨⟨w', e⟩, hmem, rfl⟩
      obtain ⟨hentry, hbare⟩ := List.mem_filter.1 hmem
      exact ⟨e, entry_of_mem hp hentry, by simpa using hbare⟩
    · rintro ⟨e, hentry, hbare⟩
      exact ⟨(w, e), List.mem_filter.2 ⟨mem_of_entry_eq_some hentry, by simpa using hbare⟩, rfl⟩
  rw [← heq, List.toFinset_card_of_nodup hsub, List.length_map, List.countP_eq_length_filter]

/-- A shutdown drops the tables that are kept, and the entries without a table. -/
theorem dropped_eq (h : ∀ entry ∈ p.entries, entry.2.checkedOut = true → entry.2.table = none) :
    p.shutdown.1 = p.entries.countP (·.2.table.isSome) + p.entries.countP (!·.2.hasTable) := by
  have hsplit := List.length_eq_countP_add_countP (·.2.checkedOut) (l := p.entries)
  have hidle : p.entries.countP (!·.2.checkedOut) =
      p.entries.countP (·.2.table.isSome) + p.entries.countP (!·.2.hasTable) := by
    refine countP_eq_add fun entry hmem => ?_
    have hentry := h entry hmem
    unfold Entry.hasTable
    cases hout : entry.2.checkedOut with
    | true => simp [hentry hout]
    | false => cases entry.2.table <;> rfl
  unfold shutdown
  dsimp only
  rw [← hidle, ← List.countP_eq_length_filter, hsplit, Nat.add_sub_cancel_left]
  simp

/-- An entry that is replaced by one that counts the same changes no count. -/
theorem countP_put (hp : p.workers.Nodup) {e' : Entry} (hentry : p.entry? w = some e) (q : Entry → Bool)
    (hq : q e' = q e) : (p.put w e').entries.countP (q ·.2) = p.entries.countP (q ·.2) := by
  have hmem : w ∈ p.workers := List.mem_map_of_mem (mem_of_entry_eq_some hentry)
  rw [entries_put_of_mem hmem, List.countP_map]
  refine List.countP_congr fun old hold => ?_
  by_cases heq : old.1 = w
  · have hold' : p.entry? w = some old.2 := entry_of_mem hp (by rw [← heq]; exact hold)
    rw [hentry] at hold'
    simp [heq, hq, Option.some.inj hold']
  · simp [heq]

end Pool

namespace Fleet

open Pool (Entry Loan)

variable {config : Table.Config} {f : Fleet} {w : WorkerId} {away : Finset WorkerId}

/-! ## Workers without a table -/

/-- The workers whom the pool could not give a table, and has given none since, after one more step with this reply. A
shutdown makes the pool forget them. -/
def turnAway (away : Finset WorkerId) : Step → Reply → Finset WorkerId
  | .shutdown, _ => ∅
  | .checkout w _, .refused (.table _) => insert w away
  | .checkout w _, .checkedOut _ _ => away.erase w
  | _, _ => away

/-- The workers whom the pool could not give a table, and has given none since, after all steps. -/
def turnedAway (f : Fleet) (away : Finset WorkerId) : List Step → Finset WorkerId
  | [] => away
  | s :: rest => (f.step s).2.turnedAway (turnAway away s (f.step s).1) rest

theorem turnAway_of_work {s : Step} {work : Table → Reply × Table} (hs : s.work? = some (w, work)) (reply : Reply) :
    turnAway away s reply = away := by
  cases s with
  | table | explore => rfl
  | checkout | giveBack | shutdown | describe => cases hs

theorem Sound.bare_step (h : Sound config f) (haway : ∀ w, w ∈ away ↔ f.pool.Bare w) (s : Step) (w : WorkerId) :
    w ∈ turnAway away s (f.step s).1 ↔ (f.step s).2.pool.Bare w := by
  have hcase := step_cases h s
  generalize (f.step s).1 = reply at hcase ⊢
  generalize (f.step s).2 = f' at hcase ⊢
  cases hcase with
  | inUse | nothingHeld | describe => exact haway w
  | noTable _ _ hout htable =>
    simp only [turnAway, Pool.bare_put, Finset.mem_insert, haway]
    split
    · rename_i heq
      simp [heq, Entry.hasTable, hout, htable]
    · rename_i hne
      simp [hne]
  | checkedOut =>
    simp only [turnAway, pool_hold, Pool.bare_put, Finset.mem_erase, haway]
    split
    · rename_i heq
      simp [heq, Entry.hasTable]
    · rename_i hne
      simp [hne]
  | gaveBack _ hentry hout =>
    simp only [turnAway, pool_without, Pool.bare_put, haway]
    split
    · rename_i heq
      simp [heq, Pool.Bare, hentry, Entry.hasTable, hout]
    · exact Iff.rfl
  | notHeld hs =>
    rw [turnAway_of_work hs]
    exact haway w
  | worked hs =>
    rw [turnAway_of_work hs]
    exact haway w
  | shutdown =>
    -- an entry that is left is marked as checked out
    simp only [turnAway, Finset.notMem_empty, false_iff]
    rintro ⟨e, hentry, hbare⟩
    rw [Pool.entry_shutdown h.nodup_workers, Option.filter_eq_some_iff] at hentry
    simp [Entry.hasTable, hentry.2] at hbare

theorem Sound.bare_run (h : Sound config f) (haway : ∀ w, w ∈ away ↔ f.pool.Bare w) (steps : List Step) (w : WorkerId) :
    w ∈ f.turnedAway away steps ↔ (f.run steps).2.pool.Bare w := by
  induction steps generalizing f away with
  | nil => exact haway w
  | cons s rest ih => exact ih (h.step s) (h.bare_step haway s)

/-- Nobody is turned away as long as no checkout fails for want of a table. -/
theorem turnedAway_eq_empty {steps : List Step}
    (hgranted : ∀ seen ∈ (f.run steps).1, ∀ error, seen.1 ≠ .refused (.table error)) : f.turnedAway ∅ steps = ∅ := by
  induction steps generalizing f with
  | nil => rfl
  | cons s rest ih =>
    obtain ⟨hfirst, hrest⟩ := List.forall_mem_cons.1 hgranted
    have hnone : turnAway ∅ s (f.step s).1 = ∅ := by
      unfold turnAway
      split
      · rfl
      · rename_i hreply
        exact absurd hreply (hfirst _)
      · rfl
      · rfl
    rw [turnedAway, hnone]
    exact ih hrest

/-- **What a shutdown says that it dropped.** The number is that of the tables that the pool keeps, which is the
difference of its counters, and of the workers whom it could not give a table. So it is the number of tables exactly if
there is no such worker, and always if no checkout has failed for want of a table. A second shutdown drops nothing. -/
theorem dropped_of_run {pool : Pool} (hp : Pool.create config = .ok pool) (steps : List Step) :
    let f := (run ⟨pool, []⟩ steps).2
    let kept := f.pool.entries.countP (·.2.table.isSome)
    let away := turnedAway ⟨pool, []⟩ ∅ steps
    f.pool.snapshot.tables - f.pool.snapshot.checkedOut = kept ∧
    f.pool.shutdown.1 = kept + away.card ∧
    (f.pool.shutdown.1 = kept ↔ away = ∅) ∧
    ((∀ seen ∈ (run ⟨pool, []⟩ steps).1, ∀ error, seen.1 ≠ .refused (.table error)) → f.pool.shutdown.1 = kept) ∧
    Pool.shutdown f.pool.shutdown.2 = (0, f.pool.shutdown.2) := by
  have hnew : Sound config ⟨pool, []⟩ := sound_create hp
  have hnone (w : WorkerId) : w ∈ (∅ : Finset WorkerId) ↔ pool.Bare w := by
    simp [Pool.create_eq_ok hp, Pool.Bare, Pool.entry?]
  have h := hnew.run steps
  have hdropped := Pool.dropped_eq fun entry hmem =>
    h.table_of_checkedOut (Pool.entry_of_mem h.nodup_workers hmem)
  rw [Pool.countP_bare h.nodup_workers (hnew.bare_run hnone steps)] at hdropped
  refine ⟨?_, hdropped, ?_, fun hgranted => ?_, ?_⟩
  · rw [h.tables_eq, h.checkedOut_eq, Nat.add_sub_cancel_left]
  · rw [hdropped, Nat.add_eq_left, Finset.card_eq_zero]
  · rw [hdropped, turnedAway_eq_empty hgranted, Finset.card_empty, Nat.add_zero]
  · simp [Pool.shutdown]

/-- After the shift one table is kept, and one worker has been turned away, once before the last shutdown and once
since. Where a checkout fails only because it is one too many, the table alone is counted. -/
theorem dropped_of_shift : Pool.create ⟨1, 2, 3⟩ = .ok ⟨⟨1, 2, 3⟩, []⟩ ∧
    turnedAway ⟨⟨⟨1, 2, 3⟩, []⟩, []⟩ ∅ shift = {⟨9⟩} ∧
    (run ⟨⟨⟨1, 2, 3⟩, []⟩, []⟩ shift).2.pool.snapshot.tables = 2 ∧
    (run ⟨⟨⟨1, 2, 3⟩, []⟩, []⟩ shift).2.pool.shutdown.1 = 2 ∧
    Pool.shutdown (run ⟨⟨⟨1, 2, 3⟩, []⟩, []⟩ shift).2.pool.shutdown.2 =
      (0, (run ⟨⟨⟨1, 2, 3⟩, []⟩, []⟩ shift).2.pool.shutdown.2) ∧
    (run ⟨⟨⟨1, 2, 3⟩, []⟩, []⟩ [.checkout ⟨3⟩, .checkout ⟨3⟩, .giveBack ⟨3⟩]).2.pool.shutdown.1 = 1 := by
  have hp : Pool.create ⟨1, 2, 3⟩ = .ok ⟨⟨1, 2, 3⟩, []⟩ := rfl
  have haway : turnedAway ⟨⟨⟨1, 2, 3⟩, []⟩, []⟩ ∅ shift = {⟨9⟩} := by decide +kernel
  obtain ⟨-, hdropped, -, -, hagain⟩ := dropped_of_run hp shift
  obtain ⟨-, -, -, hkept, -⟩ := dropped_of_run hp [.checkout ⟨3⟩, .checkout ⟨3⟩, .giveBack ⟨3⟩]
  rw [haway, Finset.card_singleton] at hdropped
  refine ⟨hp, haway, by decide +kernel, hdropped.trans (by decide +kernel), hagain, ?_⟩
  refine (hkept ?_).trans (by decide +kernel)
  have hrun : (run ⟨⟨⟨1, 2, 3⟩, []⟩, []⟩ [.checkout ⟨3⟩, .checkout ⟨3⟩, .giveBack ⟨3⟩]).1 =
      [(.checkedOut ⟨3⟩ (Table.empty ⟨1, 2, 3⟩).summary, ⟨1, 1, 1⟩), (.refused (.inUse ⟨3⟩), ⟨1, 1, 1⟩),
        (.gaveBack true, ⟨1, 0, 1⟩)] := rfl
  simp [hrun]

/-- A pool that can make no table has none to drop, and says that it has dropped one. -/
theorem shutdown_counts_turnedAway :
    Pool.create ⟨281474976710656, 0, 1⟩ = .ok ⟨⟨281474976710656, 0, 1⟩, []⟩ ∧
    (run ⟨⟨⟨281474976710656, 0, 1⟩, []⟩, []⟩ [.checkout ⟨0⟩]).2.pool.snapshot = ⟨0, 0, 0⟩ ∧
    (run ⟨⟨⟨281474976710656, 0, 1⟩, []⟩, []⟩ [.checkout ⟨0⟩]).2.pool.shutdown.1 = 1 :=
  ⟨rfl, by decide +kernel, by decide +kernel⟩

/-! ## Tables given back after a shutdown -/

theorem holders_eq_nil_iff : f.holders = [] ↔ f.held = [] := List.map_eq_nil_iff

/-- `f'` is `f` after some workers gave back the tables that they held. -/
structure Returned (f f' : Fleet) (drops : List WorkerId) : Prop where
  tables_eq : f'.pool.snapshot.tables = f.pool.snapshot.tables
  holders_eq : f'.holders = f.holders.filter (· ∉ drops)
  tableOf_eq : ∀ w, f'.tableOf w = f.tableOf w

theorem Sound.returned_giveBack (h : Sound config f) (w : WorkerId) : Returned f (f.step (.giveBack w)).2 [w] := by
  have hcase := h.case_giveBack w
  generalize (f.step (.giveBack w)).1 = reply at hcase
  generalize (f.step (.giveBack w)).2 = f' at hcase ⊢
  cases hcase with
  | nothingHeld hheld =>
    refine ⟨rfl, ?_, fun _ => rfl⟩
    symm
    rw [List.filter_eq_self]
    rintro w' hw'
    have hne : w' ≠ w := fun heq => heldBy_eq_none_iff.1 hheld (heq ▸ hw')
    simpa using hne
  | gaveBack hheld hentry hout =>
    rename_i e t ht
    refine ⟨Pool.countP_put h.nodup_workers hentry Entry.hasTable (by simp [Entry.hasTable, hout]), ?_, fun w' => ?_⟩
    · simp [holders, without, List.filter_map, Function.comp_def]
    · unfold tableOf
      rw [heldBy_without, pool_without, Pool.entry_put]
      split
      · rename_i heq
        rw [heq, hheld]
        rfl
      · rfl
  | notHeld hs => cases hs
  | worked hs => cases hs

theorem Sound.returned_run (h : Sound config f) (drops : List WorkerId) :
    Returned f (f.run (drops.map .giveBack)).2 drops := by
  induction drops generalizing f with
  | nil =>
    refine ⟨rfl, ?_, fun _ => rfl⟩
    show f.holders = _
    simp
  | cons w rest ih =>
    have hfirst := h.returned_giveBack w
    have hrest := ih (h.step (.giveBack w))
    refine ⟨hrest.tables_eq.trans hfirst.tables_eq, ?_, fun w' => (hrest.tableOf_eq w').trans (hfirst.tableOf_eq w')⟩
    refine hrest.holders_eq.trans ?_
    rw [hfirst.holders_eq, List.filter_filter]
    congr 1
    funext w'
    simp [Bool.and_comm]

/-- A shutdown leaves the tables that are held. -/
theorem Sound.tableOf_shutdown (h : Sound config f) (w : WorkerId) : (f.step .shutdown).2.tableOf w = f.heldBy w := by
  show (f.heldBy w).or ((Pool.entry? f.pool.shutdown.2 w).bind (·.table)) = f.heldBy w
  rw [Pool.entry_shutdown h.nodup_workers]
  cases hentry : f.pool.entry? w with
  | none => simp
  | some e =>
    by_cases hout : e.checkedOut
    · simp [Option.filter_some, hout, h.table_of_checkedOut hentry hout]
    · simp [Option.filter_some, hout]

theorem Sound.tables_shutdown (h : Sound config f) : (f.step .shutdown).2.pool.snapshot.tables = f.held.length := by
  have hlength := h.workers_shutdown_perm.length_eq
  have hall : ∀ entry ∈ f.pool.shutdown.2.entries, entry.2.hasTable = true := fun entry hmem => by
    have hout : entry.2.checkedOut = true := (List.mem_filter.1 hmem).2
    simp [Entry.hasTable, hout]
  show f.pool.shutdown.2.entries.countP (·.2.hasTable) = f.held.length
  rw [List.countP_eq_length.2 hall]
  simpa [Pool.workers, holders] using hlength

/-- **Tables given back after a shutdown.** When the pool is shut down and workers then give back the tables that they
hold, in any order, the pool has all the tables that were held at the shutdown, whether they are back or not. When all
are back none is checked out, and the pool keeps for each worker the table that it had, and no other. So it has no table
exactly if none was held at the shutdown; otherwise they stay until it is shut down again. -/
theorem tables_after_shutdown {pool : Pool} (hp : Pool.create config = .ok pool) (steps : List Step)
    (drops : List WorkerId) :
    let f := (run ⟨pool, []⟩ steps).2
    let f' := (run (f.step .shutdown).2 (drops.map .giveBack)).2
    f'.pool.snapshot.tables = f.held.length ∧
    f'.pool.snapshot.checkedOut = (f.holders.filter (· ∉ drops)).length ∧
    ((∀ w ∈ f.holders, w ∈ drops) →
      f'.pool.snapshot.checkedOut = 0 ∧ (∀ w, (f'.pool.entry? w).bind (·.table) = f.heldBy w) ∧
        (f'.pool.snapshot.tables = 0 ↔ f.held = []) ∧ (f'.step .shutdown).2.pool.snapshot.tables = 0) := by
  intro f f'
  have h : Sound config f := (sound_create hp).run steps
  have hdown := h.step .shutdown
  have hback : Returned (f.step .shutdown).2 f' drops := hdown.returned_run drops
  have h' : Sound config f' := hdown.run _
  have htables : f'.pool.snapshot.tables = f.held.length := hback.tables_eq.trans h.tables_shutdown
  have hholders : f'.holders = f.holders.filter (· ∉ drops) := hback.holders_eq
  have hout : f'.pool.snapshot.checkedOut = f'.holders.length := by
    rw [h'.checkedOut_eq, holders, List.length_map]
  refine ⟨htables, by rw [hout, hholders], fun hall => ?_⟩
  have hnone : f'.holders = [] := by
    rw [hholders, List.filter_eq_nil_iff]
    exact fun w hw => by simpa using hall w hw
  refine ⟨by rw [hout, hnone, List.length_nil], fun w => ?_, ?_, ?_⟩
  · have hheld : f'.heldBy w = none := heldBy_eq_none_iff.2 (by simp [hnone])
    have hkept := (hback.tableOf_eq w).trans (h.tableOf_shutdown w)
    unfold tableOf at hkept
    rwa [hheld, Option.none_or] at hkept
  · rw [htables, List.length_eq_zero_iff]
  · rw [h'.tables_shutdown, holders_eq_nil_iff.1 hnone, List.length_nil]

/-- Two workers hold tables at the shutdown, one of them with a member, and a third has given its table back. -/
theorem tables_after_shutdown_pair :
    let steps : List Step := [.checkout ⟨3⟩, .checkout ⟨5⟩, .table ⟨5⟩ (.op (.insert [1])), .checkout ⟨7⟩,
      .giveBack ⟨7⟩]
    let f := (run ⟨⟨⟨1, 2, 3⟩, []⟩, []⟩ steps).2
    let f' := (run (f.step .shutdown).2 [.giveBack ⟨5⟩, .giveBack ⟨3⟩]).2
    Pool.create ⟨1, 2, 3⟩ = .ok ⟨⟨1, 2, 3⟩, []⟩ ∧ (∀ w ∈ f.holders, w ∈ [(⟨5⟩ : WorkerId), ⟨3⟩]) ∧
      f'.pool.snapshot.tables = 2 ∧ f'.pool.snapshot.checkedOut = 0 ∧
      (f'.step .shutdown).2.pool.snapshot.tables = 0 := by
  intro steps f f'
  have hp : Pool.create ⟨1, 2, 3⟩ = .ok ⟨⟨1, 2, 3⟩, []⟩ := rfl
  have hall : ∀ w ∈ f.holders, w ∈ [(⟨5⟩ : WorkerId), ⟨3⟩] := by decide +kernel
  obtain ⟨htables, -, hback⟩ := tables_after_shutdown hp steps [⟨5⟩, ⟨3⟩]
  obtain ⟨hout, -, -, hagain⟩ := hback hall
  exact ⟨hp, hall, htables.trans (by decide +kernel), hout, hagain⟩

/-- A table that is held at a shutdown is kept when it is given back. -/
theorem table_kept_after_shutdown : Pool.create ⟨1, 2, 3⟩ = .ok ⟨⟨1, 2, 3⟩, []⟩ ∧
    (run ⟨⟨⟨1, 2, 3⟩, []⟩, []⟩ [.checkout ⟨0⟩, .shutdown, .giveBack ⟨0⟩]).2.holders = [] ∧
    (run ⟨⟨⟨1, 2, 3⟩, []⟩, []⟩ [.checkout ⟨0⟩, .shutdown, .giveBack ⟨0⟩]).2.pool.snapshot = ⟨1, 0, 1⟩ :=
  ⟨rfl, by decide +kernel, by decide +kernel⟩

end Fleet

end StateSpace
