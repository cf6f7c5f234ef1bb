import StateSpace.Proofs.Pool.Ownership

/-!
# Which checkouts a pool remembers

A pool counts the checkouts of each worker in the worker's entry, and a shutdown removes the entries of the workers that
hold no table. So it forgets their checkouts (`forgetsAt`), and its counter is the number of those checkouts that no
later shutdown made it forget (`checkouts_of_run`), which is less than the number of all checkouts as soon as one was
forgotten (`checkouts_forgotten`).

The argument keeps the workers that were checked out to as a list (`Pool.log`), each of them as often as the pool
counts: a step adds the worker that gets a table, and takes out those that are forgotten (`log_step`).
-/

namespace StateSpace

namespace Pool

variable {p : Pool} {w : WorkerId} {e : Entry}

/-- The checkouts of a worker that the pool counts. -/
def checkoutsOf (p : Pool) (w : WorkerId) : Nat := ((p.entry? w).getD {}).checkouts

/-- The workers of the checkouts that the pool counts. -/
def log (p : Pool) : List WorkerId := p.entries.flatMap fun entry => List.replicate entry.2.checkouts entry.1

theorem length_log (p : Pool) : p.log.length = p.snapshot.checkouts := by
  unfold log snapshot
  dsimp only
  induction p.entries with
  | nil => rfl
  | cons entry rest ih => rw [List.flatMap_cons, List.length_append, List.length_replicate, ih, List.foldr_cons]

theorem count_log (hp : p.workers.Nodup) (w : WorkerId) : p.log.count w = p.checkoutsOf w := by
  have hothers (entries : List (WorkerId × Entry)) (hw : w ∉ entries.map Prod.fst) :
      (entries.flatMap fun entry => List.replicate entry.2.checkouts entry.1).count w = 0 := by
    refine List.count_eq_zero.2 fun hmem => hw ?_
    obtain ⟨entry, hentry, hrep⟩ := List.mem_flatMap.1 hmem
    rw [(List.mem_replicate.1 hrep).2]
    exact List.mem_map_of_mem hentry
  unfold workers at hp
  unfold log checkoutsOf entry?
  generalize p.entries = entries at hp ⊢
  induction entries with
  | nil => rfl
  | cons entry rest ih =>
    rw [List.map_cons, List.nodup_cons] at hp
    rw [List.flatMap_cons, List.count_append, List.count_replicate, List.find?_cons]
    by_cases hentry : entry.1 = w
    · subst hentry
      simp [hothers rest hp.1]
    · simp [hentry, ih hp.2]

theorem checkoutsOf_put (p : Pool) (w : WorkerId) (e : Entry) (w' : WorkerId) :
    checkoutsOf (p.put w e) w' = if w' = w then e.checkouts else p.checkoutsOf w' := by
  unfold checkoutsOf
  rw [entry_put]
  split <;> rfl

end Pool

namespace Fleet

open Pool (Entry Loan)

/-- The worker to whom a reply hands a table. -/
def Reply.granted? : Reply → Option WorkerId
  | .checkedOut w _ => some w
  | _ => none

/-- The step makes the pool forget the worker: it is a shutdown, and the worker holds no table. -/
def forgetsAt (f : Fleet) (w : WorkerId) : Step → Bool
  | .shutdown => w ∉ f.holders
  | _ => false

/-- One of the steps makes the pool forget the worker. -/
def forgets (f : Fleet) (w : WorkerId) : List Step → Bool
  | [] => false
  | s :: rest => f.forgetsAt w s || (f.step s).2.forgets w rest

/-- The checkouts that hand out a table, in order: the worker, and whether the pool remembers the checkout after all
steps. -/
def grants (f : Fleet) : List Step → List (WorkerId × Bool)
  | [] => []
  | s :: rest =>
    (f.step s).1.granted?.toList.map (fun w => (w, !(f.step s).2.forgets w rest)) ++ (f.step s).2.grants rest

variable {config : Table.Config} {f : Fleet} {w : WorkerId} {s : Step}

/-! ## One step -/

theorem granted_of_work {work : Table → Reply × Table} (hs : s.work? = some (w, work)) (t : Table) :
    (work t).1.granted? = none := by
  cases s with
  | table | explore =>
    cases hs
    rfl
  | checkout | giveBack | shutdown | describe => cases hs

theorem forgetsAt_of_work {w' : WorkerId} {work : Table → Reply × Table} (hs : s.work? = some (w', work)) :
    f.forgetsAt w s = false := by
  cases s with
  | shutdown => cases hs
  | checkout | giveBack | table | explore | describe => rfl

theorem Sound.checkoutsOf_shutdown (h : Sound config f) (w : WorkerId) :
    Pool.checkoutsOf f.pool.shutdown.2 w = if f.forgetsAt w .shutdown then 0 else f.pool.checkoutsOf w := by
  have hforgets : f.forgetsAt w .shutdown = true ↔ ¬ ∃ e, f.pool.entry? w = some e ∧ e.checkedOut = true := by
    rw [h.checkedOut_iff w]
    exact decide_eq_true_iff
  simp only [hforgets]
  unfold Pool.checkoutsOf
  rw [Pool.entry_shutdown h.nodup_workers]
  cases hentry : f.pool.entry? w with
  | none => simp
  | some e => by_cases hout : e.checkedOut <;> simp [Option.filter_some, hout]

/-- A step adds one to the checkouts of the worker to whom it hands a table, and otherwise only forgets. -/
theorem Sound.checkoutsOf_step (h : Sound config f) (s : Step) (w : WorkerId) :
    (f.step s).2.pool.checkoutsOf w =
      (if (f.step s).1.granted? = some w then 1 else 0) + if f.forgetsAt w s then 0 else f.pool.checkoutsOf w := by
  have hcase := step_cases h s
  generalize (f.step s).1 = reply at hcase
  generalize (f.step s).2 = f' at hcase
  cases hcase with
  | inUse | nothingHeld | describe => simp [Reply.granted?, forgetsAt]
  | noTable _ he =>
    simp only [Reply.granted?, forgetsAt, Pool.checkoutsOf_put]
    split
    · rename_i heq
      simp [heq, Pool.checkoutsOf, he]
    · simp
  | checkedOut _ he =>
    simp only [Reply.granted?, forgetsAt, pool_hold, Pool.checkoutsOf_put, Option.some.injEq]
    split
    · rename_i heq
      simp [heq, Pool.checkoutsOf, he, Nat.add_comm]
    · rename_i hne
      simp [Ne.symm hne]
  | gaveBack _ hentry =>
    simp only [Reply.granted?, forgetsAt, pool_without, Pool.checkoutsOf_put]
    split
    · rename_i heq
      simp [heq, Pool.checkoutsOf, hentry]
    · simp
  | notHeld hs => simp [Reply.granted?, forgetsAt_of_work hs]
  | worked hs => simp [granted_of_work hs, forgetsAt_of_work hs]
  | shutdown => simp [Reply.granted?, h.checkoutsOf_shutdown]

/-- A step adds the worker to whom it hands a table, and takes out those that the pool forgets. -/
theorem Sound.log_step (h : Sound config f) (s : Step) :
    (f.step s).2.pool.log.Perm
      ((f.step s).1.granted?.toList ++ f.pool.log.filter fun w => !f.forgetsAt w s) := by
  refine List.perm_iff_count.2 fun w => ?_
  rw [Pool.count_log (h.step s).nodup_workers, h.checkoutsOf_step, List.count_append]
  congr 1
  · cases (f.step s).1.granted? with
    | none => rfl
    | some w' => simp [List.count_singleton]
  · cases hforgets : f.forgetsAt w s with
    | true =>
      symm
      simp [List.count_eq_zero, hforgets]
    | false =>
      rw [List.count_filter (by simp [hforgets]), Pool.count_log h.nodup_workers]
      rfl

/-! ## All steps -/

/-- After all steps the pool counts the checkouts that it remembers, of these steps and of before. -/
theorem Sound.log_run (h : Sound config f) (steps : List Step) :
    (f.run steps).2.pool.log.Perm
      (((f.grants steps).filter (·.2)).map (·.1) ++ f.pool.log.filter fun w => !f.forgets w steps) := by
  induction steps generalizing f with
  | nil =>
    show f.pool.log.Perm _
    simp [grants, forgets]
  | cons s rest ih =>
    generalize hlater : (fun w => !(f.step s).2.forgets w rest) = later
    generalize hnow : (fun w => !f.forgetsAt w s) = now
    have hflags (ws : List WorkerId) : ((ws.map fun w => (w, later w)).filter (·.2)).map (·.1) = ws.filter later := by
      simp [List.filter_map, Function.comp_def]
    have hboth : (fun w => !f.forgets w (s :: rest)) = fun w => later w && now w := by
      simp [forgets, ← hlater, ← hnow, Bool.and_comm]
    have hgrants : ((f.grants (s :: rest)).filter (·.2)).map (·.1) =
        (f.step s).1.granted?.toList.filter later ++ (((f.step s).2.grants rest).filter (·.2)).map (·.1) := by
      rw [grants, List.filter_append, List.map_append, ← hflags, ← hlater]
    have hrest := ih (h.step s)
    have hstep := h.log_step s
    rw [hlater] at hrest
    rw [hnow] at hstep
    rw [hgrants, hboth, ← List.filter_filter, List.append_assoc]
    refine hrest.trans (((hstep.filter later).append_left _).trans ?_)
    rw [List.filter_append]
    exact List.perm_append_comm_assoc ..

theorem length_grants (f : Fleet) (steps : List Step) :
    (f.grants steps).length = (f.run steps).1.countP (·.1.granted?.isSome) := by
  induction steps generalizing f with
  | nil => rfl
  | cons s rest ih =>
    have hrun : (f.run (s :: rest)).1 = ((f.step s).1, (f.step s).2.pool.snapshot) :: ((f.step s).2.run rest).1 := rfl
    rw [grants, List.length_append, List.length_map, ih, hrun, List.countP_cons, Nat.add_comm]
    congr 1
    cases (f.step s).1.granted? <;> rfl

/-- No step but a shutdown makes the pool count fewer checkouts. -/
theorem Sound.checkouts_step (h : Sound config f) (hs : s ≠ .shutdown) :
    (f.step s).2.pool.snapshot.checkouts = f.pool.snapshot.checkouts + (f.step s).1.granted?.toList.length := by
  have hnone : (fun w => !f.forgetsAt w s) = fun _ => true := by
    funext w
    cases s with
    | shutdown => exact absurd rfl hs
    | checkout | giveBack | table | explore | describe => rfl
  have hlength := (h.log_step s).length_eq
  rw [hnone, List.filter_true, List.length_append, Pool.length_log, Pool.length_log] at hlength
  rw [hlength, Nat.add_comm]

/-- A shutdown makes the pool count the checkouts of the holders only. -/
theorem Sound.checkouts_shutdown (h : Sound config f) :
    (f.step .shutdown).2.pool.snapshot.checkouts = f.pool.log.countP (· ∈ f.holders) := by
  have hlength := (h.log_step .shutdown).length_eq
  have hstays : (fun w => !f.forgetsAt w .shutdown) = fun w => decide (w ∈ f.holders) := by
    funext w
    simp [forgetsAt]
  rw [hstays, Pool.length_log] at hlength
  rw [hlength, List.countP_eq_length_filter]
  rfl

/-- **What the counter of checkouts counts.** Whatever steps are taken with a new pool, its counter is the number of the
checkouts that handed out a table and that no later shutdown made it forget, because their worker held no table then. So
it is the number of all that handed out a table exactly if none was forgotten. Every step but a shutdown adds what it
hands out; a shutdown leaves the checkouts of those who hold a table. -/
theorem checkouts_of_run {pool : Pool} (hp : Pool.create config = .ok pool) (steps : List Step) :
    let f := (run ⟨pool, []⟩ steps).2
    let granted := grants ⟨pool, []⟩ steps
    f.pool.snapshot.checkouts = granted.countP (·.2) ∧
    granted.length = (run ⟨pool, []⟩ steps).1.countP (·.1.granted?.isSome) ∧
    (f.pool.snapshot.checkouts = granted.length ↔ ∀ g ∈ granted, g.2 = true) ∧
    (∀ s, s ≠ .shutdown →
      (f.step s).2.pool.snapshot.checkouts = f.pool.snapshot.checkouts + (f.step s).1.granted?.toList.length) ∧
    (f.step .shutdown).2.pool.snapshot.checkouts = f.pool.log.countP (· ∈ f.holders) := by
  have hsound : Sound config ⟨pool, []⟩ := sound_create hp
  have hnew : pool.log = [] := by rw [Pool.create_eq_ok hp]; rfl
  have hcount : (run ⟨pool, []⟩ steps).2.pool.snapshot.checkouts = (grants ⟨pool, []⟩ steps).countP (·.2) := by
    have hlength := (hsound.log_run steps).length_eq
    rw [hnew, List.filter_nil, List.append_nil, List.length_map, Pool.length_log] at hlength
    rw [hlength, List.countP_eq_length_filter]
  refine ⟨hcount, length_grants _ steps, ?_, fun s hs => (hsound.run steps).checkouts_step hs,
    (hsound.run steps).checkouts_shutdown⟩
  rw [hcount, List.countP_eq_length]

/-- In the shift, two of four checkouts are forgotten by the second shutdown. -/
theorem checkouts_of_shift : Pool.create ⟨1, 2, 3⟩ = .ok ⟨⟨1, 2, 3⟩, []⟩ ∧
    grants ⟨⟨⟨1, 2, 3⟩, []⟩, []⟩ shift = [(⟨3⟩, false), (⟨5⟩, false), (⟨7⟩, true), (⟨5⟩, true)] ∧
    (run ⟨⟨⟨1, 2, 3⟩, []⟩, []⟩ shift).2.pool.snapshot.checkouts = 2 ∧
    (run ⟨⟨⟨1, 2, 3⟩, []⟩, []⟩ shift).1.countP (·.1.granted?.isSome) = 4 ∧
    (step (run ⟨⟨⟨1, 2, 3⟩, []⟩, []⟩ shift).2 .shutdown).2.pool.snapshot.checkouts = 1 := by
  have hp : Pool.create ⟨1, 2, 3⟩ = .ok ⟨⟨1, 2, 3⟩, []⟩ := rfl
  have hgrants : grants ⟨⟨⟨1, 2, 3⟩, []⟩, []⟩ shift = [(⟨3⟩, false), (⟨5⟩, false), (⟨7⟩, true), (⟨5⟩, true)] := by
    decide +kernel
  obtain ⟨hcount, hlength, -, -, hshutdown⟩ := checkouts_of_run hp shift
  rw [hgrants] at hcount hlength
  exact ⟨hp, hgrants, hcount, hlength.symm, hshutdown.trans (by decide +kernel)⟩

/-- A checkout whose table was given back is not counted any more after a shutdown. -/
theorem checkouts_forgotten : Pool.create ⟨1, 2, 3⟩ = .ok ⟨⟨1, 2, 3⟩, []⟩ ∧
    (run ⟨⟨⟨1, 2, 3⟩, []⟩, []⟩ [.checkout ⟨0⟩, .giveBack ⟨0⟩]).2.pool.snapshot.checkouts = 1 ∧
    (run ⟨⟨⟨1, 2, 3⟩, []⟩, []⟩ [.checkout ⟨0⟩, .giveBack ⟨0⟩, .shutdown]).1.countP (·.1.granted?.isSome) = 1 ∧
    (run ⟨⟨⟨1, 2, 3⟩, []⟩, []⟩ [.checkout ⟨0⟩, .giveBack ⟨0⟩, .shutdown]).2.pool.snapshot.checkouts = 0 :=
  ⟨rfl, by decide +kernel, by decide +kernel, by decide +kernel⟩

end Fleet

end StateSpace
