import StateSpace.Proofs.Explore.Simulation
import StateSpace.Proofs.Table.Repetition

/-!
# A session ends on every model

A model may have cycles and states without number; a session ends all the same, since every state is expanded on its
way into the table. Every step takes a state off the stack, and only an expansion puts others on it, so the steps are
counted by the successors of the states expanded (`runFor_expanded`). And an expansion costs room: `allowance` is the
room of the table for more keys, with the room that doublings can still make. A state that is found costs nothing, and a
new one takes one place of it, whether the table has to grow for it or not (`allowance_of_inserted`); so the number of
expansions is bounded by the geometry of the table, on every model (`length_expanded_le`). If growth drops nothing, no
state is expanded twice, and the expansions are the members of the table at the end, within its load bound.

A session that ends without a report fails for one of two reasons: a state, or the keys of the table, have another
number of words than the model says, or the table is full at its largest capacity (`explore_ends`).
-/

namespace StateSpace

/-! ## Room for more keys -/

namespace Table

variable {t : Table} {key : State}

/-- The room that a table has and can still get, in quarters of a slot: three for each slot of the present capacity and
of every larger one, less four for each member. -/
def allowance (t : Table) : Nat := 3 * (2 * t.config.maxCapacity - t.capacity) - 4 * t.load

theorem allowance_clear (t : Table) :
    t.clear.allowance = 3 * (2 * t.config.maxCapacity - t.config.initialCapacity) := rfl

/-- A key that is found costs nothing. -/
theorem allowance_of_found (h : t.WellFormed) (hlength : key.length = t.config.keyLength)
    (hfound : (t.lookupKey key).1 = .found) : (t.lookupKey key).2.allowance = t.allowance := by
  have hk : key ∈ t := (looked_lookupKey h hlength).found_iff.1 hfound
  rcases lookupKey_of_mem h hk with heq | ⟨i, j, heq⟩
  · rw [heq]
  · rw [heq]
    rfl

/-- A new key takes its place, also if the table grew for it. -/
theorem allowance_of_inserted (h : t.Reachable) (hlength : key.length = t.config.keyLength)
    (hnew : (t.lookupKey key).1 = .inserted) : (t.lookupKey key).2.allowance + 4 ≤ t.allowance := by
  have hwf := (looked_lookupKey h.wellFormed hlength).extends_.wellFormed
  have hmem := mem_of_lookupKey h.wellFormed hlength (by simp [hnew])
  have hbound : t.load * 4 ≤ t.capacity * 3 := h.bounded
  have hbound' : (t.lookupKey key).2.load * 4 ≤ (t.lookupKey key).2.capacity * 3 :=
    h.bounded.act h.wellFormed (.insert key)
  have hmax := hwf.capacity_le_max
  obtain ⟨hconfig, hgrown | ⟨hpow2, -, hload⟩⟩ := t.lookupKey_progress key
  · -- the key is a member of a table of at least twice the capacity
    have hpos : 0 < (t.lookupKey key).2.load := by
      rw [← hwf.card_members]
      exact Finset.card_pos.2 ⟨key, mem_members.2 hmem⟩
    have hcap : t.doubled.capacity ≤ (t.lookupKey key).2.capacity := capacity_mono hgrown.2
    rw [capacity_doubled] at hcap
    unfold allowance
    rw [hconfig] at hmax ⊢
    omega
  · have hcap : (t.lookupKey key).2.capacity = t.capacity := by unfold capacity; rw [hpow2]
    obtain ⟨hload, -⟩ := hload hnew
    unfold allowance
    rw [hconfig] at hmax ⊢
    rw [hcap] at hmax hbound' ⊢
    omega

end Table

/-! ## States seen by an ideal search -/

namespace Frontier

/-- What was done when a step is over. -/
def Next.trace : Next → Trace
  | .more f => f.trace
  | .done trace _ => trace

section

variable (model : Model) (request : Request) (accept : Acceptance) {f : Frontier} {trace : Trace}
  {result : Except ExploreError Unit}

/-- A step marks no state that was seen. -/
theorem nodup_step (h : f.trace.seen.Nodup) : (f.step model request accept).trace.seen.Nodup := by
  have hcase := step_cases model request accept f
  generalize f.step model request accept = n at hcase
  cases hcase with
  | nil | visible | seen | refused => exact h
  | illSized hnew | broken hnew | expanded hnew => exact Trace.nodup_mark h hnew

variable {model request accept}

theorem Runs.nodup (hruns : Runs model request accept f trace result) (h : f.trace.seen.Nodup) : trace.seen.Nodup := by
  induction hruns with
  | done hs =>
    have hstep := nodup_step model request accept h
    rwa [hs] at hstep
  | more hs _ ih =>
    have hstep := nodup_step model request accept h
    rw [hs] at hstep
    exact ih hstep

end

end Frontier

namespace Search

variable {σ : Type} {model : Model} {notify : σ → Event → σ} {request : Request} {work : List (Mark × State)}
  {s s' : Search σ} {result : Except ExploreError Report}

/-! ## One step -/

/-- The state that the next step expands, if it does. -/
def entering (model : Model) (s : Search σ) : List State := (s.lookup? model).toList.filterMap inserted?

/-- A step takes one state off the stack, and puts the successors of the state that it expands on it. -/
theorem Packed.length_of_next (h : Packed model work s) (hs : step model notify request s = .next s') :
    ∃ work', Packed model work' s' ∧
      work'.length + 1 = work.length + ((entering model s).flatMap (model.successors request)).length := by
  have hcase := step_cases notify request h
  have hpacked : ∀ work', s'.pending = .ofList work' → (∀ entry ∈ work', entry.2.length = model.stateSize) →
      Packed model work' s' := by
    intro work'
    exact h.of_step hs
  unfold entering
  rw [hs] at hcase
  generalize s.lookup? model = l at hcase
  cases hcase with
  | visible | found =>
    refine ⟨_, hpacked _ rfl ?_, by simp [inserted?, List.filterMap_cons]⟩
    intro entry hentry
    exact h.length_eq entry (List.mem_cons_of_mem _ hentry)
  | broken _ _ hempty =>
    refine ⟨_, hpacked _ rfl ?_, by simp [inserted?, hempty]⟩
    intro entry hentry
    exact h.length_eq entry (List.mem_cons_of_mem _ hentry)
  | expanded _ hill =>
    refine ⟨_, hpacked _ rfl (h.length_expanded rfl hill), ?_⟩
    simp [inserted?]
    omega

/-- The report counts the states that are expanded. -/
theorem internal_step (notify : σ → Event → σ) (request : Request) (h : Packed model work s) :
    (step model notify request s).search.report.internal = s.report.internal + (entering model s).length := by
  have hcase := step_cases notify request h
  unfold entering
  generalize step model notify request s = p at hcase ⊢
  generalize s.lookup? model = l at hcase ⊢
  cases hcase <;> simp [Progress.search, tell, Report.entered, inserted?]

/-- A state that a step expands takes its place in the table. -/
theorem allowance_of_next (h : Packed model work s) (ht : s.table.Reachable)
    (hs : step model notify request s = .next s') :
    s'.table.allowance + 4 * (entering model s).length ≤ s.table.allowance := by
  have hcase := step_cases notify request h
  have hlength := h.length_eq
  rw [← h.keyLength_eq] at hlength
  unfold entering
  rw [hs] at hcase
  generalize s.lookup? model = l at hcase ⊢
  cases hcase with
  | visible => simp [tell]
  | found hlook =>
    have hsame := Table.allowance_of_found h.wellFormed (hlength _ List.mem_cons_self) (by rw [hlook])
    rw [hlook] at hsame
    simp [inserted?, List.filterMap_cons, hsame]
  | broken hlook | expanded hlook =>
    have hless := Table.allowance_of_inserted ht (hlength _ List.mem_cons_self) (by rw [hlook])
    rw [hlook] at hless
    simpa [inserted?, tell] using hless

/-- Also the last state that is expanded had its place. -/
theorem allowance_of_done (h : Packed model work s) (ht : s.table.Reachable)
    (hs : step model notify request s = .done s' result) : 4 * (entering model s).length ≤ s.table.allowance := by
  have hcase := step_cases notify request h
  have hlength := h.length_eq
  rw [← h.keyLength_eq] at hlength
  unfold entering
  rw [hs] at hcase
  generalize s.lookup? model = l at hcase ⊢
  cases hcase with
  | nil | full => simp [inserted?, List.filterMap_cons]
  | illSized hlook =>
    have hless := Table.allowance_of_inserted ht (hlength _ List.mem_cons_self) (by rw [hlook])
    simp [inserted?]
    omega

/-- How a search may end. -/
inductive Ending (model : Model) (s : Search σ) : Except ExploreError Report → Prop
  | ok : Ending model s (.ok s.report)
  | illSized {actual : Nat} : actual ≠ model.stateSize →
      Ending model s (.error (.stateLength model.stateSize actual))
  | full : Ending model s (.error (.table s.table.fullError))

theorem ending_of_done (h : Packed model work s) (hs : step model notify request s = .done s' result) :
    Ending model s' result := by
  have hcase := step_cases notify request h
  rw [hs] at hcase
  generalize s.lookup? model = l at hcase
  cases hcase with
  | nil => exact .ok
  | full => exact .full
  | illSized _ hill => exact .illSized (Model.length_of_illSized hill).2

/-! ## All steps -/

/-- The steps are as many as the states that were on the stack at some time, and one more. -/
theorem runFor_expanded (notify : σ → Event → σ) (request : Request) (h : Packed model work s) :
    runFor model notify request
        (work.length + 1 + ((expanded model notify request s).flatMap (model.successors request)).length) s =
      some (lookups model notify request s, run model notify request s) := by
  induction s using run.induct model notify request generalizing work with
  | case1 s s' result hs =>
    rw [lookups_of_done hs, run_of_done hs, Nat.add_right_comm, runFor, hs]
  | case2 s s' hs ih =>
    obtain ⟨work', hnext, hlength⟩ := h.length_of_next hs
    have hsteps : work.length + 1 + ((expanded model notify request s).flatMap (model.successors request)).length =
        work'.length + 1 + ((expanded model notify request s').flatMap (model.successors request)).length + 1 := by
      rw [expanded_of_next hs, List.flatMap_append, List.length_append]
      unfold entering at hlength
      omega
    rw [hsteps, lookups_of_next hs, run_of_next hs, runFor, hs]
    dsimp only
    rw [ih hnext]
    rfl

/-- There are no more expansions than the table has room for. -/
theorem length_expanded_le (notify : σ → Event → σ) (request : Request) (h : Packed model work s)
    (ht : s.table.Reachable) : 4 * (expanded model notify request s).length ≤ s.table.allowance := by
  induction s using run.induct model notify request generalizing work with
  | case1 s s' result hs =>
    rw [expanded_of_done hs]
    exact allowance_of_done h ht hs
  | case2 s s' hs ih =>
    have hless := allowance_of_next h ht hs
    have hreach := reachable_step notify request h ht
    obtain ⟨work', hnext, -⟩ := h.next hs
    rw [hs] at hreach
    specialize ih hnext hreach
    rw [expanded_of_next hs, List.length_append]
    unfold entering at hless
    omega

theorem internal_run (notify : σ → Event → σ) (request : Request) (h : Packed model work s) :
    (run model notify request s).1.report.internal =
      s.report.internal + (expanded model notify request s).length := by
  induction s using run.induct model notify request generalizing work with
  | case1 s s' result hs =>
    have hstep := internal_step notify request h
    rw [hs] at hstep
    rw [run_of_done hs, expanded_of_done hs]
    exact hstep
  | case2 s s' hs ih =>
    have hstep := internal_step notify request h
    obtain ⟨work', hnext, -⟩ := h.next hs
    rw [hs] at hstep
    rw [run_of_next hs, expanded_of_next hs, ih hnext, List.length_append, ← Nat.add_assoc]
    exact congrArg (· + _) hstep

theorem ending_run (notify : σ → Event → σ) (request : Request) (h : Packed model work s) :
    Ending model (run model notify request s).1 (run model notify request s).2 := by
  induction s using run.induct model notify request generalizing work with
  | case1 s s' result hs =>
    rw [run_of_done hs]
    exact ending_of_done h hs
  | case2 s s' hs ih =>
    obtain ⟨work', hnext, -⟩ := h.next hs
    rw [run_of_next hs]
    exact ih hnext

end Search

/-! ## Sessions -/

section

variable {σ : Type} {t : Table} {request : Request} {model : Model} {notify : σ → Event → σ}

/-- If growth drops nothing, the states expanded are the members of the table at the end, each of them once. -/
theorem Explorer.nodup_expanded (e : Explorer) (ht : t.Reachable) (hg : checkGeometry model t request = .ok ())
    (sink : σ) (hd : (e.explore t model notify request sink).table.dropped = 0) :
    let expanded := Search.expanded model notify request (Search.start t request sink)
    expanded.Nodup ∧ expanded.length = (e.explore t model notify request sink).table.load := by
  obtain ⟨trace, result, hruns, hmem, -, -, heq⟩ := e.runs_explore ht.wellFormed.toGeometry hg sink hd
  have hnodup := hruns.nodup List.nodup_nil
  have hwf := (e.reachable_explore model notify request ht sink).wellFormed
  have hcard : (⟨trace.seen, hnodup⟩ : Finset State).card = _ := hwf.card_eq_load fun key => (hmem key).symm
  rw [← heq]
  exact ⟨hnodup, hcard⟩

theorem error_of_checkGeometry {error : ExploreError} (hg : checkGeometry model t request = .error error) :
    ∃ actual, actual ≠ model.stateSize ∧ error = .stateLength model.stateSize actual := by
  unfold checkGeometry at hg
  split at hg
  · rename_i hroot
    cases hg
    exact ⟨_, hroot, rfl⟩
  · split at hg
    · rename_i hkey
      cases hg
      exact ⟨_, hkey, rfl⟩
    · cases hg

theorem Explorer.explore_run (e : Explorer) (hg : checkGeometry model t request = .ok ()) (sink : σ) :
    let o := e.explore t model notify request sink
    let last := Search.run model notify request (Search.start t request sink)
    o.table = last.1.table ∧ o.sink = last.1.sink ∧ o.result = last.2 := by
  dsimp only
  rw [e.explore_eq hg]
  exact ⟨rfl, rfl, rfl⟩

/-- A session gives a report, meets a state or a table of another geometry, or finds the table full. -/
theorem Explorer.result_cases (e : Explorer) (ht : t.Reachable) (model : Model) (notify : σ → Event → σ)
    (request : Request) (sink : σ) :
    let o := e.explore t model notify request sink
    (∃ report, o.result = .ok report) ∨
      (∃ actual, actual ≠ model.stateSize ∧ o.result = .error (.stateLength model.stateSize actual)) ∨
      o.result = .error (.table (.full t.config.maxPow2 o.table.load)) := by
  intro o
  have hconfig : o.table.config = t.config := e.config_explore model notify request ht sink
  cases hg : checkGeometry model t request with
  | error error =>
    obtain ⟨actual, hne, rfl⟩ := error_of_checkGeometry hg
    refine .inr (.inl ⟨actual, hne, ?_⟩)
    simp [o, e.explore_of_error hg]
  | ok u =>
    have hending := Search.ending_run notify request (Search.packed_start ht.wellFormed.toGeometry hg sink)
    obtain ⟨htable, -, hresult⟩ := e.explore_run hg sink
    rw [← hresult] at hending
    generalize o.result = result at hending
    cases hending with
    | ok => exact .inl ⟨_, rfl⟩
    | illSized hne => exact .inr (.inl ⟨_, hne, rfl⟩)
    | full =>
      rw [← htable, Table.fullError, hconfig]
      exact .inr (.inr rfl)

/-- **A session ends on every model.** It gives a report, or fails since a state or the keys of the table do not have
the model's number of words, or since the table is full at its largest capacity. If the starting state and the table
have the right geometry, its steps are no more than the states that come onto its stack and one, and the states that it
expands, as counted in its report, are no more than three quarters of the slots of all capacities from the initial to
the largest one together. If growth drops nothing, it expands no state twice, and no more states than three quarters of
the largest capacity. -/
theorem Explorer.explore_ends (e : Explorer) (ht : t.Reachable) (model : Model) (notify : σ → Event → σ)
    (request : Request) (sink : σ) :
    let o := e.explore t model notify request sink
    let start := Search.start t request sink
    let expanded := Search.expanded model notify request start
    ((∃ report, o.result = .ok report) ∨
      (∃ actual, actual ≠ model.stateSize ∧ o.result = .error (.stateLength model.stateSize actual)) ∨
      o.result = .error (.table (.full t.config.maxPow2 o.table.load))) ∧
    (checkGeometry model t request = .ok () →
      (∃ last, Search.runFor model notify request
          (2 + (expanded.flatMap (model.successors request)).length) start =
            some (Search.lookups model notify request start, last, o.result) ∧
          last.table = o.table ∧ last.sink = o.sink) ∧
      (∀ report, o.result = .ok report → report.internal = expanded.length) ∧
      4 * expanded.length ≤ 3 * (2 * t.config.maxCapacity - t.config.initialCapacity) ∧
      (o.table.dropped = 0 →
        expanded.Nodup ∧ expanded.length = o.table.load ∧ expanded.length ≤ 3 * t.config.maxCapacity / 4)) := by
  intro o start expanded
  refine ⟨e.result_cases ht model notify request sink, fun hg => ?_⟩
  have hpacked := Search.packed_start ht.wellFormed.toGeometry hg sink
  obtain ⟨htable, hsink, hresult⟩ := e.explore_run hg sink
  refine ⟨⟨(Search.run model notify request start).1, ?_, htable.symm, hsink.symm⟩, ?_, ?_, fun hd => ?_⟩
  · rw [hresult]
    exact Search.runFor_expanded notify request hpacked
  · intro report hreport
    have hinternal := Search.internal_run notify request hpacked
    have hending := Search.ending_run notify request hpacked
    rw [← hresult, hreport] at hending
    cases hending
    exact hinternal.trans (Nat.zero_add _)
  · rw [← Table.allowance_clear]
    exact Search.length_expanded_le notify request hpacked (ht.apply .clear)
  · obtain ⟨hnodup, hload⟩ := e.nodup_expanded ht hg sink hd
    have hreach : o.table.Reachable := e.reachable_explore model notify request ht sink
    have hconfig : o.table.config = t.config := e.config_explore model notify request ht sink
    have hmax := hreach.wellFormed.capacity_le_max
    have hbound : o.table.load * 4 ≤ o.table.capacity * 3 := hreach.bounded
    rw [hconfig] at hmax
    refine ⟨hnodup, hload, ?_⟩
    rw [show expanded.length = o.table.load from hload]
    omega

end

/-- Every state has the next number as its only successor. -/
def climb : RuleModel where
  stateSize := 1
  edges := []
  leaving := []
  rules := [⟨⟨0⟩, ⟨0⟩, [], [⟨0, true, 1⟩]⟩]
  announced := none

/-- The session on that model from its first state. -/
def climbSession : Outcome (List Event) :=
  Explorer.explore {} (Table.empty ⟨1, 2, 3⟩) climb.model (fun events e => e :: events) ⟨[0], ⟨0⟩, ⟨7⟩⟩ []

/-- Of the eight slots that the table may have, six take a state, and then it is full. -/
theorem Explorer.explore_ends_climb : Table.create ⟨1, 2, 3⟩ = .ok (Table.empty ⟨1, 2, 3⟩) ∧
    climbSession.result = .error (.table (.full 3 6)) ∧ climbSession.table.dropped = 0 ∧
    let expanded := Search.expanded climb.model (fun events e => e :: events) ⟨[0], ⟨0⟩, ⟨7⟩⟩
      (Search.start (Table.empty ⟨1, 2, 3⟩) ⟨[0], ⟨0⟩, ⟨7⟩⟩ [])
    expanded.Nodup ∧ expanded.length = 6 := by
  have hc : Table.create ⟨1, 2, 3⟩ = .ok (Table.empty ⟨1, 2, 3⟩) := by decide
  have hg : checkGeometry climb.model (Table.empty ⟨1, 2, 3⟩) ⟨[0], ⟨0⟩, ⟨7⟩⟩ = .ok () := by decide
  have hrun : (Search.runFor climb.model (fun events e => e :: events) ⟨[0], ⟨0⟩, ⟨7⟩⟩ 8
      (Search.start (Table.empty ⟨1, 2, 3⟩) ⟨[0], ⟨0⟩, ⟨7⟩⟩ [])).map
        (fun r => (r.2.2, r.2.1.table.load, r.2.1.table.dropped)) = some (.error (.table (.full 3 6)), 6, 0) := by
    decide +kernel
  obtain ⟨r, hr, heq⟩ := Option.map_eq_some_iff.1 hrun
  rw [Search.eq_of_runFor hr] at heq
  simp only [Prod.mk.injEq] at heq
  obtain ⟨hfull, hsix, hnone⟩ := heq
  have hlast : climbSession.table = _ ∧ climbSession.sink = _ ∧ climbSession.result = _ :=
    Explorer.explore_run {} hg []
  obtain ⟨htable, -, hresult⟩ := hlast
  rw [← hresult] at hfull
  rw [← htable] at hsix hnone
  obtain ⟨-, hends⟩ := Explorer.explore_ends {} (.create hc) climb.model (fun events e => e :: events)
    ⟨[0], ⟨0⟩, ⟨7⟩⟩ []
  obtain ⟨-, -, -, hexpanded⟩ := hends hg
  obtain ⟨hnodup, hlength, -⟩ := hexpanded hnone
  exact ⟨hc, hfull, hnone, hnodup, hlength.trans hsix⟩

end StateSpace
