import StateSpace.Proofs.Explore.Steps

/-!
# A search is the recursion

As long as growth drops nothing, the table of a search holds what the recursion has seen, so both find the same states
known and new. A search shows a frontier (`Shows`) if its stack holds the frontier's states, its table the states seen,
its counters what was done, and its sink what was told. Every step of the search is the step of the frontier
(`agree_step`); so a search does what the recursion does over a set that is full when the table is (`Table.accepts`),
and fails where it fails (`explore_eq_visit`).
-/

namespace StateSpace

/-! ## The table as the set of states seen -/

namespace Table

/-- The table in which the given states were looked up one after another. -/
def holding (t : Table) (states : List State) : Table :=
  states.foldl (fun t state => (t.lookupKey state).2) t.clear

/-- A state may be marked after the given ones if a table that holds these has room for it. -/
def accepts (t : Table) : Acceptance := fun seen state =>
  match (t.holding seen).lookupKey state with
  | (.full, full) => .error (.table full.fullError)
  | _ => .ok ()

theorem holding_append (t : Table) (states : List State) (state : State) :
    t.holding (states ++ [state]) = ((t.holding states).lookupKey state).2 := by
  unfold holding
  rw [List.foldl_append]
  rfl

theorem accepts_error {t : Table} {seen : List State} {state : State} {error : ExploreError}
    (h : t.accepts seen state = .error error) : ∃ tableError, error = .table tableError := by
  unfold accepts at h
  split at h
  · cases h
    exact ⟨_, rfl⟩
  · simp at h

end Table

namespace Search

variable {σ : Type}

/-- A search has in its table, its counters and its sink what was done according to the trace. -/
structure Records (notify : σ → Event → σ) (sink : σ) (s : Search σ) (trace : Trace) : Prop where
  mem_iff : ∀ state, state ∈ s.table ↔ state ∈ trace.seen
  report_eq : s.report = trace.report
  sink_eq : s.sink = trace.events.foldl notify sink

/-- A search on table `t` shows a frontier. -/
structure Shows (model : Model) (notify : σ → Event → σ) (t : Table) (sink : σ) (s : Search σ) (f : Frontier) : Prop
    extends Packed model f.work s where
  table_eq : s.table = t.holding f.trace.seen
  tidy : s.table.Tidy
  dropped_eq : s.table.dropped = 0
  records : Records notify sink s f.trace

/-- A step of a search leads to what a step of a frontier leads to, and the states seen are then the given ones. -/
inductive Agree (model : Model) (notify : σ → Event → σ) (t : Table) (sink : σ) (seen : List State) :
    Progress σ → Frontier.Next → Prop
  | next {s : Search σ} {f : Frontier} : Shows model notify t sink s f → f.trace.seen = seen →
      Agree model notify t sink seen (.next s) (.more f)
  | done {s : Search σ} {trace : Trace} {report : Except ExploreError Report} {result : Except ExploreError Unit} :
      Records notify sink s trace → trace.seen = seen → report = result.map (fun _ => trace.report) →
      Agree model notify t sink seen (.done s report) (.done trace result)

section

variable {model : Model} {notify : σ → Event → σ} {request : Request} {t : Table} {sink : σ} {s : Search σ}
  {f : Frontier} {trace : Trace}

/-! ## One step -/

theorem Records.with_buffers (h : Records notify sink s trace) (e : Explorer) :
    Records notify sink ⟨e, s.table, s.report, s.sink⟩ trace := ⟨h.mem_iff, h.report_eq, h.sink_eq⟩

theorem Records.tell (h : Records notify sink s trace) (state : State) (broken : Bool) :
    Records notify sink (tell notify request state broken s) (trace.tell request state broken) := by
  obtain ⟨hmem, hreport, hsink⟩ := h
  refine ⟨hmem, ?_, ?_⟩
  · unfold Search.tell Trace.tell Trace.report
    rw [hreport]
    cases broken <;> simp [Trace.report]
  · unfold Search.tell Trace.tell
    rw [hsink, List.foldl_append]
    rfl

/-- A new state is marked when it comes into the table. -/
theorem Records.enter (h : Records notify sink s trace) {e : Explorer} {table : Table} {state : State}
    (hmem : ∀ key, key ∈ table ↔ key ∈ trace.seen ∨ key = state) :
    Records notify sink ⟨e, table, s.report.entered, s.sink⟩ (trace.mark state) := by
  refine ⟨fun key => ?_, ?_, h.sink_eq⟩
  · rw [hmem]
    simp [Trace.mark]
  · show s.report.entered = (trace.mark state).report
    rw [h.report_eq]
    simp [Report.entered, Trace.mark, Trace.report]

variable {state : State} {rest : List (Mark × State)} {table : Table}

/-- A state that is found was seen, and the table stays as it is. -/
theorem Shows.found (h : Shows model notify t sink s ⟨(.internal, state) :: rest, trace⟩)
    (hlook : s.table.lookupKey state = (.found, table)) : state ∈ trace.seen ∧ table = s.table := by
  have hlength : state.length = s.table.config.keyLength :=
    (h.length_eq _ List.mem_cons_self).trans h.keyLength_eq.symm
  have hfound := (Table.looked_lookupKey h.wellFormed hlength).found_iff
  rw [hlook] at hfound
  have hmem : state ∈ s.table := hfound.1 rfl
  rw [Table.lookupKey_of_tidy h.wellFormed h.tidy hmem] at hlook
  exact ⟨(h.records.mem_iff state).1 hmem, (Prod.mk.inj hlook).2.symm⟩

/-- A state that is not found was not seen. -/
theorem Shows.not_found (h : Shows model notify t sink s ⟨(.internal, state) :: rest, trace⟩) {answer : Lookup}
    (hlook : s.table.lookupKey state = (answer, table)) (hne : answer ≠ .found) (hd : table.dropped = 0) :
    state ∉ trace.seen ∧ s.table.Extends table (if answer = .inserted then [state] else []) ∧
      ∀ key, key ∈ table ↔ key ∈ trace.seen ∨ key ∈ if answer = .inserted then [state] else [] := by
  have hlength : state.length = s.table.config.keyLength :=
    (h.length_eq _ List.mem_cons_self).trans h.keyLength_eq.symm
  obtain ⟨hext, hfound⟩ := Table.looked_lookupKey h.wellFormed hlength
  rw [hlook] at hext hfound
  refine ⟨fun hseen => hne (hfound.2 ((h.records.mem_iff state).2 hseen)), hext, fun key => ?_⟩
  rw [hext.mem_iff (hd.trans h.dropped_eq.symm), h.records.mem_iff]

/-- A state is turned away as the table turns it away. -/
theorem Shows.accepts_full (h : Shows model notify t sink s ⟨(.internal, state) :: rest, trace⟩)
    (hlook : s.table.lookupKey state = (.full, table)) :
    t.accepts trace.seen state = .error (.table table.fullError) := by
  unfold Table.accepts
  rw [← h.table_eq, hlook]

/-- What a new state does to the table, the counters and the set. -/
theorem Shows.inserted (h : Shows model notify t sink s ⟨(.internal, state) :: rest, trace⟩)
    (hlook : s.table.lookupKey state = (.inserted, table)) (hd : table.dropped = 0) :
    state ∉ trace.seen ∧ t.accepts trace.seen state = .ok () ∧ table = t.holding (trace.mark state).seen ∧ table.Tidy ∧
      ∀ e, Records notify sink ⟨e, table, s.report.entered, s.sink⟩ (trace.mark state) := by
  obtain ⟨hseen, hext, hmem⟩ := h.not_found hlook (by simp) hd
  refine ⟨hseen, ?_, ?_, hext.tidy h.tidy, fun e => h.records.enter fun key => ?_⟩
  · unfold Table.accepts
    rw [← h.table_eq, hlook]
  · unfold Trace.mark
    rw [Table.holding_append, ← h.table_eq, hlook]
  · rw [hmem]
    simp

/-- A step of the search is a step of the frontier that it shows. -/
theorem agree_step (request : Request) (h : Shows model notify t sink s f)
    (hd : (step model notify request s).search.table.dropped = 0) :
    Agree model notify t sink (f.trace.seen ++ (s.lookup? model).toList.filterMap inserted?)
      (step model notify request s) (f.step model request t.accepts) := by
  obtain ⟨work, trace⟩ := f
  have hcase := step_cases notify request h.toPacked
  have hpacked : ∀ s' work', step model notify request s = .next s' → s'.pending = .ofList work' →
      (∀ entry ∈ work', entry.2.length = model.stateSize) → Packed model work' s' := fun _ _ hs => h.toPacked.of_step hs
  have hrest : ∀ entry rest, work = entry :: rest → ∀ e ∈ rest, e.2.length = model.stateSize :=
    fun _ _ hwork e he => h.length_eq e (hwork ▸ List.mem_cons_of_mem _ he)
  generalize step model notify request s = p at hcase hd hpacked ⊢
  generalize s.lookup? model = l at hcase ⊢
  cases hcase with
  | nil => exact .done h.records (by simp) (by rw [h.records.report_eq]; rfl)
  | visible =>
    have hnext := hpacked _ _ rfl rfl (hrest _ _ rfl)
    refine .next ⟨hnext, h.table_eq, h.tidy, h.dropped_eq, ?_⟩ (by simp [Trace.tell])
    exact (h.records.with_buffers _).tell _ false
  | found hlook =>
    -- the table has no tombstone to move the state into, so it stays the table of the states seen
    obtain ⟨hseen, rfl⟩ := h.found hlook
    have hnext := hpacked _ _ rfl rfl (hrest _ _ rfl)
    rw [(Frontier.StepCase.seen hseen).step_eq]
    exact .next ⟨hnext, h.table_eq, h.tidy, h.dropped_eq, h.records.with_buffers _⟩ (by simp [inserted?])
  | full hlook =>
    obtain ⟨hseen, -, hmem⟩ := h.not_found hlook (by simp) hd
    rw [(Frontier.StepCase.refused hseen (h.accepts_full hlook)).step_eq]
    exact .done ⟨fun key => by simpa using hmem key, h.records.report_eq, h.records.sink_eq⟩ (by simp [inserted?]) rfl
  | illSized hlook hill =>
    obtain ⟨hseen, haccept, -, -, hrecords⟩ := h.inserted hlook hd
    rw [(Frontier.StepCase.illSized hseen haccept hill).step_eq]
    exact .done (hrecords _) (by simp [inserted?, Trace.mark]) rfl
  | broken hlook hill hempty =>
    obtain ⟨hseen, haccept, htable, htidy, hrecords⟩ := h.inserted hlook hd
    have hnext := hpacked _ _ rfl rfl (hrest _ _ rfl)
    rw [(Frontier.StepCase.broken hseen haccept hill hempty).step_eq]
    exact .next ⟨hnext, htable, htidy, hd, (hrecords _).tell _ true⟩ (by simp [Trace.tell, Trace.mark, inserted?])
  | expanded hlook hill hne =>
    obtain ⟨hseen, haccept, htable, htidy, hrecords⟩ := h.inserted hlook hd
    have hnext := hpacked _ _ rfl rfl (h.toPacked.length_expanded rfl hill)
    rw [(Frontier.StepCase.expanded hseen haccept hill hne).step_eq]
    exact .next ⟨hnext, htable, htidy, hd, hrecords _⟩ (by simp [Trace.mark, inserted?])

/-! ## All steps -/

/-- A search does what the frontier that it shows comes to, if growth drops nothing until its end. -/
theorem runs_of_shows (h : Shows model notify t sink s f) (hd : (run model notify request s).1.table.dropped = 0) :
    ∃ trace result, f.Runs model request t.accepts trace result ∧
      Records notify sink (run model notify request s).1 trace ∧
      (run model notify request s).2 = result.map (fun _ => trace.report) ∧
      trace.seen = f.trace.seen ++ expanded model notify request s := by
  induction s using run.induct model notify request generalizing f with
  | case1 s s' report hs =>
    rw [run_of_done hs] at hd
    have hagree := agree_step request h (by rw [hs]; exact hd)
    rw [run_of_done hs, expanded_of_done hs]
    rw [hs] at hagree
    generalize hf : f.step model request t.accepts = n at hagree
    cases hagree with
    | done hrecords hseen hreport => exact ⟨_, _, .done hf, hrecords, hreport, hseen⟩
  | case2 s s' hs ih =>
    rw [run_of_next hs] at hd
    obtain ⟨work', hnext, -⟩ := h.toPacked.next hs
    -- drops are counted up to the end, so there was none by the end of this step
    obtain ⟨keys, hext⟩ := extends_run notify request hnext
    have hle := hext.dropped_le
    have hagree := agree_step request h (by rw [hs]; exact Nat.le_zero.1 (hd ▸ hle))
    rw [run_of_next hs, expanded_of_next hs]
    rw [hs] at hagree
    generalize hf : f.step model request t.accepts = n at hagree
    cases hagree with
    | next hshows hseen =>
      obtain ⟨trace, result, hruns, hrecords, hreport, heq⟩ := ih hshows hd
      refine ⟨trace, result, .more hf hruns, hrecords, hreport, ?_⟩
      rw [heq, hseen, List.append_assoc]

theorem shows_start (ht : t.Geometry) (hg : checkGeometry model t request = .ok ()) :
    Shows model notify t sink (start t request sink) ⟨[(.internal, request.state)], {}⟩ := by
  refine ⟨packed_start ht hg sink, rfl, Table.tidy_clear t, rfl, fun state => ?_, rfl, rfl⟩
  simpa [start] using Table.not_mem_clear t state

end

end Search

/-! ## Sessions -/

section

variable {σ : Type} {model : Model} {notify : σ → Event → σ} {request : Request} {t : Table}

/-- What a session leaves is what an ideal search comes to. -/
theorem Explorer.runs_explore (e : Explorer) (ht : t.Geometry) (hg : checkGeometry model t request = .ok ()) (sink : σ)
    (hd : (e.explore t model notify request sink).table.dropped = 0) :
    ∃ trace result, Frontier.Runs model request t.accepts ⟨[(.internal, request.state)], {}⟩ trace result ∧
      (∀ state, state ∈ (e.explore t model notify request sink).table ↔ state ∈ trace.seen) ∧
      (e.explore t model notify request sink).sink = trace.events.foldl notify sink ∧
      (e.explore t model notify request sink).result = result.map (fun _ => trace.report) ∧
      trace.seen = Search.expanded model notify request (Search.start t request sink) := by
  rw [e.explore_eq hg] at hd ⊢
  obtain ⟨trace, result, hruns, hrecords, hreport, hseen⟩ := Search.runs_of_shows (Search.shows_start ht hg) hd
  exact ⟨trace, result, hruns, hrecords.mem_iff, hrecords.sink_eq, hreport, by simpa using hseen⟩

/-- **A session is the recursion.** If growth drops nothing, a session of the right geometry tells its sink what the
recursion tells, in order and on behalf of the group of the request, gives the counters of the recursion, and fails
where and as the recursion fails over a set that turns a state away when the table has no room for it. Unless that
happens, it is the recursion over an ideal set. -/
theorem Explorer.explore_eq_visit (e : Explorer) (ht : t.Reachable) (hg : checkGeometry model t request = .ok ())
    (sink : σ) (hd : (e.explore t model notify request sink).table.dropped = 0) :
    ∃ trace result, (model.visit request t.accepts request.state).runFrom {} = some (result, trace) ∧
      (e.explore t model notify request sink).sink = trace.events.foldl notify sink ∧
      (e.explore t model notify request sink).result = result.map (fun _ => trace.report) ∧
      (∀ event ∈ trace.events, event.group = request.group) ∧
      ((∀ error, result ≠ .error (.table error)) →
        (model.visit request acceptAll request.state).runFrom {} = some (result, trace)) := by
  obtain ⟨trace, result, hruns, -, hsink, hresult, -⟩ := e.runs_explore ht.wellFormed.toGeometry hg sink hd
  refine ⟨trace, result, hruns.runFrom_visit, hsink, hresult, hruns.group_eq (by simp), fun hroom => ?_⟩
  exact (hruns.acceptAll (fun _ _ _ => Table.accepts_error) hroom).runFrom_visit

end

/-- A cycle of two states, an edge that leaves the first of them, and an edge from the second to a state without
successors. -/
def knot : RuleModel where
  stateSize := 1
  edges := [⟨[0], ⟨0⟩, ⟨0⟩, [1]⟩, ⟨[0], ⟨0⟩, ⟨1⟩, [2]⟩, ⟨[1], ⟨0⟩, ⟨0⟩, [0]⟩, ⟨[1], ⟨0⟩, ⟨0⟩, [3]⟩]
  leaving := [⟨1⟩]
  rules := []
  announced := none

/-- The session on that model from its first state. -/
def knotSession : Outcome (List Event) :=
  Explorer.explore {} (Table.empty ⟨1, 2, 3⟩) knot.model (fun events e => e :: events) ⟨[0], ⟨0⟩, ⟨7⟩⟩ []

theorem Explorer.explore_eq_visit_knot :
    checkGeometry knot.model (Table.empty ⟨1, 2, 3⟩) ⟨[0], ⟨0⟩, ⟨7⟩⟩ = .ok () ∧ knotSession.table.dropped = 0 ∧
    ∃ trace result,
      (knot.model.visit ⟨[0], ⟨0⟩, ⟨7⟩⟩ (Table.empty ⟨1, 2, 3⟩).accepts [0]).runFrom {} = some (result, trace) ∧
        knotSession.sink = trace.events.foldl (fun events e => e :: events) [] := by
  have hc : Table.create ⟨1, 2, 3⟩ = .ok (Table.empty ⟨1, 2, 3⟩) := by decide
  have hg : checkGeometry knot.model (Table.empty ⟨1, 2, 3⟩) ⟨[0], ⟨0⟩, ⟨7⟩⟩ = .ok () := by decide
  have hrun : (Search.runFor knot.model (fun events e => e :: events) ⟨[0], ⟨0⟩, ⟨7⟩⟩ 8
      (Search.start (Table.empty ⟨1, 2, 3⟩) ⟨[0], ⟨0⟩, ⟨7⟩⟩ [])).map (·.2.1.table.dropped) = some 0 := by
    decide +kernel
  obtain ⟨r, hr, hd⟩ := Option.map_eq_some_iff.1 hrun
  rw [Search.eq_of_runFor hr] at hd
  have hd' : knotSession.table.dropped = 0 := by
    unfold knotSession
    rwa [Explorer.explore_eq _ hg]
  obtain ⟨trace, result, hvisit, hsink, -⟩ := Explorer.explore_eq_visit {} (.create hc) hg [] hd'
  exact ⟨hg, hd', trace, result, hvisit, hsink⟩

end StateSpace
