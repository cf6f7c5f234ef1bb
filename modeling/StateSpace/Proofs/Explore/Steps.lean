import StateSpace.Proofs.Explore.Frontier
import StateSpace.Proofs.Explore.Independence

/-!
# What a search does

A search is packed (`Packed`) if its stack holds given states, all as long as the keys of its table. `StepCase` lists
all that a step of a packed search can do (`step_cases`); it never meets a stack with too few words. `lookups` are the
states that a search looks up until it is done, with the answers of the table, and `expanded` are those that were new.
-/

namespace StateSpace

/-! ## Stacks of states -/

namespace Pending

theorem marks_ofList (states : List (Mark × State)) : (ofList states).marks = states.map Prod.fst := by
  induction states with
  | nil => rfl
  | cons entry rest ih => rw [ofList_cons, push, ih, List.map_cons]

theorem ofList_append (states states' : List (Mark × State)) :
    (ofList states).append (ofList states') = ofList (states ++ states') := by
  rw [append_ofList]
  unfold ofList
  rw [List.foldr_append]

end Pending

theorem Model.illSized?_eq_none {model : Model} {request : Request} {state : State} :
    model.illSized? request state = none ↔
      ∀ successor ∈ model.successors request state, successor.2.length = model.stateSize := by
  simp [illSized?]

theorem Model.length_of_illSized {model : Model} {request : Request} {state : State}
    {successor : TransitionGroup × State} (h : model.illSized? request state = some successor) :
    successor ∈ model.successors request state ∧ successor.2.length ≠ model.stateSize := by
  refine ⟨List.mem_of_find?_eq_some h, ?_⟩
  simpa using List.find?_some h

/-- The successors of the right length, as an expansion collects them. -/
def Model.batch (model : Model) (request : Request) (state : State) : Pending :=
  .ofList (((model.successors request state).filter fun successor => successor.2.length = model.stateSize).map
    model.pend)

/-- If all successors have the right length, they are all collected. -/
theorem Model.batch_eq {model : Model} {request : Request} {state : State}
    (h : model.illSized? request state = none) :
    model.batch request state = .ofList ((model.successors request state).map model.pend) := by
  have hall : (model.successors request state).filter (fun successor => successor.2.length = model.stateSize) =
      model.successors request state := by
    simpa using illSized?_eq_none.1 h
  unfold batch
  rw [hall]

/-- A state of the right length is expanded unless one of its successors has another length. -/
theorem expand_eq {model : Model} {request : Request} {state : State} (h : state.length = model.stateSize) :
    expand model request.process state = match model.illSized? request state with
      | some (_, s) => (.error (.stateLength model.stateSize s.length), model.batch request state)
      | none => (.ok (), model.batch request state) := by
  unfold expand
  rw [h]
  rfl

/-- The counters after one more state was expanded. -/
def Report.entered (r : Report) : Report := { r with internal := r.internal + 1 }

namespace Search

variable {σ : Type}

/-! ## One step -/

/-- The pending states are the given ones, and all states have the length of a key. -/
structure Packed (model : Model) (work : List (Mark × State)) (s : Search σ) : Prop where
  pending_eq : s.pending = .ofList work
  length_eq : ∀ entry ∈ work, entry.2.length = model.stateSize
  wellFormed : s.table.WellFormed
  keyLength_eq : s.table.config.keyLength = model.stateSize

/-- The state that the next step looks up, and the answer. -/
def lookup? (model : Model) (s : Search σ) : Option (State × Lookup) :=
  match s.pending.pop model.stateSize with
  | .state .internal state _ =>
    match s.table.checkLength state with
    | .error _ => none
    | .ok () => some (state, (s.table.lookupKey state).1)
  | _ => none

/-- The search that a step leaves. -/
def Progress.search : Progress σ → Search σ
  | .next s => s
  | .done s _ => s

/-- What a step of a search with the given pending states looks up, and what it leads to. -/
inductive StepCase (model : Model) (notify : σ → Event → σ) (request : Request) (s : Search σ) :
    List (Mark × State) → Option (State × Lookup) → Progress σ → Prop
  | nil : StepCase model notify request s [] none (.done s (.ok s.report))
  | visible {state : State} {rest : List (Mark × State)} :
      StepCase model notify request s ((.visible, state) :: rest) none
        (.next (tell notify request state false ⟨⟨.ofList rest, state, s.batch⟩, s.table, s.report, s.sink⟩))
  | found {state : State} {rest : List (Mark × State)} {table : Table} :
      s.table.lookupKey state = (.found, table) →
      StepCase model notify request s ((.internal, state) :: rest) (some (state, .found))
        (.next ⟨⟨.ofList rest, state, s.batch⟩, table, s.report, s.sink⟩)
  | full {state : State} {rest : List (Mark × State)} {table : Table} :
      s.table.lookupKey state = (.full, table) →
      StepCase model notify request s ((.internal, state) :: rest) (some (state, .full))
        (.done ⟨⟨.ofList rest, state, s.batch⟩, table, s.report, s.sink⟩ (.error (.table table.fullError)))
  | illSized {state : State} {rest : List (Mark × State)} {table : Table} {successor : TransitionGroup × State} :
      s.table.lookupKey state = (.inserted, table) → model.illSized? request state = some successor →
      StepCase model notify request s ((.internal, state) :: rest) (some (state, .inserted))
        (.done ⟨⟨.ofList rest, state, model.batch request state⟩, table, s.report.entered, s.sink⟩
          (.error (.stateLength model.stateSize successor.2.length)))
  | broken {state : State} {rest : List (Mark × State)} {table : Table} :
      s.table.lookupKey state = (.inserted, table) → model.illSized? request state = none →
      model.successors request state = [] →
      StepCase model notify request s ((.internal, state) :: rest) (some (state, .inserted))
        (.next (tell notify request state true
          ⟨⟨.ofList rest, state, model.batch request state⟩, table, s.report.entered, s.sink⟩))
  | expanded {state : State} {rest : List (Mark × State)} {table : Table} :
      s.table.lookupKey state = (.inserted, table) → model.illSized? request state = none →
      model.successors request state ≠ [] →
      StepCase model notify request s ((.internal, state) :: rest) (some (state, .inserted))
        (.next ⟨⟨.ofList ((model.successors request state).map model.pend ++ rest), state, model.batch request state⟩,
          table, s.report.entered, s.sink⟩)

section

variable {model : Model} (notify : σ → Event → σ) (request : Request) {work : List (Mark × State)} {s s' : Search σ}

/-- All that a step of a packed search can do. -/
theorem step_cases (h : Packed model work s) :
    StepCase model notify request s work (s.lookup? model) (step model notify request s) := by
  obtain ⟨⟨pending, current, batch⟩, table, report, sink⟩ := s
  obtain ⟨hpending, hlength, -, hkey⟩ := h
  dsimp only at hpending hkey
  subst hpending
  cases work with
  | nil => exact .nil
  | cons entry rest =>
    obtain ⟨mark, state⟩ := entry
    have hs : state.length = model.stateSize := hlength _ List.mem_cons_self
    have hpop : (Pending.ofList ((mark, state) :: rest)).pop model.stateSize = .state mark state (.ofList rest) := by
      rw [Pending.ofList_cons, ← hs, Pending.pop_push]
    cases mark with
    | visible =>
      simp only [step, lookup?, hpop]
      exact .visible
    | internal =>
      have hcheck : table.checkLength state = .ok () := if_pos (hs.trans hkey.symm)
      simp only [step, lookup?, hpop, hcheck]
      rcases hlook : table.lookupKey state with ⟨answer, table'⟩
      cases answer with
      | found => exact .found hlook
      | full => exact .full hlook
      | inserted =>
        unfold enter
        dsimp only
        rw [expand_eq hs]
        cases hill : model.illSized? request state with
        | some successor => exact .illSized hlook hill
        | none =>
          have hmarks : (model.batch request state).marks =
              ((model.successors request state).map model.pend).map Prod.fst := by
            rw [Model.batch_eq hill, Pending.marks_ofList]
          have happend : (model.batch request state).append (.ofList rest) =
              .ofList ((model.successors request state).map model.pend ++ rest) := by
            rw [Model.batch_eq hill, Pending.ofList_append]
          dsimp only
          rw [hmarks, happend]
          split
          · rename_i hempty
            exact .broken hlook hill (by simpa using hempty)
          · rename_i hempty
            exact .expanded hlook hill (by simpa using hempty)

/-- A step leaves the table alone or looks up one state. -/
theorem table_step (h : Packed model work s) : (step model notify request s).search.table = s.table ∨
    ∃ state, state.length = s.table.config.keyLength ∧
      (step model notify request s).search.table = (s.table.lookupKey state).2 := by
  have hcase := step_cases notify request h
  have hlength := h.length_eq
  rw [← h.keyLength_eq] at hlength
  generalize step model notify request s = p at hcase
  generalize s.lookup? model = l at hcase
  cases hcase with
  | nil => exact .inl rfl
  | visible => exact .inl rfl
  | found hlook | full hlook | illSized hlook | broken hlook | expanded hlook =>
    exact .inr ⟨_, hlength _ List.mem_cons_self, by rw [hlook]; rfl⟩

/-- A step adds members to the table, and loses none unless growth drops one. -/
theorem extends_step (h : Packed model work s) :
    ∃ keys, s.table.Extends (step model notify request s).search.table keys := by
  rcases table_step notify request h with heq | ⟨state, hlength, heq⟩
  · rw [heq]
    exact ⟨_, .refl h.wellFormed⟩
  · rw [heq]
    exact ⟨_, (Table.looked_lookupKey h.wellFormed hlength).extends_⟩

/-- A step on a table in use leaves one. -/
theorem reachable_step (h : Packed model work s) (ht : s.table.Reachable) :
    (step model notify request s).search.table.Reachable := by
  rcases table_step notify request h with heq | ⟨state, hlength, heq⟩
  · rwa [heq]
  · have hop : s.table.check (.insert state) = .ok () := if_pos hlength
    have happly := ht.apply (.insert state)
    rw [Table.apply_of_check hop] at happly
    rwa [heq]

variable {notify request}

/-- The next search is packed if its stack holds states of the right length. -/
theorem Packed.of_step {work' : List (Mark × State)} (h : Packed model work s)
    (hs : step model notify request s = .next s') (hpending : s'.pending = .ofList work')
    (hlength : ∀ entry ∈ work', entry.2.length = model.stateSize) : Packed model work' s' := by
  obtain ⟨keys, hext⟩ := extends_step notify request h
  rw [hs] at hext
  exact ⟨hpending, hlength, hext.wellFormed, by rw [← h.keyLength_eq]; exact congrArg _ hext.config_eq⟩

/-- The successors of a state that is expanded have the right length, as the states below them have. -/
theorem Packed.length_expanded {state : State} {rest : List (Mark × State)} (h : Packed model work s)
    (hwork : work = (.internal, state) :: rest) (hill : model.illSized? request state = none) :
    ∀ entry ∈ (model.successors request state).map model.pend ++ rest, entry.2.length = model.stateSize := by
  intro entry hentry
  rcases List.mem_append.1 hentry with hnew | hold
  · obtain ⟨successor, hmem, rfl⟩ := List.mem_map.1 hnew
    exact Model.illSized?_eq_none.1 hill successor hmem
  · exact h.length_eq entry (hwork ▸ List.mem_cons_of_mem _ hold)

/-- What is pending after a step was pending before, or is a successor of a state that was. -/
theorem Packed.next (h : Packed model work s) (hs : step model notify request s = .next s') :
    ∃ work', Packed model work' s' ∧ ∀ entry ∈ work', entry ∈ work ∨
      ∃ state, (.internal, state) ∈ work ∧ entry ∈ (model.successors request state).map model.pend := by
  have hcase := step_cases notify request h
  have hpacked : ∀ work', s'.pending = .ofList work' → (∀ entry ∈ work', entry.2.length = model.stateSize) →
      Packed model work' s' := fun _ => h.of_step hs
  rw [hs] at hcase
  generalize s.lookup? model = l at hcase
  cases hcase with
  | visible | found | broken =>
    refine ⟨_, hpacked _ rfl fun entry hentry => ?_, fun entry hentry => .inl (List.mem_cons_of_mem _ hentry)⟩
    exact h.length_eq entry (List.mem_cons_of_mem _ hentry)
  | expanded hlook hill hnext =>
    rename_i state rest table
    refine ⟨_, hpacked _ rfl (h.length_expanded rfl hill), fun entry hentry => ?_⟩
    rcases List.mem_append.1 hentry with hnew | hold
    · exact .inr ⟨state, List.mem_cons_self, hnew⟩
    · exact .inl (List.mem_cons_of_mem _ hold)

end

/-! ## All steps -/

/-- Less is left to do after a step. -/
theorem measure_lt {model : Model} {notify : σ → Event → σ} {request : Request} {s s' : Search σ}
    (h : step model notify request s = .next s') :
    Prod.Lex (· < ·) (Prod.Lex (· < ·) (· < ·)) (s'.table.doublingsLeft, s'.table.roomLeft, s'.pending.marks.length)
      (s.table.doublingsLeft, s.table.roomLeft, s.pending.marks.length) := by
  simp only [Prod.lex_def]
  rcases step_decreases h with h | ⟨hd, h | ⟨hr, h⟩⟩
  · exact .inl h
  · exact .inr ⟨hd, .inl h⟩
  · exact .inr ⟨hd, .inr ⟨hr, h⟩⟩

/-- The states that a search looks up until it is done, in order, with the answers. -/
def lookups (model : Model) (notify : σ → Event → σ) (request : Request) (s : Search σ) : List (State × Lookup) :=
  (s.lookup? model).toList ++ match _h : step model notify request s with
    | .done .. => []
    | .next s' => lookups model notify request s'
termination_by (s.table.doublingsLeft, s.table.roomLeft, s.pending.marks.length)
decreasing_by exact measure_lt _h

/-- The state of an answer that it was new. -/
def inserted? : State × Lookup → Option State
  | (state, .inserted) => some state
  | _ => none

/-- The states that a search expands, in order. -/
def expanded (model : Model) (notify : σ → Event → σ) (request : Request) (s : Search σ) : List State :=
  (lookups model notify request s).filterMap inserted?

section

variable {model : Model} {notify : σ → Event → σ} {request : Request} {work : List (Mark × State)} {s s' : Search σ}
  {result : Except ExploreError Report}

theorem lookups_of_next (h : step model notify request s = .next s') :
    lookups model notify request s = (s.lookup? model).toList ++ lookups model notify request s' := by
  rw [lookups]
  split
  · simp_all
  · simp_all

theorem lookups_of_done (h : step model notify request s = .done s' result) :
    lookups model notify request s = (s.lookup? model).toList := by
  rw [lookups]
  split
  · simp
  · simp_all

theorem expanded_of_next (h : step model notify request s = .next s') : expanded model notify request s =
    (s.lookup? model).toList.filterMap inserted? ++ expanded model notify request s' := by
  unfold expanded
  rw [lookups_of_next h, List.filterMap_append]

theorem expanded_of_done (h : step model notify request s = .done s' result) :
    expanded model notify request s = (s.lookup? model).toList.filterMap inserted? := by
  unfold expanded
  rw [lookups_of_done h]

/-- At most `n` steps: the states looked up, the last search and the result, if the search is done by then. -/
def runFor (model : Model) (notify : σ → Event → σ) (request : Request) :
    Nat → Search σ → Option (List (State × Lookup) × Search σ × Except ExploreError Report)
  | 0, _ => none
  | n + 1, s =>
    match step model notify request s with
    | .done s' result => some ((s.lookup? model).toList, s', result)
    | .next s' => (runFor model notify request n s').map fun (later, last) => ((s.lookup? model).toList ++ later, last)

/-- Enough steps are all steps. -/
theorem eq_of_runFor {n : Nat} {r : List (State × Lookup) × Search σ × Except ExploreError Report}
    (h : runFor model notify request n s = some r) :
    r = (lookups model notify request s, run model notify request s) := by
  induction n generalizing s r with
  | zero => simp [runFor] at h
  | succ n ih =>
    unfold runFor at h
    cases hs : step model notify request s with
    | done s' result =>
      rw [hs] at h
      rw [lookups_of_done hs, run_of_done hs]
      exact (Option.some.inj h).symm
    | next s' =>
      rw [hs] at h
      obtain ⟨r', hr', rfl⟩ := Option.map_eq_some_iff.1 h
      rw [lookups_of_next hs, run_of_next hs, ih hr']

/-- A search adds members to its table, and loses none unless growth drops one. -/
theorem extends_run (notify : σ → Event → σ) (request : Request) (h : Packed model work s) :
    ∃ keys, s.table.Extends (run model notify request s).1.table keys := by
  induction s using run.induct model notify request generalizing work with
  | case1 s s' result hs =>
    rw [run_of_done hs]
    obtain ⟨keys, hext⟩ := extends_step notify request h
    rw [hs] at hext
    exact ⟨keys, hext⟩
  | case2 s s' hs ih =>
    rw [run_of_next hs]
    obtain ⟨keys, hext⟩ := extends_step notify request h
    obtain ⟨work', hnext, -⟩ := h.next hs
    obtain ⟨keys', hext'⟩ := ih hnext
    rw [hs] at hext
    exact ⟨keys ++ keys', hext.trans hext'⟩

/-- A search that starts with a table in use leaves one. -/
theorem reachable_run (h : Packed model work s) (ht : s.table.Reachable) :
    (run model notify request s).1.table.Reachable := by
  induction s using run.induct model notify request generalizing work with
  | case1 s s' result hs =>
    have hstep := reachable_step notify request h ht
    rw [hs] at hstep
    rwa [run_of_done hs]
  | case2 s s' hs ih =>
    have hstep := reachable_step notify request h ht
    rw [hs] at hstep
    obtain ⟨work', hnext, -⟩ := h.next hs
    rw [run_of_next hs]
    exact ih hnext hstep

end

end Search

/-! ## Sessions -/

section

variable {σ : Type} {model : Model} {notify : σ → Event → σ} {request : Request} {t : Table}

theorem Search.packed_start (ht : t.Geometry) (hg : checkGeometry model t request = .ok ()) (sink : σ) :
    Packed model [(.internal, request.state)] (start t request sink) := by
  obtain ⟨hroot, hkey⟩ := checkGeometry_eq_ok.1 hg
  refine ⟨rfl, fun entry hentry => ?_, Table.wellFormed_clear ht, hkey⟩
  rw [List.mem_singleton.1 hentry]
  exact hroot

/-- Only a session of the right geometry ends well. -/
theorem Explorer.geometry_of_ok (e : Explorer) {sink : σ} {report : Report}
    (h : (e.explore t model notify request sink).result = .ok report) : checkGeometry model t request = .ok () := by
  cases hg : checkGeometry model t request with
  | error error => simp [Explorer.explore, hg] at h
  | ok u => rfl

/-- A session leaves the geometry of its table as it is. -/
theorem Explorer.config_explore (e : Explorer) (model : Model) (notify : σ → Event → σ) (request : Request)
    (ht : t.Reachable) (sink : σ) : (e.explore t model notify request sink).table.config = t.config := by
  cases hg : checkGeometry model t request with
  | error error => rw [e.explore_of_error hg]
  | ok u =>
    rw [e.explore_eq hg]
    obtain ⟨keys, hext⟩ := Search.extends_run notify request (Search.packed_start ht.wellFormed.toGeometry hg sink)
    exact hext.config_eq

/-- A session on a table in use leaves one. -/
theorem Explorer.reachable_explore (e : Explorer) (model : Model) (notify : σ → Event → σ) (request : Request)
    (ht : t.Reachable) (sink : σ) :
    (e.explore t model notify request sink).table.Reachable := by
  cases hg : checkGeometry model t request with
  | error error => simpa [Explorer.explore, hg] using ht
  | ok u =>
    rw [e.explore_eq hg]
    exact Search.reachable_run (Search.packed_start ht.wellFormed.toGeometry hg sink) (ht.apply .clear)

end

end StateSpace
