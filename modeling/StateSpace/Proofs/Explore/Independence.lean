import StateSpace.Explore.Search
import StateSpace.Proofs.Table.Clearing

/-!
# What a search does not depend on

A search does not depend on what its explorer holds for the current state and for its successors, since every step
fills these buffers before it reads them; nor does it depend on slots of its table that are not in use, nor on what its
sink does with the events. So searches with the same states pending, on tables that lookups do not tell apart, make
steps that correspond (`matches_step`), tell their sinks the same, and end with the same result (`matches_run`). The
pending states are another matter: a search works off whatever it finds there, so a session discards them at its start
(`Explorer.explore_congr`).
-/

namespace StateSpace

/-- No lookup tells related tables apart. -/
structure Table.Indistinct (like : Table → Table → Prop) : Prop where
  summary_eq : ∀ {t t' : Table}, like t t' → t'.summary = t.summary
  lookup : ∀ {t t' : Table} (key : State), like t t' →
    (t'.lookupKey key).1 = (t.lookupKey key).1 ∧ like (t.lookupKey key).2 (t'.lookupKey key).2

theorem Table.indistinct_eq : Table.Indistinct Eq where
  summary_eq := fun h => by rw [h]
  lookup := fun key h => by rw [h]; exact ⟨rfl, rfl⟩

theorem Table.indistinct_alike : Table.Indistinct Table.Alike where
  summary_eq := fun h => by simp only [summary, h.config_eq, h.stats_eq]
  lookup := fun key h => sameResult_lookupKey h key

namespace Search

variable {σ τ : Type}

/-- The searches have the same states pending and have done the same, and their tables and their sinks are related.
Their other buffers may hold anything. -/
structure Matches (like : Table → Table → Prop) (told : σ → τ → Prop) (s : Search σ) (s' : Search τ) : Prop where
  pending_eq : s'.pending = s.pending
  table : like s.table s'.table
  report_eq : s'.report = s.report
  sink : told s.sink s'.sink

/-- Two steps lead to searches that match, and end the search with the same result if they end it. -/
inductive Progress.Matches (like : Table → Table → Prop) (told : σ → τ → Prop) : Progress σ → Progress τ → Prop
  | next {s : Search σ} {s' : Search τ} : Search.Matches like told s s' →
      Progress.Matches like told (.next s) (.next s')
  | done {s : Search σ} {s' : Search τ} {result : Except ExploreError Report} : Search.Matches like told s s' →
      Progress.Matches like told (.done s result) (.done s' result)

/-- Sinks that are related stay so when both are told an event. -/
def Keeps (told : σ → τ → Prop) (notify : σ → Event → σ) (notify' : τ → Event → τ) : Prop :=
  ∀ k k' event, told k k' → told (notify k event) (notify' k' event)

theorem keeps_eq (notify : σ → Event → σ) : Keeps Eq notify notify := fun _ _ _ h => by rw [h]

section

variable {like : Table → Table → Prop} {told : σ → τ → Prop} {model : Model} {notify : σ → Event → σ}
  {notify' : τ → Event → τ} {request : Request} {s : Search σ} {s' : Search τ}

/-- An expansion collects its successors anew, whatever was collected before. -/
theorem Matches.enter (htold : Keeps told notify notify') (h : Matches like told s s')
    (hcurrent : s'.current = s.current) :
    Progress.Matches like told (enter model notify request s) (enter model notify' request s') := by
  obtain ⟨⟨pending, current, batch⟩, table, report, sink⟩ := s
  obtain ⟨⟨pending', current', batch'⟩, table', report', sink'⟩ := s'
  obtain ⟨hpending, htable, hreport, hsink⟩ := h
  dsimp only at hpending htable hreport hsink hcurrent
  subst hpending hreport hcurrent
  unfold Search.enter
  dsimp only
  split
  · exact .done ⟨rfl, htable, rfl, hsink⟩
  · split
    · exact .next ⟨rfl, htable, rfl, htold _ _ _ hsink⟩
    · exact .next ⟨rfl, htable, rfl, hsink⟩

/-- Searches that match make steps that match. -/
theorem matches_step (hlike : Table.Indistinct like) (htold : Keeps told notify notify') (model : Model)
    (request : Request) (h : Matches like told s s') :
    Progress.Matches like told (step model notify request s) (step model notify' request s') := by
  obtain ⟨⟨pending, current, batch⟩, table, report, sink⟩ := s
  obtain ⟨⟨pending', current', batch'⟩, table', report', sink'⟩ := s'
  obtain ⟨hpending, htable, hreport, hsink⟩ := h
  dsimp only at hpending htable hreport hsink
  subst hpending hreport
  simp only [step]
  split
  · exact .done ⟨rfl, htable, rfl, hsink⟩
  · exact .done ⟨rfl, htable, rfl, hsink⟩
  · exact .next ⟨rfl, htable, rfl, htold _ _ _ hsink⟩
  · rename_i state rest _
    have hcheck : table'.checkLength state = table.checkLength state := by
      have hconfig : table'.config = table.config := congrArg Table.Summary.config (hlike.summary_eq htable)
      simp only [Table.checkLength, hconfig]
    obtain ⟨hanswer, hlook⟩ := hlike.lookup state htable
    rw [hcheck]
    generalize table.lookupKey state = r at hanswer hlook
    generalize table'.lookupKey state = r' at hanswer hlook
    obtain ⟨answer, t⟩ := r
    obtain ⟨answer', t'⟩ := r'
    cases hanswer
    dsimp only at hlook
    split
    · exact .done ⟨rfl, htable, rfl, hsink⟩
    · cases answer with
      | found => exact .next ⟨rfl, hlook, rfl, hsink⟩
      | full =>
        have hfull : t'.fullError = t.fullError := congrArg Table.Summary.fullError (hlike.summary_eq hlook)
        dsimp only
        rw [hfull]
        exact .done ⟨rfl, hlook, rfl, hsink⟩
      | inserted => exact Matches.enter htold ⟨rfl, hlook, rfl, hsink⟩ rfl

/-- Searches that match end in searches that match, with the same result. -/
theorem matches_run (hlike : Table.Indistinct like) (htold : Keeps told notify notify') (model : Model)
    (request : Request) (h : Matches like told s s') :
    Matches like told (run model notify request s).1 (run model notify' request s').1 ∧
      (run model notify' request s').2 = (run model notify request s).2 := by
  -- on the first search: the second one ends when it does, since their steps match
  induction s using run.induct model notify request generalizing s' with
  | case1 s last result hs =>
    have hstep := matches_step hlike htold model request h
    rw [hs] at hstep
    generalize hs' : step model notify' request s' = p at hstep
    cases hstep with
    | done hlast =>
      rw [run_of_done hs, run_of_done hs']
      exact ⟨hlast, rfl⟩
  | case2 s next hs ih =>
    have hstep := matches_step hlike htold model request h
    rw [hs] at hstep
    generalize hs' : step model notify' request s' = p at hstep
    cases hstep with
    | next hnext =>
      rw [run_of_next hs, run_of_next hs']
      exact ih hnext

end

end Search

/-! ## Sessions -/

section

variable {σ τ : Type} {told : σ → τ → Prop} {model : Model} {notify : σ → Event → σ} {notify' : τ → Event → τ}
  {request : Request} {t t' : Table}

theorem checkGeometry_congr (h : t'.config = t.config) :
    checkGeometry model t' request = checkGeometry model t request := by
  unfold checkGeometry
  rw [h]

/-- The first search of a session, by an explorer that has not been used. -/
def Search.start (t : Table) (request : Request) (sink : σ) : Search σ :=
  ⟨{ pending := .push .internal request.state {} }, t.clear, {}, sink⟩

/-- A session of the wrong geometry does nothing. -/
theorem Explorer.explore_of_error (e : Explorer) {error : ExploreError}
    (hg : checkGeometry model t request = .error error) (sink : σ) :
    e.explore t model notify request sink = ⟨e, t, sink, .error error⟩ := by
  unfold Explorer.explore
  rw [hg]

/-- A session of the right geometry is one search; the explorer matters to no more than the buffers that are left. -/
theorem Explorer.explore_eq (e : Explorer) (hg : checkGeometry model t request = .ok ()) (sink : σ) :
    e.explore t model notify request sink =
      let (s, result) := Search.run model notify request (Search.start t request sink)
      ⟨(e.explore t model notify request sink).explorer, s.table, s.sink, result⟩ := by
  have hstart : Search.Matches Eq Eq (Search.start t request sink)
      ⟨{ e with pending := .push .internal request.state {} }, t.clear, {}, sink⟩ := ⟨rfl, rfl, rfl, rfl⟩
  obtain ⟨hmatches, hresult⟩ := Search.matches_run Table.indistinct_eq (Search.keeps_eq notify) model request hstart
  unfold Explorer.explore
  rw [hg]
  dsimp only
  rw [hmatches.table, hmatches.sink, hresult]

/-- Sessions on tables of one geometry do the same, whatever their explorers and their tables hold and whatever their
sinks do with the events. -/
theorem Explorer.explore_related (e e' : Explorer) (model : Model) (htold : Search.Keeps told notify notify')
    (request : Request) (hconfig : t'.config = t.config) (hsize : t'.slots.size = t.slots.size) {sink : σ} {sink' : τ}
    (hsink : told sink sink') :
    let o := e.explore t model notify request sink
    let o' := e'.explore t' model notify' request sink'
    o'.result = o.result ∧ told o.sink o'.sink ∧
      (checkGeometry model t request = .ok () → Table.Alike o.table o'.table) := by
  have hgeometry : checkGeometry model t' request = checkGeometry model t request := checkGeometry_congr hconfig
  dsimp only
  cases hg : checkGeometry model t request with
  | error error =>
    rw [e.explore_of_error hg, e'.explore_of_error (hgeometry.trans hg)]
    exact ⟨rfl, hsink, fun hok => by cases hok⟩
  | ok u =>
    rw [e.explore_eq hg, e'.explore_eq (hgeometry.trans hg)]
    have hstart : Search.Matches Table.Alike told (Search.start t request sink) (Search.start t' request sink') :=
      ⟨rfl, Table.alike_clear_clear hconfig hsize, rfl, hsink⟩
    obtain ⟨hmatches, hresult⟩ := Search.matches_run Table.indistinct_alike htold model request hstart
    exact ⟨hresult, hmatches.sink, fun _ => hmatches.table⟩

/-- Sessions on one table do the same to it, whatever their sinks do with the events. -/
theorem Explorer.explore_told (htold : Search.Keeps told notify notify') (e : Explorer) (t : Table) (model : Model)
    (request : Request) (sink : σ) (sink' : τ) (hsink : told sink sink') :
    let o := e.explore t model notify request sink
    let o' := e.explore t model notify' request sink'
    o'.result = o.result ∧ told o.sink o'.sink ∧ o'.table = o.table := by
  dsimp only
  cases hg : checkGeometry model t request with
  | error error =>
    rw [e.explore_of_error hg, e.explore_of_error hg]
    exact ⟨rfl, hsink, rfl⟩
  | ok u =>
    have heq : e.explore t model notify request sink = _ := e.explore_eq hg sink
    have heq' : e.explore t model notify' request sink' = _ := e.explore_eq hg sink'
    rw [heq, heq']
    have hstart : Search.Matches Eq told (Search.start t request sink) (Search.start t request sink') :=
      ⟨rfl, rfl, rfl, hsink⟩
    obtain ⟨hmatches, hresult⟩ := Search.matches_run Table.indistinct_eq htold model request hstart
    exact ⟨hresult, hmatches.sink, hmatches.table.symm⟩

/-- Sessions with one sink on tables of one geometry do the same, whatever their explorers and their tables hold. -/
theorem Explorer.explore_congr (e e' : Explorer) (model : Model) (notify : σ → Event → σ) (request : Request)
    (hconfig : t'.config = t.config) (hsize : t'.slots.size = t.slots.size) (sink : σ) :
    let o := e.explore t model notify request sink
    let o' := e'.explore t' model notify request sink
    o'.result = o.result ∧ o'.sink = o.sink ∧
      (checkGeometry model t request = .ok () → Table.Alike o.table o'.table) := by
  obtain ⟨hresult, hsink, htable⟩ :=
    e.explore_related e' model (Search.keeps_eq notify) request hconfig hsize (Eq.refl sink)
  exact ⟨hresult, hsink.symm, htable⟩

/-- Sessions on tables that are alike leave tables that are alike. -/
theorem Explorer.alike_explore (e e' : Explorer) (model : Model) (notify : σ → Event → σ) (request : Request)
    (h : Table.Alike t t') (sink : σ) :
    let o := e.explore t model notify request sink
    let o' := e'.explore t' model notify request sink
    o'.result = o.result ∧ o'.sink = o.sink ∧ Table.Alike o.table o'.table := by
  obtain ⟨hresult, hsink, htable⟩ := e.explore_congr e' model notify request h.config_eq h.size_eq sink
  refine ⟨hresult, hsink, ?_⟩
  cases hg : checkGeometry model t request with
  | error error =>
    rw [e.explore_of_error hg, e'.explore_of_error ((checkGeometry_congr h.config_eq).trans hg)]
    exact h
  | ok u => exact htable hg

end

end StateSpace
