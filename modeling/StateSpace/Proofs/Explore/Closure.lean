import Mathlib.Algebra.BigOperators.Group.Finset.Defs
import Mathlib.Algebra.Order.Group.Multiset
import StateSpace.Proofs.Explore.Simulation

/-!
# What a search finds

`Reach` holds of the states that an atomic sequence comes to. An ideal search goes through them all and no others: at
every moment it knows the starting state and all successors of the states that it has seen, and what it has told and has
still to tell are the events of the states seen (`Covers`). So a search that ends well has expanded every state of the
closure once and has told the events of the closure, and it ends well unless a state or the table is wrong
(`explore_exact`).
-/

namespace StateSpace

/-- The states that the sequence from the starting state comes to. -/
inductive Reach (model : Model) (request : Request) : State → Prop
  | root : Reach model request request.state
  | step {state : State} {successor : TransitionGroup × State} : Reach model request state →
      successor ∈ model.successors request state → model.leaves successor.1 = false → Reach model request successor.2

/-- The events of a state: one for every edge that leaves, and a broken one if there is no edge at all. -/
def Model.events (model : Model) (request : Request) (state : State) : List Event :=
  ((model.successors request state).filter fun successor => model.leaves successor.1).map
      (fun successor => ⟨request.group, successor.2, false⟩) ++
    if (model.successors request state).isEmpty then [⟨request.group, state, true⟩] else []

theorem Model.pend_eq_internal {model : Model} {successor : TransitionGroup × State} {state : State} :
    (.internal, state) = model.pend successor ↔ model.leaves successor.1 = false ∧ successor.2 = state := by
  unfold pend
  cases model.leaves successor.1 <;> simp [eq_comm]

namespace Frontier

/-- The events of the states that wait to be told about. -/
def waiting (request : Request) (work : List (Mark × State)) : List Event :=
  (work.filter fun entry => entry.1 = .visible).map fun entry => ⟨request.group, entry.2, false⟩

/-- The state was seen, or waits to be visited. -/
def Knows (f : Frontier) (state : State) : Prop := state ∈ f.trace.seen ∨ (.internal, state) ∈ f.work

/-- What holds at every moment of an ideal search. -/
structure Covers (model : Model) (request : Request) (f : Frontier) : Prop where
  nodup : f.trace.seen.Nodup
  reach : ∀ state, f.Knows state → Reach model request state
  root : f.Knows request.state
  closed : ∀ state ∈ f.trace.seen, ∀ successor ∈ model.successors request state,
    model.leaves successor.1 = false → f.Knows successor.2
  /-- What was told and what is still to be told are the events of the states seen. -/
  events_perm : (f.trace.events ++ waiting request f.work).Perm (f.trace.seen.flatMap (model.events request))

section

variable {model : Model} {request : Request} {accept : Acceptance} {f f' : Frontier} {trace : Trace} {state : State}
  {rest : List (Mark × State)} {result : Except ExploreError Unit}

theorem waiting_append (work work' : List (Mark × State)) :
    waiting request (work ++ work') = waiting request work ++ waiting request work' := by
  simp [waiting]

/-- The events of a state that has successors wait on the stack. -/
theorem waiting_successors (hne : model.successors request state ≠ []) :
    waiting request ((model.successors request state).map model.pend) = model.events request state := by
  have hempty : (model.successors request state).isEmpty = false := by simpa using hne
  have hvisible : (fun entry : Mark × State => decide (entry.1 = .visible)) ∘ model.pend =
      fun successor => model.leaves successor.1 := by
    funext successor
    unfold Model.pend
    cases h : model.leaves successor.1 <;> simp [h]
  unfold waiting Model.events
  rw [List.filter_map, hvisible, List.map_map, hempty]
  simp [Model.pend, Function.comp_def]

theorem events_of_broken (hempty : model.successors request state = []) :
    model.events request state = [⟨request.group, state, true⟩] := by
  simp [Model.events, hempty]

/-! ## One step -/

theorem Knows.cons {s : State} (hk : Knows ⟨(.internal, state) :: rest, trace⟩ s) :
    s = state ∨ Knows ⟨rest, trace⟩ s := by
  rcases hk with hk | hk
  · exact .inr (.inl hk)
  · rcases List.mem_cons.1 hk with heq | hk
    · exact .inl (Prod.mk.inj heq).2
    · exact .inr (.inr hk)

theorem Covers.told (h : Covers model request ⟨(.visible, state) :: rest, trace⟩) :
    Covers model request ⟨rest, trace.tell request state false⟩ := by
  have hknows : ∀ s, Knows ⟨rest, trace.tell request state false⟩ s ↔ Knows ⟨(.visible, state) :: rest, trace⟩ s := by
    simp [Knows, Trace.tell]
  refine ⟨h.nodup, fun s hs => h.reach s ((hknows s).1 hs), (hknows _).2 h.root, ?_, ?_⟩
  · intro s hs successor hmem hleaves
    exact (hknows _).2 (h.closed s hs successor hmem hleaves)
  · simpa [waiting, Trace.tell] using h.events_perm

theorem Covers.skipped (h : Covers model request ⟨(.internal, state) :: rest, trace⟩) (hseen : state ∈ trace.seen) :
    Covers model request ⟨rest, trace⟩ := by
  have hknows : ∀ s, Knows ⟨(.internal, state) :: rest, trace⟩ s → Knows ⟨rest, trace⟩ s := by
    intro s hs
    rcases hs.cons with rfl | hs
    · exact .inl hseen
    · exact hs
  refine ⟨h.nodup, fun s hs => h.reach s (hs.imp_right (List.mem_cons_of_mem _)), hknows _ h.root, ?_, ?_⟩
  · intro s hs successor hmem hleaves
    exact hknows _ (h.closed s hs successor hmem hleaves)
  · simpa [waiting] using h.events_perm

/-- A state that is marked has its successors on the stack, and its events are told or wait. -/
theorem Covers.marked (told : List Event) (h : Covers model request ⟨(.internal, state) :: rest, trace⟩)
    (hseen : state ∉ trace.seen)
    (htold : told ++ waiting request ((model.successors request state).map model.pend) = model.events request state) :
    Covers model request ⟨(model.successors request state).map model.pend ++ rest,
      ⟨trace.seen ++ [state], trace.events ++ told⟩⟩ := by
  have hreach : Reach model request state := h.reach state (.inr List.mem_cons_self)
  have hknows : ∀ s, Knows ⟨(.internal, state) :: rest, trace⟩ s →
      Knows ⟨(model.successors request state).map model.pend ++ rest,
        ⟨trace.seen ++ [state], trace.events ++ told⟩⟩ s := by
    intro s hs
    rcases hs.cons with rfl | hs
    · exact .inl (by simp)
    · exact hs.imp (List.mem_append_left _) (List.mem_append_right _)
  refine ⟨Trace.nodup_mark h.nodup hseen, ?_, hknows _ h.root, ?_, ?_⟩
  · intro s hs
    rcases hs with hs | hs
    · rcases List.mem_append.1 hs with hs | hs
      · exact h.reach s (.inl hs)
      · rwa [List.mem_singleton.1 hs]
    · rcases List.mem_append.1 hs with hs | hs
      · obtain ⟨successor, hmem, heq⟩ := List.mem_map.1 hs
        obtain ⟨hleaves, rfl⟩ := Model.pend_eq_internal.1 heq.symm
        exact hreach.step hmem hleaves
      · exact h.reach s (.inr (List.mem_cons_of_mem _ hs))
  · intro s hs successor hmem hleaves
    rcases List.mem_append.1 hs with hs | hs
    · exact hknows _ (h.closed s hs successor hmem hleaves)
    · rw [List.mem_singleton.1 hs] at hmem
      have hpend : (.internal, successor.2) = model.pend successor := Model.pend_eq_internal.2 ⟨hleaves, rfl⟩
      exact .inr (List.mem_append_left _ (List.mem_map.2 ⟨successor, hmem, hpend.symm⟩))
  · have hperm : (trace.events ++ waiting request rest).Perm (trace.seen.flatMap (model.events request)) := by
      simpa [waiting] using h.events_perm
    dsimp only
    rw [waiting_append, List.append_assoc, ← List.append_assoc told, htold, List.flatMap_append]
    calc List.Perm (trace.events ++ (model.events request state ++ waiting request rest))
          (trace.events ++ (waiting request rest ++ model.events request state)) :=
        List.perm_append_comm.append_left _
      _ = trace.events ++ waiting request rest ++ model.events request state := (List.append_assoc ..).symm
      List.Perm _ (trace.seen.flatMap (model.events request) ++ [state].flatMap (model.events request)) := by
        simpa using hperm.append_right _

/-- Every step of an ideal search keeps what holds. -/
theorem Covers.of_step (h : f.step model request accept = .more f') (hc : Covers model request f) :
    Covers model request f' := by
  have hcase := step_cases model request accept f
  rw [h] at hcase
  cases hcase with
  | visible => exact hc.told
  | seen hseen => exact hc.skipped hseen
  | broken hseen _ _ hempty =>
    have hmarked := hc.marked [_] hseen (by rw [hempty, events_of_broken hempty]; rfl)
    rw [hempty] at hmarked
    exact hmarked
  | expanded hseen _ _ hne =>
    have hmarked := hc.marked [] hseen (waiting_successors hne)
    rw [List.append_nil] at hmarked
    exact hmarked

/-! ## All steps -/

theorem covers_start : Covers model request ⟨[(.internal, request.state)], {}⟩ := by
  refine ⟨List.nodup_nil, fun s hs => ?_, .inr List.mem_cons_self, by simp, by simp [waiting]⟩
  rcases hs.cons with rfl | hs
  · exact .root
  · simp [Knows] at hs

/-- When nothing waits, the states seen are the closure. -/
theorem Covers.mem_seen_iff (h : Covers model request ⟨[], trace⟩) :
    state ∈ trace.seen ↔ Reach model request state := by
  have hknows : ∀ {s}, Knows ⟨[], trace⟩ s → s ∈ trace.seen := fun hs => hs.elim id (by simp)
  constructor
  · intro hs
    exact h.reach state (.inl hs)
  · intro hs
    induction hs with
    | root => exact hknows h.root
    | step _ hmem hleaves ih => exact hknows (h.closed _ ih _ hmem hleaves)

/-- An ideal search that ends well has seen the closure and told its events. -/
theorem Runs.covers (h : Runs model request accept f trace result) (hc : Covers model request f)
    (hok : result = .ok ()) : Covers model request ⟨[], trace⟩ := by
  induction h with
  | @done f _ _ hs =>
    have hcase := step_cases model request accept f
    rw [hs, hok] at hcase
    cases hcase with
    | nil => exact hc
  | more hs _ ih => exact ih (hc.of_step hs) hok

end

end Frontier

/-! ## Searches that end well -/

namespace Search

variable {σ : Type} {model : Model} {notify : σ → Event → σ} {request : Request} {work : List (Mark × State)}
  {s s' : Search σ}

/-- A search for states of the closure that finds room for all of them ends well, if the closure has successors of the
right length only. -/
theorem ok_of_lookups (hlength : ∀ state, Reach model request state →
      ∀ successor ∈ model.successors request state, successor.2.length = model.stateSize)
    (hroom : ∀ entry ∈ lookups model notify request s, entry.2 ≠ .full) (h : Packed model work s)
    (hwork : ∀ state, (.internal, state) ∈ work → Reach model request state) :
    ∃ report, (run model notify request s).2 = .ok report := by
  induction s using run.induct model notify request generalizing work with
  | case1 s s' result hs =>
    have hcase := step_cases notify request h
    rw [lookups_of_done hs] at hroom
    rw [run_of_done hs]
    rw [hs] at hcase
    generalize s.lookup? model = l at hcase hroom
    cases hcase with
    | nil => exact ⟨_, rfl⟩
    | full => exact absurd rfl (hroom _ List.mem_cons_self)
    | illSized _ hill =>
      obtain ⟨hmem, hne⟩ := Model.length_of_illSized hill
      exact absurd (hlength _ (hwork _ List.mem_cons_self) _ hmem) hne
  | case2 s s' hs ih =>
    rw [lookups_of_next hs] at hroom
    rw [run_of_next hs]
    obtain ⟨work', hnext, hfrom⟩ := h.next hs
    refine ih (fun entry hentry => hroom entry (List.mem_append_right _ hentry)) hnext fun state hstate => ?_
    rcases hfrom _ hstate with hold | ⟨state', hstate', hnew⟩
    · exact hwork state hold
    · obtain ⟨successor, hmem, heq⟩ := List.mem_map.1 hnew
      obtain ⟨hleaves, rfl⟩ := Model.pend_eq_internal.1 heq.symm
      exact (hwork state' hstate').step hmem hleaves

end Search

/-! ## Sessions -/

theorem Table.WellFormed.contains_iff {t : Table} (h : t.WellFormed) {key : State} :
    t.contains key = .ok true ↔ key ∈ t := by
  unfold Table.contains Table.checkLength
  constructor
  · intro hk
    split at hk
    · exact h.hasKey_iff.1 (Except.ok.inj hk)
    · cases hk
  · intro hk
    rw [if_pos (h.length_of_mem hk)]
    exact congrArg Except.ok (h.hasKey_iff.2 hk)

section

variable {σ : Type} {model : Model} {notify : σ → Event → σ} {request : Request} {t : Table}

/-- **A session finds the closure, and nothing else.** If it ends well and growth dropped nothing, every state of the
closure was expanded exactly once, the events are those of the closure, one for every edge, the counters count them, and
the members of the table are the closure. If all successors in the closure have the right length and no lookup finds the
table full, a session ends well exactly if its geometry is right. -/
theorem Explorer.explore_exact (e : Explorer) (ht : t.Reachable) (sink : σ) :
    let o := e.explore t model notify request sink
    let s := Search.start t request sink
    (∀ report, o.result = .ok report → o.table.dropped = 0 →
      ∃ (closure : Finset State) (events : List Event),
        (∀ state, state ∈ closure ↔ Reach model request state) ∧
        (Search.expanded model notify request s : Multiset State) = closure.val ∧
        o.sink = events.foldl notify sink ∧
        (events : Multiset Event) = ∑ state ∈ closure, (model.events request state : Multiset Event) ∧
        report.internal = closure.card ∧ report.visible = events.length ∧ report.broken = events.countP (·.broken) ∧
        (∀ key, o.table.contains key = .ok true ↔ Reach model request key) ∧ o.table.load = report.internal) ∧
    ((∀ state, Reach model request state →
        ∀ successor ∈ model.successors request state, successor.2.length = model.stateSize) →
      (∀ entry ∈ Search.lookups model notify request s, entry.2 ≠ .full) →
      ((∃ report, o.result = .ok report) ↔ checkGeometry model t request = .ok ())) := by
  dsimp only
  refine ⟨fun report hreport hd => ?_, fun hlength hroom => ⟨fun ⟨report, hreport⟩ => e.geometry_of_ok hreport, ?_⟩⟩
  · have hg := e.geometry_of_ok hreport
    obtain ⟨trace, result, hruns, hmem, hsink, hresult, hexpanded⟩ := e.runs_explore ht.wellFormed.toGeometry hg sink hd
    rw [hreport] at hresult
    cases result with
    | error error => cases hresult
    | ok u =>
      cases hresult
      have hcovers := hruns.covers Frontier.covers_start rfl
      have hclosure : ∀ state, state ∈ (⟨trace.seen, hcovers.nodup⟩ : Finset State) ↔ Reach model request state :=
        fun state => hcovers.mem_seen_iff
      have hwf := (e.reachable_explore model notify request ht sink).wellFormed
      have hperm : trace.events.Perm (trace.seen.flatMap (model.events request)) := by
        simpa [Frontier.waiting] using hcovers.events_perm
      refine ⟨⟨trace.seen, hcovers.nodup⟩, trace.events, hclosure, ?_, hsink, ?_, rfl, rfl, rfl, fun key => ?_, ?_⟩
      · rw [← hexpanded]
      · exact (Multiset.coe_eq_coe.2 hperm).trans (Multiset.coe_bind _ _).symm
      · rw [hwf.contains_iff, hmem]
        exact hcovers.mem_seen_iff
      · have hkeys := fun key => (hclosure key).trans (hcovers.mem_seen_iff.symm.trans (hmem key).symm)
        exact (hwf.card_eq_load hkeys).symm
  · intro hg
    rw [e.explore_eq hg]
    have hpacked := Search.packed_start ht.wellFormed.toGeometry hg sink
    refine Search.ok_of_lookups hlength hroom hpacked fun state hstate => ?_
    cases List.mem_singleton.1 hstate
    exact .root

end

theorem Explorer.explore_exact_knot : Table.create ⟨1, 2, 3⟩ = .ok (Table.empty ⟨1, 2, 3⟩) ∧
    ∃ report, ∃ closure : Finset State, knotSession.result = .ok report ∧ knotSession.table.dropped = 0 ∧
      (∀ state, state ∈ closure ↔ Reach knot.model ⟨[0], ⟨0⟩, ⟨7⟩⟩ state) ∧ report.internal = closure.card := by
  have hc : Table.create ⟨1, 2, 3⟩ = .ok (Table.empty ⟨1, 2, 3⟩) := by decide
  have hg : checkGeometry knot.model (Table.empty ⟨1, 2, 3⟩) ⟨[0], ⟨0⟩, ⟨7⟩⟩ = .ok () := by decide
  have hrun : (Search.runFor knot.model (fun events e => e :: events) ⟨[0], ⟨0⟩, ⟨7⟩⟩ 8
      (Search.start (Table.empty ⟨1, 2, 3⟩) ⟨[0], ⟨0⟩, ⟨7⟩⟩ [])).map
        (fun r => (r.1.all (·.2 ≠ .full), r.2.1.table.dropped)) = some (true, 0) := by
    decide +kernel
  obtain ⟨r, hr, heq⟩ := Option.map_eq_some_iff.1 hrun
  rw [Search.eq_of_runFor hr] at heq
  obtain ⟨hroom, hd⟩ := Prod.mk.inj heq
  have hd' : knotSession.table.dropped = 0 := by
    unfold knotSession
    rwa [Explorer.explore_eq _ hg]
  have hlength : ∀ state, Reach knot.model ⟨[0], ⟨0⟩, ⟨7⟩⟩ state →
      ∀ successor ∈ knot.model.successors ⟨[0], ⟨0⟩, ⟨7⟩⟩ state, successor.2.length = knot.model.stateSize := by
    intro state _ successor hmem
    have htargets : ∀ edge ∈ knot.edges, edge.target.length = 1 := by decide
    rcases List.mem_append.1 hmem with hedge | hrule
    · obtain ⟨edge, hfilter, rfl⟩ := List.mem_map.1 hedge
      exact htargets edge (List.mem_filter.1 hfilter).1
    · exact absurd hrule (by simp [knot])
  obtain ⟨hexact, hok⟩ := Explorer.explore_exact {} (.create hc) []
  obtain ⟨report, hreport⟩ := (hok hlength (by simpa using hroom)).2 hg
  obtain ⟨closure, -, hclosure, -, -, -, hinternal, -⟩ := hexact report hreport hd'
  exact ⟨hc, report, closure, hreport, hd', hclosure, hinternal⟩

end StateSpace
