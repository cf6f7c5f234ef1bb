import StateSpace.Proofs.Explore.Recursion

/-!
# The recursion step by step

A frontier is what an ideal search has between two steps: the states that wait, and the trace of what was done. Each of
its steps (`Frontier.step`) leaves the result of the recursion as it is (`runFrom_of_more`), and the last one is that
result (`runFrom_of_done`), so a frontier that runs to its end gives the result of the recursion
(`Frontier.Runs.runFrom_visits`).
-/

namespace StateSpace

/-- The states that wait, the next one first, and what was done so far. -/
structure Frontier where
  work : List (Mark × State)
  trace : Trace

namespace Frontier

/-- What a step leads to. -/
inductive Next where
  | more (f : Frontier)
  | done (trace : Trace) (result : Except ExploreError Unit)

section

variable (model : Model) (request : Request) (accept : Acceptance)

/-- Takes the next state. -/
def step (f : Frontier) : Next :=
  match f.work with
  | [] => .done f.trace (.ok ())
  | (.visible, state) :: rest => .more ⟨rest, f.trace.tell request state false⟩
  | (.internal, state) :: rest =>
    if state ∈ f.trace.seen then .more ⟨rest, f.trace⟩
    else match accept f.trace.seen state with
      | .error error => .done f.trace (.error error)
      | .ok () => match model.illSized? request state with
        | some (_, s) => .done (f.trace.mark state) (.error (.stateLength model.stateSize s.length))
        | none =>
          if (model.successors request state).isEmpty then
            .more ⟨rest, (f.trace.mark state).tell request state true⟩
          else .more ⟨(model.successors request state).map model.pend ++ rest, f.trace.mark state⟩

/-- All that a step does. -/
inductive StepCase : Frontier → Next → Prop
  | nil {trace : Trace} : StepCase ⟨[], trace⟩ (.done trace (.ok ()))
  | visible {state : State} {rest : List (Mark × State)} {trace : Trace} :
      StepCase ⟨(.visible, state) :: rest, trace⟩ (.more ⟨rest, trace.tell request state false⟩)
  | seen {state : State} {rest : List (Mark × State)} {trace : Trace} : state ∈ trace.seen →
      StepCase ⟨(.internal, state) :: rest, trace⟩ (.more ⟨rest, trace⟩)
  | refused {state : State} {rest : List (Mark × State)} {trace : Trace} {error : ExploreError} :
      state ∉ trace.seen → accept trace.seen state = .error error →
      StepCase ⟨(.internal, state) :: rest, trace⟩ (.done trace (.error error))
  | illSized {state : State} {rest : List (Mark × State)} {trace : Trace} {successor : TransitionGroup × State} :
      state ∉ trace.seen → accept trace.seen state = .ok () → model.illSized? request state = some successor →
      StepCase ⟨(.internal, state) :: rest, trace⟩
        (.done (trace.mark state) (.error (.stateLength model.stateSize successor.2.length)))
  | broken {state : State} {rest : List (Mark × State)} {trace : Trace} :
      state ∉ trace.seen → accept trace.seen state = .ok () → model.illSized? request state = none →
      model.successors request state = [] →
      StepCase ⟨(.internal, state) :: rest, trace⟩ (.more ⟨rest, (trace.mark state).tell request state true⟩)
  | expanded {state : State} {rest : List (Mark × State)} {trace : Trace} :
      state ∉ trace.seen → accept trace.seen state = .ok () → model.illSized? request state = none →
      model.successors request state ≠ [] →
      StepCase ⟨(.internal, state) :: rest, trace⟩
        (.more ⟨(model.successors request state).map model.pend ++ rest, trace.mark state⟩)

theorem step_cases (f : Frontier) : StepCase model request accept f (f.step model request accept) := by
  obtain ⟨work, trace⟩ := f
  cases work with
  | nil => exact .nil
  | cons entry rest =>
    obtain ⟨mark, state⟩ := entry
    cases mark with
    | visible => exact .visible
    | internal =>
      by_cases hseen : state ∈ trace.seen
      · unfold step
        dsimp only
        rw [if_pos hseen]
        exact .seen hseen
      · unfold step
        dsimp only
        rw [if_neg hseen]
        cases haccept : accept trace.seen state with
        | error error => exact .refused hseen haccept
        | ok u =>
          cases hill : model.illSized? request state with
          | some successor => exact .illSized hseen haccept hill
          | none =>
            dsimp only
            split
            · rename_i hempty
              exact .broken hseen haccept hill (by simpa using hempty)
            · rename_i hempty
              exact .expanded hseen haccept hill (by simpa using hempty)

theorem StepCase.step_eq {model : Model} {request : Request} {accept : Acceptance} {f : Frontier} {n : Next}
    (h : StepCase model request accept f n) : f.step model request accept = n := by
  cases h with
  | nil | visible => rfl
  | seen hseen => simp [step, hseen]
  | refused hseen haccept => simp [step, hseen, haccept]
  | illSized hseen haccept hill => simp [step, hseen, haccept, hill]
  | broken hseen haccept hill hempty => simp [step, hseen, haccept, hill, hempty]
  | expanded hseen haccept hill hne => simp [step, hseen, haccept, hill, hne]

/-- Steps from a frontier to the end of the search. -/
inductive Runs : Frontier → Trace → Except ExploreError Unit → Prop
  | done {f : Frontier} {trace : Trace} {result : Except ExploreError Unit} :
      f.step model request accept = .done trace result → Runs f trace result
  | more {f f' : Frontier} {trace : Trace} {result : Except ExploreError Unit} :
      f.step model request accept = .more f' → Runs f' trace result → Runs f trace result

end

variable {model : Model} {request : Request} {accept : Acceptance} {f f' : Frontier} {trace : Trace}
  {result : Except ExploreError Unit}

/-! ## Steps and the recursion -/

/-- A step does not change what the recursion comes to. -/
theorem runFrom_of_more (h : f.step model request accept = .more f') :
    (visits model request accept f.work).runFrom f.trace = (visits model request accept f'.work).runFrom f'.trace := by
  have hcase := step_cases model request accept f
  rw [h] at hcase
  cases hcase with
  | visible =>
    rw [run_visits_cons]
    rfl
  | seen hseen =>
    rw [run_visits_cons, visitOne, run_visit]
    simp [hseen]
  | broken hseen haccept hill hempty =>
    rw [run_visits_cons, visitOne, run_visit]
    simp [hseen, haccept, hill, hempty]
  | expanded hseen haccept hill hne =>
    -- the successors come first, and then the states that waited
    rw [run_visits_cons, visitOne, run_visit, run_visits_append]
    simp [hseen, haccept, hill, hne]

/-- The last step gives what the recursion comes to. -/
theorem runFrom_of_done (h : f.step model request accept = .done trace result) :
    (visits model request accept f.work).runFrom f.trace = some (result, trace) := by
  have hcase := step_cases model request accept f
  rw [h] at hcase
  cases hcase with
  | nil => rfl
  | refused hseen haccept =>
    rw [run_visits_cons, visitOne, run_visit]
    simp [hseen, haccept]
  | illSized hseen haccept hill =>
    rw [run_visits_cons, visitOne, run_visit]
    simp [hseen, haccept, hill]

/-- A search that runs to its end comes to what the recursion comes to. -/
theorem Runs.runFrom_visits (h : Runs model request accept f trace result) :
    (visits model request accept f.work).runFrom f.trace = some (result, trace) := by
  induction h with
  | done hs => exact runFrom_of_done hs
  | more hs _ ih => rw [runFrom_of_more hs, ih]

/-- A search from one state comes to what the visit of it comes to. -/
theorem Runs.runFrom_visit {state : State} {trace₀ : Trace}
    (h : Runs model request accept ⟨[(.internal, state)], trace₀⟩ trace result) :
    (model.visit request accept state).runFrom trace₀ = some (result, trace) := by
  have hvisits := h.runFrom_visits
  rw [run_visits_cons] at hvisits
  unfold visitOne at hvisits
  dsimp only at hvisits
  cases hv : (model.visit request accept state).runFrom trace₀ with
  | none => simp [hv] at hvisits
  | some r =>
    obtain ⟨result', trace'⟩ := r
    cases result' with
    | ok u => simpa [hv, run_visits_nil] using hvisits
    | error error => simpa [hv] using hvisits

/-! ## Events -/

/-- A step tells events of the group of the request only. -/
theorem group_of_step (h : f.step model request accept = .more f')
    (hgroup : ∀ event ∈ f.trace.events, event.group = request.group) :
    ∀ event ∈ f'.trace.events, event.group = request.group := by
  have hcase := step_cases model request accept f
  rw [h] at hcase
  cases hcase with
  | visible | broken =>
    intro event hevent
    rcases List.mem_append.1 hevent with hold | hnew
    · exact hgroup event hold
    · rw [List.mem_singleton.1 hnew]
  | seen | expanded => exact hgroup

theorem Runs.group_eq (h : Runs model request accept f trace result)
    (hgroup : ∀ event ∈ f.trace.events, event.group = request.group) :
    ∀ event ∈ trace.events, event.group = request.group := by
  induction h with
  | @done f _ _ hs =>
    have hcase := step_cases model request accept f
    rw [hs] at hcase
    cases hcase with
    | nil | refused | illSized => exact hgroup
  | more hs _ ih => exact ih (group_of_step hs hgroup)

/-! ## Sets that turn states away -/

/-- Only where a state is turned away does a step differ from that over an ideal set. -/
theorem step_eq_acceptAll (model : Model) (request : Request) (f : Frontier) (haccept : ∀ seen state error,
    accept seen state = .error error → ∃ tableError, error = .table tableError) :
    f.step model request accept = f.step model request acceptAll ∨
      ∃ tableError, f.step model request accept = .done f.trace (.error (.table tableError)) := by
  have hcase := step_cases model request accept f
  generalize hs : f.step model request accept = n at hcase
  cases hcase with
  | nil | visible => exact .inl rfl
  | seen hseen => exact .inl (StepCase.seen hseen).step_eq.symm
  | refused hseen herror =>
    obtain ⟨tableError, rfl⟩ := haccept _ _ _ herror
    exact .inr ⟨tableError, rfl⟩
  | illSized hseen _ hill => exact .inl (StepCase.illSized hseen rfl hill).step_eq.symm
  | broken hseen _ hill hempty => exact .inl (StepCase.broken hseen rfl hill hempty).step_eq.symm
  | expanded hseen _ hill hne => exact .inl (StepCase.expanded hseen rfl hill hne).step_eq.symm

/-- A search that no state is turned away from is that over an ideal set. -/
theorem Runs.acceptAll (h : Runs model request accept f trace result) (haccept : ∀ seen state error,
    accept seen state = .error error → ∃ tableError, error = .table tableError)
    (hresult : ∀ error, result ≠ .error (.table error)) : Runs model request acceptAll f trace result := by
  induction h with
  | @done f _ _ hs =>
    rcases step_eq_acceptAll model request f haccept with heq | ⟨error, heq⟩
    · exact .done (heq ▸ hs)
    · rw [hs] at heq
      cases heq
      exact absurd rfl (hresult error)
  | @more f _ _ _ hs _ ih =>
    rcases step_eq_acceptAll model request f haccept with heq | ⟨error, heq⟩
    · exact .more (heq ▸ hs) (ih hresult)
    · rw [hs] at heq
      simp at heq

end Frontier

end StateSpace
