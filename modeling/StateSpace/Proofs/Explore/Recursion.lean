import StateSpace.Explore.Search

/-!
# Exploration by recursion

A search with an explicit stack is one way to follow an atomic sequence. The plain way is a recursion (`visit`) over an
ideal set of states that have been seen: it marks a state, takes its successors, and goes through them in order, telling
the sink about those that leave the sequence and visiting the others at once.

The recursion may go on for ever, so it is a fixpoint in `Visiting`: no value is a recursion without end. `accept` may
turn away a state that is to be marked; the ideal set turns nothing away (`acceptAll`). `visits` goes through a list of
states, as a stack does (`run_visit`, `run_visits_cons`).
-/

namespace StateSpace

/-- What a recursion has done: the states that it marked and the events that it told the sink, in order. -/
structure Trace where
  seen : List State := []
  events : List Event := []
  deriving DecidableEq

namespace Trace

instance (trace : Trace) (state : State) : Decidable (state ∈ trace.seen) := inferInstance

def mark (state : State) (trace : Trace) : Trace := { trace with seen := trace.seen ++ [state] }

def tell (request : Request) (state : State) (broken : Bool) (trace : Trace) : Trace :=
  { trace with events := trace.events ++ [⟨request.group, state, broken⟩] }

/-- The counters of what was done. -/
def report (trace : Trace) : Report :=
  { visible := trace.events.length
    broken := trace.events.countP (·.broken)
    internal := trace.seen.length }

theorem nodup_mark {trace : Trace} {state : State} (h : trace.seen.Nodup) (hnew : state ∉ trace.seen) :
    (trace.mark state).seen.Nodup := by
  refine List.nodup_append.2 ⟨h, by simp, ?_⟩
  intro s hs s' hs' heq
  rw [heq, List.mem_singleton.1 hs'] at hs
  exact hnew hs

end Trace

/-- A recursion that has a trace, can fail, and may go on for ever. -/
abbrev Visiting := ExceptT ExploreError (StateT Trace Option)

namespace Visiting

/-- The result of a recursion that starts with a trace, and the trace that it leaves. -/
def runFrom (m : Visiting Unit) (trace : Trace) : Option (Except ExploreError Unit × Trace) := m.run.run trace

section

variable (m : Visiting Unit) (trace : Trace)

@[simp]
theorem runFrom_pure : runFrom (pure ()) trace = some (.ok (), trace) := rfl

@[simp]
theorem runFrom_throw (error : ExploreError) : runFrom (throw error) trace = some (.error error, trace) := rfl

@[simp]
theorem runFrom_modify (f : Trace → Trace) : runFrom (modify f) trace = some (.ok (), f trace) := rfl

@[simp]
theorem runFrom_get_bind (f : Trace → Visiting Unit) : runFrom (get >>= f) trace = runFrom (f trace) trace := rfl

@[simp]
theorem runFrom_modify_bind (f : Trace → Trace) (g : PUnit → Visiting Unit) :
    runFrom (modify f >>= g) trace = runFrom (g ()) (f trace) := rfl

/-- What comes next runs only after a success. -/
theorem runFrom_bind (g : Unit → Visiting Unit) : runFrom (m >>= g) trace =
    (runFrom m trace).bind fun
      | (.ok (), trace) => runFrom (g ()) trace
      | (.error error, trace) => some (.error error, trace) := by
  unfold runFrom
  rw [ExceptT.run_bind, StateT.run_bind]
  congr 1
  funext result
  obtain ⟨outcome, trace⟩ := result
  cases outcome <;> rfl

end

end Visiting

/-- Whether a state may be marked after the given ones. -/
abbrev Acceptance := List State → State → Except ExploreError Unit

/-- An ideal set has room for every state. -/
def acceptAll : Acceptance := fun _ _ => .ok ()

/-- The successors of a state inside the sequence, in order. -/
def Model.successors (model : Model) (request : Request) (state : State) : List (TransitionGroup × State) :=
  (model.emit state request.process).successors

/-- The first successor that does not have the model's number of words. -/
def Model.illSized? (model : Model) (request : Request) (state : State) : Option (TransitionGroup × State) :=
  (model.successors request state).find? fun (_, s) => s.length ≠ model.stateSize

/-- Visits a state and all that it leads to inside the sequence. -/
def Model.visit (model : Model) (request : Request) (accept : Acceptance) (state : State) : Visiting Unit := do
  let trace ← get
  if state ∈ trace.seen then return
  if let .error error := accept trace.seen state then throw error
  modify (·.mark state)
  if let some successor := model.illSized? request state then
    throw (.stateLength model.stateSize successor.2.length)
  if (model.successors request state).isEmpty then modify (·.tell request state true)
  (model.successors request state).forM fun successor =>
    if model.leaves successor.1 then modify (·.tell request successor.2 false)
    else model |>.visit request accept successor.2
partial_fixpoint

/-- A successor on the stack: to be told about if its group leaves the sequence, else to be visited. -/
def Model.pend (model : Model) (successor : TransitionGroup × State) : Mark × State :=
  (if model.leaves successor.1 then .visible else .internal, successor.2)

section

variable (model : Model) (request : Request) (accept : Acceptance)

/-- Tells the sink about a state, or visits it. -/
def visitOne (entry : Mark × State) : Visiting Unit :=
  match entry.1 with
  | .visible => modify (·.tell request entry.2 false)
  | .internal => model.visit request accept entry.2

/-- Goes through a list of states in order. -/
def visits (work : List (Mark × State)) : Visiting Unit := work.forM (visitOne model request accept)

theorem forM_successors (successors : List (TransitionGroup × State)) :
    (successors.forM fun successor =>
      if model.leaves successor.1 then modify (·.tell request successor.2 false)
      else model.visit request accept successor.2) =
      visits model request accept (successors.map model.pend) := by
  unfold visits
  simp only [List.forM_eq_forM]
  induction successors with
  | nil => rfl
  | cons successor rest ih =>
    rw [List.forM_cons, ih, List.map_cons, List.forM_cons]
    congr 1
    unfold visitOne Model.pend
    cases model.leaves successor.1 <;> rfl

/-- One visit, unfolded. -/
theorem run_visit (state : State) (trace : Trace) :
    (model.visit request accept state).runFrom trace =
      if state ∈ trace.seen then some (.ok (), trace)
      else match accept trace.seen state with
        | .error error => some (.error error, trace)
        | .ok () => match model.illSized? request state with
          | some (_, s) => some (.error (.stateLength model.stateSize s.length), trace.mark state)
          | none =>
            if (model.successors request state).isEmpty then some (.ok (), (trace.mark state).tell request state true)
            else (visits model request accept ((model.successors request state).map model.pend)).runFrom
              (trace.mark state) := by
  rw [Model.visit, forM_successors, Visiting.runFrom_get_bind]
  split
  · rfl
  · cases haccept : accept trace.seen state with
    | error error => simp
    | ok u =>
      cases hill : model.illSized? request state with
      | some successor => simp
      | none =>
        cases hnext : model.successors request state with
        | nil => simp [visits]
        | cons successor rest => simp

theorem run_visits_nil (trace : Trace) : (visits model request accept []).runFrom trace = some (.ok (), trace) := rfl

/-- A list of states is gone through one by one, up to the first failure. -/
theorem run_visits_cons (entry : Mark × State) (work : List (Mark × State)) (trace : Trace) :
    (visits model request accept (entry :: work)).runFrom trace =
      ((visitOne model request accept entry).runFrom trace).bind fun
        | (.ok (), trace) => (visits model request accept work).runFrom trace
        | (.error error, trace) => some (.error error, trace) := by
  unfold visits
  rw [List.forM_eq_forM, List.forM_cons, Visiting.runFrom_bind]

/-- Two lists are gone through one after the other. -/
theorem run_visits_append (work work' : List (Mark × State)) (trace : Trace) :
    (visits model request accept (work ++ work')).runFrom trace =
      ((visits model request accept work).runFrom trace).bind fun
        | (.ok (), trace) => (visits model request accept work').runFrom trace
        | (.error error, trace) => some (.error error, trace) := by
  rw [← Visiting.runFrom_bind _ _ fun _ => visits model request accept work']
  unfold visits
  simp only [List.forM_eq_forM]
  rw [List.forM_append]

end

end StateSpace
