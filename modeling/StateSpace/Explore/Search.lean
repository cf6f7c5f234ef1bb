import StateSpace.Explore.Model
import StateSpace.Explore.Pending
import StateSpace.Table.Progress

/-!
# The atomic closure

A transition that enters an atomic sequence is followed until the sequence ends: from the state it reached, all
successors are taken that do not leave the sequence, and every state in which the sequence ends is reported as a
successor of the entering transition. A state without successors has lost atomicity; it is reported too, and marked as
broken.

A search takes one pending state after another (`Search.step`). A state to be reported goes to the sink. Any other is
looked up in the table and expanded if it is new: its successors are collected and go on top of the pending states, in
the order in which the model gives them, so every subtree is finished before its next sibling is looked at.

Every step takes a pending state off, or stores a new state within the load bound of the table, or doubles the table
(`Search.step_decreases`), so a search ends on every model (`Search.run`).

The sink is a value of any type that a function updates with each event. The buffers of a search belong to an explorer,
which takes them from one session to the next with whatever is in them.
-/

namespace StateSpace

/-- Where to start, on behalf of which process, and which group to report. -/
structure Request where
  state : State
  process : ProcessId
  group : TransitionGroup
  deriving DecidableEq

/-- A state in which the atomic sequence ends. -/
structure Event where
  /-- The group of the transition that entered the sequence. -/
  group : TransitionGroup
  state : State
  /-- The state has no successor inside the sequence. -/
  broken : Bool
  deriving DecidableEq

/-- The counters of a search. -/
structure Report where
  /-- Events, the broken ones included. -/
  visible : Nat := 0
  /-- Broken events. -/
  broken : Nat := 0
  /-- Different states that were expanded. -/
  internal : Nat := 0
  deriving DecidableEq, Repr, Inhabited

inductive ExploreError where
  /-- The table cannot be made, or has no room left. -/
  | table (error : Table.Error)
  /-- A state does not have the model's number of words. -/
  | stateLength (expected actual : Nat)
  /-- A pending state does not have the length of a key. -/
  | misaligned (wrong : WrongLength)
  deriving DecidableEq, Repr

def ExploreError.message : ExploreError → String
  | .table e => s!"atomic exploration failed: {e.message}"
  | .stateLength expected actual => s!"state has {actual} slots, model declares {expected}"
  | .misaligned wrong => wrong.message

/-- The buffers of a search. -/
structure Explorer where
  pending : Pending := {}
  /-- The state that was taken off last. -/
  current : State := []
  /-- The successors that were collected last. -/
  batch : Pending := {}
  deriving DecidableEq, Inhabited

/-- A search between two steps. -/
structure Search (σ : Type) extends Explorer where
  table : Table
  report : Report
  sink : σ

/-- What a step leads to. -/
inductive Search.Progress (σ : Type) where
  | next (search : Search σ)
  | done (search : Search σ) (result : Except ExploreError Report)

/-! ## Expansion -/

/-- Collects the successors of a state that are to be put on top of the pending states. A successor of another length is
left out and fails the expansion: the first one counts. -/
def expand (model : Model) (process : ProcessId) (state : State) : Except ExploreError Unit × Pending :=
  let successors := (model.emit state process).successors
  let batch := .ofList ((successors.filter fun (_, s) => s.length = state.length).map fun (group, s) =>
    (if model.leaves group then .visible else .internal, s))
  match successors.find? fun (_, s) => s.length ≠ state.length with
  | some (_, s) => (.error (.stateLength state.length s.length), batch)
  | none => (.ok (), batch)

namespace Search

variable {σ : Type}

/-- Hands an event to the sink. -/
def tell (notify : σ → Event → σ) (request : Request) (state : State) (broken : Bool) (s : Search σ) : Search σ :=
  { s with
    report := { s.report with visible := s.report.visible + 1, broken := s.report.broken + broken.toNat }
    sink := notify s.sink ⟨request.group, state, broken⟩ }

/-- Expands the current state, which was stored just now. -/
def enter (model : Model) (notify : σ → Event → σ) (request : Request) (s : Search σ) : Progress σ :=
  let s := { s with report := { s.report with internal := s.report.internal + 1 } }
  match expand model request.process s.current with
  | (.error e, batch) => .done { s with batch } (.error e)
  | (.ok (), batch) =>
    let s := { s with batch }
    if s.batch.marks.isEmpty then .next (s.tell notify request s.current true)
    else .next { s with pending := s.batch.append s.pending }

/-- Looks at the next pending state. -/
def step (model : Model) (notify : σ → Event → σ) (request : Request) (s : Search σ) : Progress σ :=
  match s with
  | ⟨⟨pending, current, batch⟩, table, report, sink⟩ =>
    match pending.pop model.stateSize with
    | .empty => .done ⟨⟨pending, current, batch⟩, table, report, sink⟩ (.ok report)
    | .short n => .done ⟨⟨pending, current, batch⟩, table, report, sink⟩ (.error (.misaligned ⟨n, model.stateSize⟩))
    | .state .visible state rest => .next (tell notify request state false ⟨⟨rest, state, batch⟩, table, report, sink⟩)
    | .state .internal state rest =>
      match table.checkLength state with
      | .error wrong => .done ⟨⟨rest, state, batch⟩, table, report, sink⟩ (.error (.misaligned wrong))
      | .ok () =>
        match table.lookupKey state with
        | (.found, table) => .next ⟨⟨rest, state, batch⟩, table, report, sink⟩
        | (.full, table) => .done ⟨⟨rest, state, batch⟩, table, report, sink⟩ (.error (.table table.fullError))
        | (.inserted, table) => enter model notify request ⟨⟨rest, state, batch⟩, table, report, sink⟩

theorem enter_eq_next {model : Model} {notify : σ → Event → σ} {request : Request} {s s' : Search σ}
    (h : enter model notify request s = .next s') : s'.table = s.table := by
  unfold enter at h
  dsimp only at h
  split at h
  · simp at h
  · split at h <;> cases h <;> rfl

/-- A step leaves fewer doublings to the table, or as many doublings and less room, or both as they are and fewer
pending states. -/
theorem step_decreases {model : Model} {notify : σ → Event → σ} {request : Request} {s s' : Search σ}
    (h : step model notify request s = .next s') :
    s'.table.doublingsLeft < s.table.doublingsLeft ∨
      s'.table.doublingsLeft = s.table.doublingsLeft ∧
        (s'.table.roomLeft < s.table.roomLeft ∨
          s'.table.roomLeft = s.table.roomLeft ∧ s'.pending.marks.length < s.pending.marks.length) := by
  obtain ⟨⟨pending, current, batch⟩, table, report, sink⟩ := s
  simp only [step] at h
  split at h
  · simp at h
  · simp at h
  · rename_i hp
    cases h
    exact .inr ⟨rfl, .inr ⟨rfl, Pending.length_marks_of_pop hp⟩⟩
  · rename_i state rest hp
    split at h
    · simp at h
    · have hr := (table.lookupKey_progress state).room
      split at h
      · rename_i hl
        cases h
        rw [hl] at hr
        rcases hr with hr | ⟨hd, hf, _⟩
        · exact .inl hr
        · exact .inr ⟨hd, .inr ⟨hf rfl, Pending.length_marks_of_pop hp⟩⟩
      · simp at h
      · rename_i hl
        rw [hl] at hr
        rw [enter_eq_next h]
        rcases hr with hr | ⟨hd, _, hi⟩
        · exact .inl hr
        · exact .inr ⟨hd, .inl (hi rfl)⟩

/-- Takes steps until the search is done. -/
def run (model : Model) (notify : σ → Event → σ) (request : Request) (s : Search σ) :
    Search σ × Except ExploreError Report :=
  match _h : step model notify request s with
  | .done s result => (s, result)
  | .next s' => run model notify request s'
termination_by (s.table.doublingsLeft, s.table.roomLeft, s.pending.marks.length)
decreasing_by
  simp only [Prod.lex_def]
  rcases step_decreases _h with h | ⟨hd, h | ⟨hr, h⟩⟩
  · exact .inl h
  · exact .inr ⟨hd, .inl h⟩
  · exact .inr ⟨hd, .inr ⟨hr, h⟩⟩

theorem run_of_next {model : Model} {notify : σ → Event → σ} {request : Request} {s s' : Search σ}
    (h : step model notify request s = .next s') :
    run model notify request s = run model notify request s' := by
  rw [run]
  split
  · simp_all
  · simp_all

theorem run_of_done {model : Model} {notify : σ → Event → σ} {request : Request} {s s' : Search σ}
    {result : Except ExploreError Report} (h : step model notify request s = .done s' result) :
    run model notify request s = (s', result) := by
  rw [run]
  split
  · simp_all
  · simp_all

end Search

/-! ## Sessions -/

/-- How a session ended. -/
structure Outcome (σ : Type) where
  explorer : Explorer
  table : Table
  sink : σ
  result : Except ExploreError Report

/-- That the starting state and the keys of the table have the model's number of words; the state comes first. -/
def checkGeometry (model : Model) (t : Table) (request : Request) : Except ExploreError Unit :=
  if request.state.length ≠ model.stateSize then .error (.stateLength model.stateSize request.state.length)
  else if t.config.keyLength ≠ model.stateSize then .error (.stateLength model.stateSize t.config.keyLength)
  else .ok ()

theorem checkGeometry_eq_ok {model : Model} {t : Table} {request : Request} :
    checkGeometry model t request = .ok () ↔
      request.state.length = model.stateSize ∧ t.config.keyLength = model.stateSize := by
  unfold checkGeometry
  split
  · rename_i h
    simp [h]
  · split
    · rename_i h
      simp [h]
    · simp_all

/-- Reports every state in which the atomic sequence from the starting state ends. What an earlier session left pending
is discarded and the table is cleared, unless the geometry is wrong: then both stay as they are. -/
def Explorer.explore {σ : Type} (e : Explorer) (t : Table) (model : Model) (notify : σ → Event → σ) (request : Request)
    (sink : σ) : Outcome σ :=
  match checkGeometry model t request with
  | .error error => ⟨e, t, sink, .error error⟩
  | .ok () =>
    let e := { e with pending := .push .internal request.state {} }
    let (s, result) := Search.run model notify request ⟨e, t.clear, {}, sink⟩
    ⟨s.toExplorer, s.table, s.sink, result⟩

end StateSpace
