import StateSpace.State

/-!
# Models

A search knows a model by its successors (`Model`). `RuleModel` describes one by a list of edges and a list of guarded
rules.
-/

namespace StateSpace

/-- What a model gives for a state: its successors in order, each with the group of its transition, and a number that
the model announces for them. Nothing relies on the number. -/
structure Emission where
  successors : List (TransitionGroup × State)
  announced : Nat
  deriving DecidableEq

structure Model where
  /-- The number of words in a state. -/
  stateSize : Nat
  /-- The successors of a state that a process can reach while it alone may move. -/
  emit : State → ProcessId → Emission
  /-- Whether a transition of the group ends the atomic sequence. -/
  leaves : TransitionGroup → Bool

/-! ## Models given by edges and rules -/

/-- One transition between two given states. -/
structure Edge where
  source : State
  process : ProcessId
  group : TransitionGroup
  target : State
  deriving DecidableEq

inductive Comparison where
  | less
  | equal
  | unequal
  deriving DecidableEq, Repr

/-- A test of one word against a constant; words are compared as whole numbers. -/
structure Guard where
  slot : Nat
  comparison : Comparison
  constant : Int
  deriving DecidableEq, Repr

/-- A change of one word: it is set, or the constant is added to it within 32 bits. -/
structure Assignment where
  slot : Nat
  adds : Bool
  constant : Int32
  deriving DecidableEq

/-- A transition from every state in which all guards hold. -/
structure Rule where
  process : ProcessId
  group : TransitionGroup
  guards : List Guard
  assignments : List Assignment
  deriving DecidableEq

structure RuleModel where
  stateSize : Nat
  edges : List Edge
  leaving : List TransitionGroup
  rules : List Rule
  /-- The number to announce for every state; without one, the number of successors. -/
  announced : Option Nat
  deriving DecidableEq

/-- The word in a slot, 0 where there is none. -/
def State.word (s : State) (slot : Nat) : Int32 := s.getD slot 0

def Guard.holds (g : Guard) (s : State) : Bool :=
  let word := (State.word s g.slot).toInt
  match g.comparison with
  | .less => word < g.constant
  | .equal => word = g.constant
  | .unequal => word ≠ g.constant

def Assignment.apply (s : State) (a : Assignment) : State :=
  s.set a.slot (if a.adds then State.word s a.slot + a.constant else a.constant)

def Rule.target (r : Rule) (s : State) : State := r.assignments.foldl Assignment.apply s

namespace RuleModel

/-- The successors by edges, then the successors by rules, each in the order of the lists. -/
def successors (m : RuleModel) (s : State) (p : ProcessId) : List (TransitionGroup × State) :=
  ((m.edges.filter fun e => e.source = s ∧ e.process = p).map fun e => (e.group, e.target)) ++
    ((m.rules.filter fun r => r.process = p ∧ r.guards.all (·.holds s)).map fun r => (r.group, r.target s))

def model (m : RuleModel) : Model where
  stateSize := m.stateSize
  emit s p :=
    let successors := m.successors s p
    ⟨successors, m.announced.getD successors.length⟩
  leaves g := m.leaving.contains g

end RuleModel

end StateSpace
