/-!
# States and identifiers

A model's state is a vector of 32-bit signed words, one per state slot. All states of one model have the same number
of words; the number is checked where states enter, not by the type. Transition groups, processes and workers are
known by their index.
-/

namespace StateSpace

/-- The words of one state, slot by slot. -/
abbrev State := List Int32

/-- A transition group, by its index among the groups of the model. -/
structure TransitionGroup where
  index : Nat
  deriving DecidableEq, Repr, Inhabited

/-- A process, by its index; it scopes successors inside an atomic sequence. -/
structure ProcessId where
  index : Nat
  deriving DecidableEq, Repr, Inhabited

/-- A worker of a search, by its index. -/
structure WorkerId where
  index : Nat
  deriving DecidableEq, Repr, Inhabited

def TransitionGroup.text (g : TransitionGroup) : String := s!"Group({g.index})"

def ProcessId.text (p : ProcessId) : String := s!"Process({p.index})"

def WorkerId.text (w : WorkerId) : String := s!"Worker({w.index})"

end StateSpace
