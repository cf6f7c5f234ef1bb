import StateSpace.State

/-!
# Pending states

States that wait to be looked at, packed: one mark for each state, and the words of all states in one row. The number of
words in a state is not stored; whoever takes a state off says it. `Pending.pop` tells a row that is too short for the
state it should begin with, and `Pending.ofList_cons` to `append_ofList` say that packing loses nothing.
-/

namespace StateSpace

/-- What to do with a pending state. -/
inductive Mark where
  /-- Reached through a group that leaves the atomic sequence: to be reported. -/
  | visible
  /-- Still inside the atomic sequence: to be looked up and expanded. -/
  | internal
  deriving DecidableEq, Repr

/-- A stack of states with their marks, the next one first. -/
structure Pending where
  marks : List Mark := []
  words : List Int32 := []
  deriving DecidableEq, Inhabited

/-- What a stack of states of one length begins with. -/
inductive Pending.Top where
  | empty
  /-- Fewer words are left than a state has. -/
  | short (words : Nat)
  | state (mark : Mark) (state : State) (rest : Pending)

namespace Pending

def push (mark : Mark) (s : State) (p : Pending) : Pending := ⟨mark :: p.marks, s ++ p.words⟩

/-- The given states, the first on top. -/
def ofList (states : List (Mark × State)) : Pending := states.foldr (fun (mark, s) p => p.push mark s) {}

/-- Puts the states of `p` on top of those of `q`. -/
def append (p q : Pending) : Pending := ⟨p.marks ++ q.marks, p.words ++ q.words⟩

/-- Takes off a state of `n` words. -/
def pop (p : Pending) (n : Nat) : Top :=
  match p.marks with
  | [] => .empty
  | mark :: marks =>
    let top := p.words.take n
    if top.length = n then .state mark top ⟨marks, p.words.drop n⟩ else .short top.length

theorem ofList_cons (mark : Mark) (s : State) (states : List (Mark × State)) :
    ofList ((mark, s) :: states) = (ofList states).push mark s := rfl

theorem pop_push (mark : Mark) (s : State) (p : Pending) : (p.push mark s).pop s.length = .state mark s p := by
  simp [pop, push]

theorem append_push (mark : Mark) (s : State) (p q : Pending) :
    (p.push mark s).append q = (p.append q).push mark s := by
  simp [append, push]

theorem append_ofList (states : List (Mark × State)) (q : Pending) :
    (ofList states).append q = states.foldr (fun (mark, s) p => p.push mark s) q := by
  induction states with
  | nil => rfl
  | cons entry states ih => rw [ofList_cons, append_push, ih, List.foldr_cons]

/-- A state that comes off the stack leaves fewer marks. -/
theorem length_marks_of_pop {p rest : Pending} {n : Nat} {mark : Mark} {s : State}
    (h : p.pop n = .state mark s rest) : rest.marks.length < p.marks.length := by
  unfold pop at h
  split at h
  · simp at h
  · rename_i hm
    dsimp only at h
    split at h
    · cases h
      simp [hm]
    · simp at h

end Pending

end StateSpace
