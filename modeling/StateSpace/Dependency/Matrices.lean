import StateSpace.Dependency.BitMatrix
import StateSpace.Dependency.Input

/-!
# Dependency matrices

The relations between groups, guards and slots that a partial-order reduction asks for. With `W`, `R` and `A` for the
slots that a group writes (or may write), reads, and reads in its actions, and `T` for the slots that a guard tests:

* a group may enable a guard (`nes`) if it writes a slot that the guard tests and does not always falsify the guard;
* a group may disable a guard (`nds`) if it writes a slot that the guard tests and all its own guards can hold together
  with the guard;
* two groups commute (`commutes`) if neither writes what the other reads or writes;
* two different groups do not accord (`dnaRaw`) if all their guards can hold together, and they do not commute or one
  may disable a guard of the other; the refined relation (`dna`) asks in place of the first that one writes what the
  actions of the other read, and relates every group to itself;
* a group does not accord with another to its left (`dnb`) if the other does not always falsify one of its guards, and
  the two do not accord or the other may enable one of its guards.

`DependencyMatrices.build` validates the input first. The positions of a valid input are all inside the matrices, so
`BuildError.outOfRange` does not occur.
-/

namespace StateSpace

/-- The relations that an input gives. -/
structure GivenRelations where
  /-- Group by guard. -/
  guardsOf : BitMatrix
  /-- Group by slot. -/
  read : BitMatrix
  /-- Group by slot; what a group must write it may write. -/
  mayWrite : BitMatrix
  /-- Group by slot. -/
  mustWrite : BitMatrix
  /-- Group by slot. -/
  actionsRead : BitMatrix
  /-- Guard by slot. -/
  tests : BitMatrix
  /-- Guard by guard; symmetric and reflexive. -/
  coenabled : BitMatrix
  /-- Guard by group. -/
  mustDisable : BitMatrix
  deriving DecidableEq

/-- All relations, the given and the derived ones. -/
structure DependencyMatrices extends GivenRelations where
  /-- Guard by group: the group may make the guard true. -/
  nes : BitMatrix
  /-- Guard by group: the group may make the guard false. -/
  nds : BitMatrix
  /-- Group by group. -/
  commutes : BitMatrix
  /-- Group by group: the two do not accord, before refinement. -/
  dnaRaw : BitMatrix
  /-- Group by group: the two do not accord. -/
  dna : BitMatrix
  /-- Group by group: the first does not accord with the second to its left. -/
  dnb : BitMatrix
  deriving DecidableEq

inductive BuildError where
  /-- The input is not valid. -/
  | malformed (error : InputError)
  /-- A position of the input is outside a matrix. -/
  | outOfRange (position : OutOfRange)
  deriving DecidableEq, Repr

def BuildError.message : BuildError → String
  | .malformed e => e.message
  | .outOfRange p => p.message

/-- The slots that a group may or must write. -/
def GroupDependencies.written (d : GroupDependencies) : List Nat := d.mayWrite ++ d.mustWrite

/-- The entry of an explicit table; false outside it. -/
def tableEntry (table : List (List Bool)) (r c : Nat) : Bool := ((table[r]?).bind (·[c]?)).getD false

namespace DependencyInput

/-- Whether two guards can hold together: every guard with itself, and those that the table relates in one direction. -/
def coenabled (input : DependencyInput) (g h : Nat) : Bool :=
  match input.mayBeCoenabled with
  | none => true
  | some table => g == h || tableEntry table g h || tableEntry table h g

/-- Whether a group always falsifies a guard. -/
def mustDisables (input : DependencyInput) (guard group : Nat) : Bool :=
  tableEntry (input.mustDisable.getD []) guard group

/-- The relations of an input; fails if one of its positions does not exist. -/
def relations (input : DependencyInput) : Except OutOfRange GivenRelations := do
  let slots := input.slots.length
  let guards := input.guards.length
  let bySlot (positions : GroupDependencies → List Nat) := BitMatrix.ofSets slots (input.groups.map positions)
  return {
    guardsOf := ← BitMatrix.ofSets guards (input.groups.map (·.guards))
    read := ← bySlot (·.read)
    mayWrite := ← bySlot (·.written)
    mustWrite := ← bySlot (·.mustWrite)
    actionsRead := ← bySlot (·.actionSlots)
    tests := ← BitMatrix.ofSets slots (input.guards.map (·.tests))
    coenabled := BitMatrix.ofFn guards guards input.coenabled
    mustDisable := BitMatrix.ofFn guards input.groups.length input.mustDisables }

end DependencyInput

namespace GivenRelations

variable (r : GivenRelations)

def groups : Nat := r.read.rows

def guards : Nat := r.tests.rows

def slots : Nat := r.read.cols

/-- The guards of each group, ascending. -/
def guardLists : Array (List Nat) := Array.ofFn fun i : Fin r.groups => r.guardsOf.rowList i

/-- The group writes a slot that the guard tests. -/
def writesTested (guard group : Nat) : Bool := r.tests.meets guard r.mayWrite group

def nes : BitMatrix :=
  .ofFn r.guards r.groups fun guard group => r.writesTested guard group && !r.mustDisable.entry guard group

def commutes : BitMatrix :=
  .ofFn r.groups r.groups fun i j =>
    !(r.mayWrite.meets i r.read j || r.read.meets i r.mayWrite j || r.mayWrite.meets i r.mayWrite j)

/-- One of the two groups writes what the actions of the other read. -/
def feedsActions (i j : Nat) : Bool := r.mayWrite.meets i r.actionsRead j || r.actionsRead.meets i r.mayWrite j

/-! With `enabling` for the guards that enable each group: -/

section

variable (enabling : Nat → List Nat)

/-- A guard of `i` and a guard of `j` can never hold together. -/
def neverCoenabled (i j : Nat) : Bool :=
  (enabling i).any fun g => (enabling j).any fun h => !r.coenabled.entry g h

def nds : BitMatrix :=
  .ofFn r.guards r.groups fun guard group =>
    r.writesTested guard group && (enabling group).all (r.coenabled.entry guard)

/-- One of the two groups may disable a guard of the other. -/
def mayDisable (nds : BitMatrix) (i j : Nat) : Bool :=
  (enabling i).any (nds.entry · j) || (enabling j).any (nds.entry · i)

def dnaRaw (nds commutes : BitMatrix) : BitMatrix :=
  .ofFn r.groups r.groups fun i j =>
    i != j && !r.neverCoenabled enabling i j && (!commutes.entry i j || mayDisable enabling nds i j)

def dna (nds dnaRaw : BitMatrix) : BitMatrix :=
  .ofFn r.groups r.groups fun i j =>
    i == j ||
      (!r.neverCoenabled enabling i j && dnaRaw.entry i j && (mayDisable enabling nds i j || r.feedsActions i j))

def dnb (nes dna : BitMatrix) : BitMatrix :=
  .ofFn r.groups r.groups fun i j =>
    !(enabling i).any (r.mustDisable.entry · j) && (dna.entry i j || (enabling i).any (nes.entry · j))

end

/-- Adds the derived relations. -/
def derive : DependencyMatrices :=
  let lists := r.guardLists
  let enabling i := lists.getD i []
  let nes := r.nes
  let nds := r.nds enabling
  let commutes := r.commutes
  let dnaRaw := r.dnaRaw enabling nds commutes
  let dna := r.dna enabling nds dnaRaw
  { r with nes, nds, commutes, dnaRaw, dna, dnb := r.dnb enabling nes dna }

end GivenRelations

namespace DependencyMatrices

/-- All relations of a valid input. -/
def build (input : DependencyInput) : Except BuildError DependencyMatrices :=
  match input.validate with
  | .error e => .error (.malformed e)
  | .ok () =>
    match input.relations with
    | .error p => .error (.outOfRange p)
    | .ok r => .ok r.derive

end DependencyMatrices

end StateSpace
