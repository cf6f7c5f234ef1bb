/-!
# Dependency inputs

What is known of a model without running it: the slots that each transition group reads and writes, the guards that
enable it, and the slots that each guard tests; optionally which guards can hold together, and which groups always
falsify which guards. Slots, groups and guards are named by their position.

`DependencyInput.validate` rejects positions that do not exist and tables of the wrong shape, the first in the order of
the input.
-/

namespace StateSpace

structure GroupDependencies where
  /-- The text of the statement. -/
  name : String := ""
  /-- Slots read by guards or actions. -/
  read : List Nat := []
  /-- Slots that may be written. -/
  mayWrite : List Nat := []
  /-- Slots that are written every time. -/
  mustWrite : List Nat := []
  /-- Slots read by the actions; all that are read, when absent. -/
  actionsRead : Option (List Nat) := none
  /-- The guards that enable the group. -/
  guards : List Nat := []
  deriving DecidableEq, Repr, Inhabited

/-- The slots that the actions of a group read. -/
def GroupDependencies.actionSlots (d : GroupDependencies) : List Nat := d.actionsRead.getD d.read

structure GuardDependencies where
  /-- The text of the expression. -/
  name : String := ""
  /-- Slots that the guard tests. -/
  tests : List Nat := []
  deriving DecidableEq, Repr, Inhabited

structure DependencyInput where
  /-- The names of the slots. -/
  slots : List String
  groups : List GroupDependencies
  guards : List GuardDependencies := []
  /-- Guard by guard, whether both can hold in one state; all can, when absent. -/
  mayBeCoenabled : Option (List (List Bool)) := none
  /-- Guard by group, whether the group always falsifies the guard; none does, when absent. -/
  mustDisable : Option (List (List Bool)) := none
  deriving DecidableEq, Repr, Inhabited

/-- What refers to a slot. -/
inductive SlotOwner where
  | group (index : Nat)
  | guard (index : Nat)
  deriving DecidableEq, Repr

def SlotOwner.text : SlotOwner → String
  | .group i => s!"group {i}"
  | .guard i => s!"guard {i}"

/-- A table that an input can give. -/
inductive ExplicitTable where
  | mayBeCoenabled
  | mustDisable
  deriving DecidableEq, Repr

def ExplicitTable.text : ExplicitTable → String
  | .mayBeCoenabled => "may_be_coenabled"
  | .mustDisable => "must_disable"

inductive InputError where
  /-- A group or a guard refers to a slot that does not exist. -/
  | slotOutOfRange (owner : String) (slot slots : Nat)
  /-- A group refers to a guard that does not exist. -/
  | guardOutOfRange (group guard guards : Nat)
  /-- An explicit table has the wrong shape. -/
  | shape (table : ExplicitTable) (rows cols : Nat)
  deriving DecidableEq, Repr

def InputError.message : InputError → String
  | .slotOutOfRange owner slot slots => s!"{owner} refers to slot {slot}, model has {slots} slots"
  | .guardOutOfRange group guard guards => s!"group {group} refers to guard {guard}, model has {guards} guards"
  | .shape table rows cols => s!"matrix '{table.text}' must be {rows} x {cols}"

namespace DependencyInput

/-- Fails at the first position of the list that is not below the number of slots. -/
def checkSlots (owner : SlotOwner) (slots : Nat) (positions : List Nat) : Except InputError Unit :=
  match positions.find? fun s => slots ≤ s with
  | some s => .error (.slotOutOfRange owner.text s slots)
  | none => .ok ()

/-- Fails at the first position of the list that is not below the number of guards. -/
def checkGuards (group guards : Nat) (positions : List Nat) : Except InputError Unit :=
  match positions.find? fun g => guards ≤ g with
  | some g => .error (.guardOutOfRange group g guards)
  | none => .ok ()

/-- Fails unless a table that is given has the shape. -/
def checkShape (name : ExplicitTable) (rows cols : Nat) : Option (List (List Bool)) → Except InputError Unit
  | none => .ok ()
  | some table =>
    if table.length = rows ∧ table.all fun row => row.length = cols then .ok () else .error (.shape name rows cols)

def checkGroup (input : DependencyInput) (i : Nat) (d : GroupDependencies) : Except InputError Unit := do
  let slots := input.slots.length
  checkSlots (.group i) slots d.read
  checkSlots (.group i) slots d.mayWrite
  checkSlots (.group i) slots d.mustWrite
  checkSlots (.group i) slots (d.actionsRead.getD [])
  checkGuards i input.guards.length d.guards

def checkGuard (input : DependencyInput) (i : Nat) (d : GuardDependencies) : Except InputError Unit :=
  checkSlots (.guard i) input.slots.length d.tests

/-- Accepts the inputs all of whose positions exist and whose explicit tables have the right shape. -/
def validate (input : DependencyInput) : Except InputError Unit := do
  input.groups.zipIdx.forM fun (d, i) => input.checkGroup i d
  input.guards.zipIdx.forM fun (d, i) => input.checkGuard i d
  checkShape .mayBeCoenabled input.guards.length input.guards.length input.mayBeCoenabled
  checkShape .mustDisable input.guards.length input.groups.length input.mustDisable

/-- The slots that the actions of group `i` read. -/
def actionsRead? (input : DependencyInput) (i : Nat) : Option (List Nat) :=
  input.groups[i]?.map GroupDependencies.actionSlots

end DependencyInput

end StateSpace
