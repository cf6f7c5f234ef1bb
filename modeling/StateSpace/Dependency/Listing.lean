import StateSpace.Dependency.Input

/-!
# Dependency listing

One line for each group: its number, its name, and for each slot in order `R` if it is read, and `w` if it is always
written or else `W` if it may be written.
-/

namespace StateSpace

/-- The marks of one slot on the line of a group. -/
def GroupDependencies.slotMarks (d : GroupDependencies) (slot : Nat) (name : String) : String :=
  let read := if d.read.contains slot then s!"R({name}), " else ""
  let write :=
    if d.mustWrite.contains slot then s!"w({name}), "
    else if d.mayWrite.contains slot then s!"W({name}), "
    else ""
  read ++ write

namespace DependencyInput

/-- The line of group `i`. -/
def listingLine (input : DependencyInput) (i : Nat) (d : GroupDependencies) : String :=
  s!"{i})\t{d.name}\t" ++ String.join (input.slots.mapIdx d.slotMarks) ++ "\n"

def listing (input : DependencyInput) : String := String.join (input.groups.mapIdx input.listingLine)

end DependencyInput

end StateSpace
