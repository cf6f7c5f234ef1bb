import StateSpace.State
import StateSpace.Text

/-!
# States for readers

A naming gives names to the slots of a state, to the values of its types, and to transition groups; what it does not
know has a name made of its number. `Naming.display` writes a state with one slot on a line: the name in a column of 30,
and the value, by name if its type has named values, else in a column of 3.
-/

namespace StateSpace

structure Naming where
  /-- The name of a slot. -/
  slot : Nat → String := fun slot => s!"slot_{slot}"
  /-- The type of a slot. -/
  type : Nat → Nat := fun _ => 0
  /-- How many values of a type have names; none if its values are numbers. -/
  named : Nat → Nat := fun _ => 0
  /-- The name of a value of a type. -/
  value : Nat → Int32 → String := fun _ value => toString value.toInt
  /-- The name of a group. -/
  group : TransitionGroup → String := fun group => s!"group_{group.index}"

namespace Naming

instance : Inhabited Naming := ⟨{}⟩

/-- The naming given by lists: by slot the names and the types, by type the number of named values and their names. What
a list leaves out has its usual name; no negative value is in a list. -/
def ofLists (names : List (Option String)) (types counts : List (Option Nat)) (values : List (List (Option String))) :
    Naming where
  slot i := (names[i]?.join).getD ((default : Naming).slot i)
  type i := (types[i]?.join).getD ((default : Naming).type i)
  named ty := (counts[ty]?.join).getD ((default : Naming).named ty)
  value ty v :=
    let listed := if v.toInt < 0 then none else (values[ty]? >>= fun names => names[v.toInt.toNat]?).join
    listed.getD ((default : Naming).value ty v)

/-- One line of a state. -/
def displaySlot (n : Naming) (slot : Nat) (word : Int32) : String :=
  let type := n.type slot
  let value := if n.named type = 0 then Text.right 3 (toString word.toInt) else n.value type word
  s!"{Text.left 30 (n.slot slot)}= {value}\n"

/-- A state, slot by slot. -/
def display (n : Naming) (s : State) : String :=
  String.join (s.mapIdx fun slot word => n.displaySlot slot word)

end Naming

end StateSpace
