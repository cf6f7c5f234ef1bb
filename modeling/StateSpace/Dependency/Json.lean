import StateSpace.Json.Basic
import StateSpace.Dependency.Input

/-!
# Dependency inputs in JSON

`DependencyInput.ofJson?` reads an input and `DependencyInput.toJson` writes one with all its fields. Only the slots and
the groups must be there.
-/

namespace StateSpace

namespace Json

def indices? : Json → Option (List Nat) := list? index?

def flags? : Json → Option (List (List Bool)) := list? (list? bool?)

def flags (table : List (List Bool)) : Json := .array (table.map fun row => .array (row.map .bool))

end Json

namespace GroupDependencies

def ofJson? (j : Json) : Option GroupDependencies := do
  match ← j.fields? ["name", "read", "may_write", "must_write", "actions_read", "guards"] with
  | [name, read, mayWrite, mustWrite, actionsRead, guards] =>
    return {
      name := ← Json.defaulted Json.text? "" name
      read := ← Json.defaulted Json.indices? [] read
      mayWrite := ← Json.defaulted Json.indices? [] mayWrite
      mustWrite := ← Json.defaulted Json.indices? [] mustWrite
      actionsRead := ← Json.defaulted (Json.option? Json.indices?) none actionsRead
      guards := ← Json.defaulted Json.indices? [] guards }
  | _ => none

def toJson (d : GroupDependencies) : Json :=
  .record [("name", .str d.name), ("read", .nats d.read), ("may_write", .nats d.mayWrite),
    ("must_write", .nats d.mustWrite), ("actions_read", .option .nats d.actionsRead), ("guards", .nats d.guards)]

end GroupDependencies

namespace GuardDependencies

def ofJson? (j : Json) : Option GuardDependencies := do
  match ← j.fields? ["name", "tests"] with
  | [name, tests] =>
    return {
      name := ← Json.defaulted Json.text? "" name
      tests := ← Json.defaulted Json.indices? [] tests }
  | _ => none

def toJson (d : GuardDependencies) : Json := .record [("name", .str d.name), ("tests", .nats d.tests)]

end GuardDependencies

namespace DependencyInput

def ofJson? (j : Json) : Option DependencyInput := do
  match ← j.fields? ["slots", "groups", "guards", "may_be_coenabled", "must_disable"] with
  | [slots, groups, guards, mayBeCoenabled, mustDisable] =>
    return {
      slots := ← Json.required (Json.list? Json.text?) slots
      groups := ← Json.required (Json.list? GroupDependencies.ofJson?) groups
      guards := ← Json.defaulted (Json.list? GuardDependencies.ofJson?) [] guards
      mayBeCoenabled := ← Json.defaulted (Json.option? Json.flags?) none mayBeCoenabled
      mustDisable := ← Json.defaulted (Json.option? Json.flags?) none mustDisable }
  | _ => none

def toJson (input : DependencyInput) : Json :=
  .record [("slots", .array (input.slots.map .str)), ("groups", .array (input.groups.map (·.toJson))),
    ("guards", .array (input.guards.map (·.toJson))),
    ("may_be_coenabled", .option .flags input.mayBeCoenabled),
    ("must_disable", .option .flags input.mustDisable)]

end DependencyInput

end StateSpace
