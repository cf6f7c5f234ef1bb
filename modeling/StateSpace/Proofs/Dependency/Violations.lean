import StateSpace.Proofs.Dependency.Validity

/-!
# Everything that is wrong with an input

`violations` lists all positions of an input that do not exist, and its tables of the wrong shape: group by group the
slots that are read, that may be written, that must be written and that the actions read, and then the guards; after the
groups the slots that the guards test, and then the tables. Within a list of positions they stand in its order.

Validation fails with the first of them (`validate_eq_error_iff`), and the valid inputs are those without violations
(`violations_eq_nil_iff`).
-/

namespace StateSpace.DependencyInput

/-! ## The first of several errors -/

section

variable {ε α : Type}

/-- Fails with the first error of a list. -/
def failFirst (errors : List ε) : Except ε Unit :=
  match errors.head? with
  | none => .ok ()
  | some e => .error e

theorem failFirst_eq_ok_iff {errors : List ε} : failFirst errors = .ok () ↔ errors = [] := by
  cases errors <;> simp [failFirst]

theorem failFirst_eq_error_iff {errors : List ε} {e : ε} : failFirst errors = .error e ↔ errors.head? = some e := by
  cases errors <;> simp [failFirst]

/-- One check after another fails with the first error of both. -/
theorem failFirst_append (errors errors' : List ε) :
    failFirst (errors ++ errors') = (failFirst errors >>= fun _ => failFirst errors') := by
  cases errors <;> rfl

theorem failFirst_flatMap (f : α → List ε) (l : List α) :
    failFirst (l.flatMap f) = l.forM fun a => failFirst (f a) := by
  induction l with
  | nil => rfl
  | cons a rest ih =>
    rw [List.flatMap_cons, failFirst_append, ih]
    rfl

end

/-! ## Violations -/

/-- The positions that are not below the number of slots. -/
def slotViolations (owner : SlotOwner) (slots : Nat) (positions : List Nat) : List InputError :=
  (positions.filter (slots ≤ ·)).map fun s => .slotOutOfRange owner.text s slots

/-- The positions that are not below the number of guards. -/
def guardViolations (group guards : Nat) (positions : List Nat) : List InputError :=
  (positions.filter (guards ≤ ·)).map fun g => .guardOutOfRange group g guards

/-- A table of the wrong shape. -/
def shapeViolations (name : ExplicitTable) (rows cols : Nat) : Option (List (List Bool)) → List InputError
  | none => []
  | some table => if table.length = rows ∧ ∀ row ∈ table, row.length = cols then [] else [.shape name rows cols]

def groupViolations (input : DependencyInput) (i : Nat) (d : GroupDependencies) : List InputError :=
  let slots := input.slots.length
  slotViolations (.group i) slots d.read ++ slotViolations (.group i) slots d.mayWrite ++
    slotViolations (.group i) slots d.mustWrite ++ slotViolations (.group i) slots (d.actionsRead.getD []) ++
    guardViolations i input.guards.length d.guards

/-- All violations, in the order in which they are looked for. -/
def violations (input : DependencyInput) : List InputError :=
  input.groups.zipIdx.flatMap (fun (d, i) => input.groupViolations i d) ++
    input.guards.zipIdx.flatMap (fun (d, i) => slotViolations (.guard i) input.slots.length d.tests) ++
    shapeViolations .mayBeCoenabled input.guards.length input.guards.length input.mayBeCoenabled ++
    shapeViolations .mustDisable input.guards.length input.groups.length input.mustDisable

/-! ## Validation -/

theorem checkSlots_eq (owner : SlotOwner) (slots : Nat) (positions : List Nat) :
    checkSlots owner slots positions = failFirst (slotViolations owner slots positions) := by
  unfold checkSlots failFirst slotViolations
  rw [List.head?_map, List.head?_filter]
  cases positions.find? fun s => slots ≤ s <;> rfl

theorem checkGuards_eq (group guards : Nat) (positions : List Nat) :
    checkGuards group guards positions = failFirst (guardViolations group guards positions) := by
  unfold checkGuards failFirst guardViolations
  rw [List.head?_map, List.head?_filter]
  cases positions.find? fun g => guards ≤ g <;> rfl

theorem checkShape_eq (name : ExplicitTable) (rows cols : Nat) (table? : Option (List (List Bool))) :
    checkShape name rows cols table? = failFirst (shapeViolations name rows cols table?) := by
  cases table? with
  | none => rfl
  | some table =>
    simp only [checkShape, shapeViolations, List.all_eq_true, decide_eq_true_eq]
    split <;> rfl

theorem checkGroup_eq (input : DependencyInput) (i : Nat) (d : GroupDependencies) :
    input.checkGroup i d = failFirst (input.groupViolations i d) := by
  simp only [checkGroup, groupViolations, checkSlots_eq, checkGuards_eq, failFirst_append]
  simp only [bind_assoc]

/-- Validation goes through the violations. -/
theorem validate_eq (input : DependencyInput) : input.validate = failFirst input.violations := by
  simp only [validate, violations, failFirst_append, failFirst_flatMap, checkGroup_eq, checkGuard, checkSlots_eq,
    checkShape_eq]
  simp only [bind_assoc]

/-- Validation fails with the first violation. -/
theorem validate_eq_error_iff {input : DependencyInput} {e : InputError} :
    input.validate = .error e ↔ input.violations.head? = some e := by
  rw [validate_eq, failFirst_eq_error_iff]

theorem violations_eq_nil_iff {input : DependencyInput} : input.violations = [] ↔ input.Valid := by
  rw [← failFirst_eq_ok_iff, ← validate_eq, validate_eq_ok_iff]

end StateSpace.DependencyInput
