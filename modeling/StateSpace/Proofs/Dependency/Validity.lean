import StateSpace.Dependency.Input

/-!
# Valid inputs

An input is valid if every position in it exists and its explicit tables have the right shape. These are the inputs
that validation accepts (`validate_eq_ok_iff`).
-/

namespace StateSpace.DependencyInput

/-- Every row has a place for every column. -/
def HasShape (table : List (List Bool)) (rows cols : Nat) : Prop :=
  table.length = rows ∧ ∀ row ∈ table, row.length = cols

/-- Every position exists, and the explicit tables have the right shape. -/
structure Valid (input : DependencyInput) : Prop where
  read_lt : ∀ d ∈ input.groups, ∀ s ∈ d.read, s < input.slots.length
  mayWrite_lt : ∀ d ∈ input.groups, ∀ s ∈ d.mayWrite, s < input.slots.length
  mustWrite_lt : ∀ d ∈ input.groups, ∀ s ∈ d.mustWrite, s < input.slots.length
  actionsRead_lt : ∀ d ∈ input.groups, ∀ s ∈ d.actionsRead.getD [], s < input.slots.length
  guards_lt : ∀ d ∈ input.groups, ∀ g ∈ d.guards, g < input.guards.length
  tests_lt : ∀ d ∈ input.guards, ∀ s ∈ d.tests, s < input.slots.length
  mayBeCoenabled_shape : ∀ table, input.mayBeCoenabled = some table →
    HasShape table input.guards.length input.guards.length
  mustDisable_shape : ∀ table, input.mustDisable = some table → HasShape table input.guards.length input.groups.length

/-! ## One check after another -/

/-- Of two checks in a row, both succeed or the whole fails. -/
theorem bind_eq_ok_iff {ε : Type} {a b : Except ε Unit} : (a >>= fun _ => b) = .ok () ↔ a = .ok () ∧ b = .ok () := by
  cases a <;> simp [bind, Except.bind]

theorem forM_eq_ok_iff {ε α : Type} {l : List α} {f : α → Except ε Unit} :
    l.forM f = .ok () ↔ ∀ a ∈ l, f a = .ok () := by
  induction l with
  | nil => simp [pure, Except.pure]
  | cons a rest ih =>
    show (f a >>= fun _ => rest.forM f) = .ok () ↔ _
    rw [bind_eq_ok_iff, ih, List.forall_mem_cons]

/-- A check of every member with its index, if the index does not matter. -/
theorem forM_zipIdx_eq_ok_iff {ε α : Type} {l : List α} {f : Nat → α → Except ε Unit} {p : α → Prop}
    (h : ∀ i a, f i a = .ok () ↔ p a) : (l.zipIdx.forM fun (a, i) => f i a) = .ok () ↔ ∀ a ∈ l, p a := by
  rw [forM_eq_ok_iff]
  constructor
  · intro hall a ha
    obtain ⟨i, hi⟩ := List.getElem?_of_mem ha
    exact (h i a).1 (hall (a, i) (List.mk_mem_zipIdx_iff_getElem?.2 hi))
  · intro hall entry hentry
    exact (h _ _).2 (hall _ (List.fst_mem_of_mem_zipIdx hentry))

/-! ## Checks of positions and shapes -/

theorem find?_le_eq_none_iff {n : Nat} {positions : List Nat} :
    (positions.find? fun s => n ≤ s) = none ↔ ∀ s ∈ positions, s < n := by
  simp only [List.find?_eq_none, decide_eq_true_eq, Nat.not_le]

theorem checkSlots_eq_ok_iff {owner : SlotOwner} {slots : Nat} {positions : List Nat} :
    checkSlots owner slots positions = .ok () ↔ ∀ s ∈ positions, s < slots := by
  rw [← find?_le_eq_none_iff, checkSlots]
  cases positions.find? fun s => slots ≤ s <;> simp

theorem checkGuards_eq_ok_iff {group guards : Nat} {positions : List Nat} :
    checkGuards group guards positions = .ok () ↔ ∀ g ∈ positions, g < guards := by
  rw [← find?_le_eq_none_iff, checkGuards]
  cases positions.find? fun g => guards ≤ g <;> simp

theorem checkShape_eq_ok_iff {name : ExplicitTable} {rows cols : Nat} {table? : Option (List (List Bool))} :
    checkShape name rows cols table? = .ok () ↔ ∀ table, table? = some table → HasShape table rows cols := by
  cases table? with
  | none => simp [checkShape]
  | some table =>
    simp only [checkShape, HasShape, List.all_eq_true, decide_eq_true_eq, Option.some.injEq, forall_eq']
    split
    · rename_i h
      exact iff_of_true rfl h
    · rename_i h
      exact iff_of_false (by simp) h

/-! ## Validation -/

/-- **Validation accepts exactly the inputs whose positions exist and whose tables have the right shape.** -/
theorem validate_eq_ok_iff {input : DependencyInput} : input.validate = .ok () ↔ input.Valid := by
  have hgroups := forM_zipIdx_eq_ok_iff (l := input.groups) (f := input.checkGroup) fun i d => by
    unfold checkGroup
    simp only [bind_eq_ok_iff, checkSlots_eq_ok_iff, checkGuards_eq_ok_iff]
    exact Iff.rfl
  have hguards := forM_zipIdx_eq_ok_iff (l := input.guards) (f := input.checkGuard) fun i d => checkSlots_eq_ok_iff
  unfold validate
  rw [bind_eq_ok_iff, bind_eq_ok_iff, bind_eq_ok_iff, hgroups, hguards, checkShape_eq_ok_iff, checkShape_eq_ok_iff]
  constructor
  · rintro ⟨hgroup, hguard, hco, hmust⟩
    exact ⟨fun d hd => (hgroup d hd).1, fun d hd => (hgroup d hd).2.1, fun d hd => (hgroup d hd).2.2.1,
      fun d hd => (hgroup d hd).2.2.2.1, fun d hd => (hgroup d hd).2.2.2.2, hguard, hco, hmust⟩
  · intro h
    exact ⟨fun d hd => ⟨h.read_lt d hd, h.mayWrite_lt d hd, h.mustWrite_lt d hd, h.actionsRead_lt d hd,
      h.guards_lt d hd⟩, h.tests_lt, h.mayBeCoenabled_shape, h.mustDisable_shape⟩

end StateSpace.DependencyInput
