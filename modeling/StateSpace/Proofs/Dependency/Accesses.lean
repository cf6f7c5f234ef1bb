import StateSpace.Dependency.Matrices
import StateSpace.Proofs.Dependency.Filling

/-!
# Building access by access

The matrices are built by reading and writing single entries, rows and places of the given lists, each of which fails
outside of what it reads (`Fault`). `buildByAccess` is the derivation with every such access, without those that a test
or an earlier answer spares. A matrix is allocated when it is filled, and each is filled by a loop of its own.

An access inside of what it reads succeeds (`lift_get`, `lift_row`, `lift_overlap`), and a matrix whose entries are
computed without a fault is that of the answers (`yields_fill`). What remains is storage, of which there is enough for
less than `2 ^ 33` rows and columns (`Yields.eq_ok`).
-/

namespace StateSpace

/-- What an access can run into. -/
inductive Fault where
  /-- A matrix has more words than can be addressed. -/
  | storage (rows cols : Nat)
  /-- An entry or a row is outside its matrix. -/
  | outOfRange (position : OutOfRange)
  /-- Two rows cannot be compared. -/
  | overlap (error : BitMatrix.OverlapError)
  /-- A list has no such place. -/
  | place (index length : Nat)
  deriving DecidableEq, Repr

namespace Fault

def ofMakeError : BitMatrix.MakeError → Fault
  | .storage rows cols => .storage rows cols
  | .outOfRange position => .outOfRange position

instance : MonadLift (Except OutOfRange) (Except Fault) := ⟨Except.mapError .outOfRange⟩

instance : MonadLift (Except BitMatrix.OverlapError) (Except Fault) := ⟨Except.mapError .overlap⟩

instance : MonadLift (Except BitMatrix.MakeError) (Except Fault) := ⟨Except.mapError ofMakeError⟩

end Fault

/-! ## The derivation -/

/-- The place of a list. -/
def placeAt {α : Type} (l : List α) (i : Nat) : Except Fault α :=
  match l[i]? with
  | some a => .ok a
  | none => .error (.place i l.length)

namespace BitMatrix

/-- All places of a matrix, row by row. -/
def places (rows cols : Nat) : List (Nat × Nat) :=
  (List.range rows).flatMap fun r => (List.range cols).map fun c => (r, c)

/-- Makes a matrix and writes the entries one by one; those without a value are passed over. -/
def fill (rows cols : Nat) (entry : Nat → Nat → Except Fault (Option Bool)) : Except Fault BitMatrix := do
  let m ← create rows cols
  (places rows cols).foldlM (fun m (r, c) => do
    match ← entry r c with
    | none => return m
    | some value => m.set r c value) m

/-- The entries of a table as writes, row by row. -/
def tableWrites (table : List (List Bool)) : List Write :=
  table.zipIdx.flatMap fun (row, r) => row.zipIdx.map fun (value, c) => ⟨r, c, value⟩

end BitMatrix

namespace DependencyInput

variable (input : DependencyInput)

/-- Whether two guards can hold together. The second direction of the table is read if the first has no mark. -/
def readCoenabled (g h : Nat) : Except Fault Bool :=
  match input.mayBeCoenabled with
  | none => return true
  | some table => do
    let mark (r c : Nat) : Except Fault Bool := do placeAt (← placeAt table r) c
    if g = h then return true else mark g h <||> mark h g

/-- The given relations. What must be written is added to what may be written. -/
def relationsByAccess : Except Fault GivenRelations := do
  let slots := input.slots.length
  let groups := input.groups.length
  let guards := input.guards.length
  let guardsOf ← BitMatrix.createFrom guards (input.groups.map (·.guards))
  let read ← BitMatrix.createFrom slots (input.groups.map (·.read))
  let mustWrite ← BitMatrix.createFrom slots (input.groups.map (·.mustWrite))
  let mayWrite ← BitMatrix.createFrom slots (input.groups.map (·.mayWrite))
  let written ← (List.range groups).foldlM (fun m t => do m.setAll t (← mustWrite.row t)) mayWrite
  let actionSlots ← (List.range groups).mapM fun t => return (← placeAt input.groups t).actionSlots
  let actionsRead ← BitMatrix.createFrom slots actionSlots
  let tests ← BitMatrix.createFrom slots (input.guards.map (·.tests))
  let coenabled ← BitMatrix.fill guards guards fun g h => return some (← input.readCoenabled g h)
  let mustDisable ← BitMatrix.create guards groups
  let mustDisable ← mustDisable.writeAll (BitMatrix.tableWrites (input.mustDisable.getD []))
  return { guardsOf, read, mayWrite := written, mustWrite, actionsRead, tests, coenabled, mustDisable }

end DependencyInput

namespace GivenRelations

variable (r : GivenRelations)

/-- Whether a guard of `i` and a guard of `j` can never hold together. -/
def readNeverCoenabled (i j : Nat) : Except Fault Bool := do
  (← r.guardsOf.row i).anyM fun g => do
    (← r.guardsOf.row j).anyM fun h => return !(← r.coenabled.get g h)

/-- Whether one of two groups may disable a guard of the other. -/
def readMayDisable (nds : BitMatrix) (i j : Nat) : Except Fault Bool :=
  (do (← r.guardsOf.row i).anyM fun g => do nds.get g j) <||> do (← r.guardsOf.row j).anyM fun g => do nds.get g i

/-- An entry of `nes`, if the group writes what the guard tests. -/
def readNes (guard group : Nat) : Except Fault (Option Bool) := do
  if ← r.tests.overlap guard r.mayWrite group then
    return some !(← r.mustDisable.get guard group)
  else return none

def readNds (guard group : Nat) : Except Fault (Option Bool) := do
  if ← r.tests.overlap guard r.mayWrite group then
    return some (← (← r.guardsOf.row group).allM fun h => do r.coenabled.get guard h)
  else return none

def readCommutes (i j : Nat) : Except Fault (Option Bool) := do
  let conflict ← r.mayWrite.overlap i r.read j <||> r.read.overlap i r.mayWrite j <||>
    r.mayWrite.overlap i r.mayWrite j
  return some !conflict

def readDnaRaw (nds commutes : BitMatrix) (i j : Nat) : Except Fault (Option Bool) := do
  if i = j then return none
  if ← r.readNeverCoenabled i j then return none
  return some (← (do return !(← commutes.get i j)) <||> r.readMayDisable nds i j)

def readDna (nds dnaRaw : BitMatrix) (i j : Nat) : Except Fault (Option Bool) := do
  if i = j then return some true
  if ← r.readNeverCoenabled i j <||> (do return !(← dnaRaw.get i j)) then return some false
  return some (← r.readMayDisable nds i j <||> r.mayWrite.overlap i r.actionsRead j <||>
    r.actionsRead.overlap i r.mayWrite j)

def readDnb (nes dna : BitMatrix) (i j : Nat) : Except Fault (Option Bool) := do
  if ← (← r.guardsOf.row i).anyM fun g => do r.mustDisable.get g j then return some false
  return some (← dna.get i j <||> do (← r.guardsOf.row i).anyM fun g => do nes.get g j)

/-- Adds the derived relations. -/
def deriveByAccess : Except Fault DependencyMatrices := do
  let nes ← BitMatrix.fill r.guards r.groups r.readNes
  let nds ← BitMatrix.fill r.guards r.groups r.readNds
  let commutes ← BitMatrix.fill r.groups r.groups r.readCommutes
  let dnaRaw ← BitMatrix.fill r.groups r.groups (r.readDnaRaw nds commutes)
  let dna ← BitMatrix.fill r.groups r.groups (r.readDna nds dnaRaw)
  let dnb ← BitMatrix.fill r.groups r.groups (r.readDnb nes dna)
  return { r with nes, nds, commutes, dnaRaw, dna, dnb }

end GivenRelations

/-- All relations of a valid input, access by access. -/
def DependencyMatrices.buildByAccess (input : DependencyInput) : Except Fault (Except InputError DependencyMatrices) :=
  match input.validate with
  | .error e => return .error e
  | .ok () => do return .ok (← (← input.relationsByAccess).deriveByAccess)

/-! ## Accesses that succeed -/

theorem placeAt_eq_ok {α : Type} {l : List α} {i : Nat} (hi : i < l.length) : placeAt l i = .ok l[i] := by
  rw [placeAt, List.getElem?_eq_getElem hi]

namespace Fault

variable {α β : Type}

theorem ok_bind (a : α) (f : α → Except Fault β) : (Except.ok a >>= f) = f a := rfl

theorem ok_or (a b : Bool) : ((.ok a : Except Fault Bool) <||> .ok b) = .ok (a || b) := by cases a <;> rfl

theorem anyM_eq_ok {l : List α} {f : α → Except Fault Bool} {p : α → Bool} (h : ∀ a ∈ l, f a = .ok (p a)) :
    l.anyM f = .ok (l.any p) := by
  induction l with
  | nil => rfl
  | cons a rest ih =>
    rw [List.anyM_cons, h a List.mem_cons_self, ok_bind, List.any_cons]
    cases p a with
    | true => rfl
    | false => exact ih fun b hb => h b (List.mem_cons_of_mem a hb)

theorem allM_eq_ok {l : List α} {f : α → Except Fault Bool} {p : α → Bool} (h : ∀ a ∈ l, f a = .ok (p a)) :
    l.allM f = .ok (l.all p) := by
  induction l with
  | nil => rfl
  | cons a rest ih =>
    rw [List.allM_cons, h a List.mem_cons_self, ok_bind, List.all_cons]
    cases p a with
    | false => rfl
    | true => exact ih fun b hb => h b (List.mem_cons_of_mem a hb)

theorem mapM_eq_ok {l : List α} {f : α → Except Fault β} {g : α → β} (h : ∀ a ∈ l, f a = .ok (g a)) :
    l.mapM f = .ok (l.map g) := by
  induction l with
  | nil => rfl
  | cons a rest ih =>
    rw [List.mapM_cons, h a List.mem_cons_self, ih fun b hb => h b (List.mem_cons_of_mem a hb)]
    rfl

end Fault

namespace BitMatrix

open Fault

variable {m m' : BitMatrix} {r c i j : Nat}

theorem lift_get (hr : r < m.rows) (hc : c < m.cols) : (liftM (m.get r c) : Except Fault Bool) = .ok (m.entry r c) := by
  rw [get_eq_ok hr hc]
  rfl

theorem lift_row (hr : r < m.rows) : (liftM (m.row r) : Except Fault (List Nat)) = .ok (m.rowList r) := by
  rw [row_eq_ok hr]
  rfl

theorem lift_overlap (hcols : m.cols = m'.cols) (hi : i < m.rows) (hj : j < m'.rows) :
    (liftM (m.overlap i m' j) : Except Fault Bool) = .ok (m.meets i m' j) := by
  rw [overlap_eq_ok hcols hi hj]
  rfl

theorem lt_of_mem_rowList (hc : c ∈ m.rowList r) : c < m.cols := by
  rw [rowList_eq, List.mem_filter, List.mem_range] at hc
  exact hc.1

end BitMatrix

/-! ## Storage -/

/-- The computation gives the value, unless one of its matrices, which have at most `n` rows and columns, has more words
than can be addressed. -/
def Fault.Yields {α : Type} (n : Nat) (x : Except Fault α) (a : α) : Prop :=
  x = .ok a ∨ ∃ rows ≤ n, ∃ cols ≤ n, x = .error (.storage rows cols) ∧ 1 <<< 60 ≤ BitMatrix.words rows cols

namespace Fault

variable {α β : Type} {n : Nat}

theorem Yields.of_ok {x : Except Fault α} {a : α} (h : x = .ok a) : Yields n x a := .inl h

theorem Yields.bind {x : Except Fault α} {f : α → Except Fault β} {a : α} {b : β} (hx : Yields n x a)
    (hf : Yields n (f a) b) : Yields n (x >>= f) b := by
  rcases hx with rfl | ⟨rows, hrows, cols, hcols, rfl, hwords⟩
  · exact hf
  · exact .inr ⟨rows, hrows, cols, hcols, rfl, hwords⟩

/-- There is storage for matrices of less than `2 ^ 33` rows and columns. -/
theorem Yields.eq_ok {x : Except Fault α} {a : α} (h : Yields n x a) (hn : n < 1 <<< 33) : x = .ok a := by
  refine h.resolve_right ?_
  rintro ⟨rows, hrows, cols, hcols, -, hwords⟩
  have hblocks : (cols + 63) / 64 ≤ 1 <<< 27 := by
    have : 1 <<< 33 = 8589934592 := rfl
    have : 1 <<< 27 = 134217728 := rfl
    omega
  have hrows : rows ≤ 1 <<< 33 - 1 := by omega
  have hle : BitMatrix.words rows cols ≤ (1 <<< 33 - 1) * 1 <<< 27 := Nat.mul_le_mul hrows hblocks
  exact absurd (hwords.trans hle) (by decide)

end Fault

namespace BitMatrix

open Fault

variable {rows cols n : Nat}

theorem yields_reserve {α : Type} {x : Except MakeError α} {a : α} (hrows : rows ≤ n) (hcols : cols ≤ n)
    (hx : x = .ok a) : Yields n (liftM (reserve rows cols >>= fun _ => x) : Except Fault α) a := by
  unfold reserve
  split
  · exact .of_ok (hx ▸ rfl)
  · rename_i hwords
    exact .inr ⟨rows, hrows, cols, hcols, rfl, Nat.not_lt.1 hwords⟩

theorem yields_create (hrows : rows ≤ n) (hcols : cols ≤ n) :
    Yields n (liftM (create rows cols) : Except Fault BitMatrix) (ofFn rows cols fun _ _ => false) :=
  yields_reserve hrows hcols (congrArg Except.ok zero_eq_ofFn)

theorem yields_createFrom {α : Type} (default : α) (f : α → List Nat) {l : List α} (h : ∀ a ∈ l, ∀ c ∈ f a, c < cols)
    (hrows : l.length ≤ n) (hcols : cols ≤ n) : Yields n (liftM (createFrom cols (l.map f)) : Except Fault BitMatrix)
      (ofFn l.length cols fun r c => (f (l.getD r default)).contains c) := by
  unfold createFrom
  rw [List.length_map]
  refine yields_reserve hrows hcols ?_
  rw [ofSets_map default f l h]
  rfl

/-! ## Filling by computed entries -/

theorem mem_places {r c : Nat} : (r, c) ∈ places rows cols ↔ r < rows ∧ c < cols := by
  simp [places]

/-- The entry is computed without a fault, or passed over if it is not set. -/
def Answers (x : Except Fault (Option Bool)) (related : Bool) : Prop :=
  ∃ value, x = .ok value ∧ value.getD false = related

section

variable {entry : Nat → Nat → Except Fault (Option Bool)} {related : Nat → Nat → Bool}

/-- The entries that are done are those of the relation, and the others are not set yet. -/
theorem foldlM_entries (rest done : List (Nat × Nat))
    (hrest : ∀ p ∈ rest, p.1 < rows ∧ p.2 < cols ∧ Answers (entry p.1 p.2) (related p.1 p.2)) :
    rest.foldlM (fun m (r, c) => do
        match ← entry r c with
        | none => return m
        | some value => m.set r c value) (ofFn rows cols fun r c => decide ((r, c) ∈ done) && related r c) =
      (.ok (ofFn rows cols fun r c => decide ((r, c) ∈ done ++ rest) && related r c) : Except Fault BitMatrix) := by
  induction rest generalizing done with
  | nil => simp [pure, Except.pure]
  | cons p rest ih =>
    obtain ⟨hr, hc, value, hvalue, hrelated⟩ := hrest p List.mem_cons_self
    have ih := ih (done ++ [p]) fun q hq => hrest q (List.mem_cons_of_mem p hq)
    rw [List.append_assoc, List.singleton_append] at ih
    rw [List.foldlM_cons]
    dsimp only
    rw [hvalue, ok_bind]
    cases value with
    | none =>
      refine (congrArg (rest.foldlM _) (ofFn_congr fun r _ c _ => ?_)).trans ih
      by_cases hp : (r, c) = p
      · subst hp
        simp [← hrelated]
      · simp [hp]
    | some value =>
      dsimp only
      rw [set_ofFn _ hr hc]
      refine (congrArg (rest.foldlM _) (ofFn_congr fun r _ c _ => ?_)).trans ih
      by_cases hp : (r, c) = p
      · subst hp
        simpa using hrelated
      · have hne : ¬ (r = p.1 ∧ c = p.2) := fun h => hp (Prod.ext h.1 h.2)
        simp [hp, hne]

/-- A matrix is filled with the answers. -/
theorem yields_fill (hrows : rows ≤ n) (hcols : cols ≤ n)
    (h : ∀ r < rows, ∀ c < cols, Answers (entry r c) (related r c)) :
    Yields n (fill rows cols entry) (ofFn rows cols related) := by
  refine (yields_create hrows hcols).bind (.of_ok ?_)
  have hfold := foldlM_entries (places rows cols) [] fun p hp => by
    obtain ⟨hr, hc⟩ := mem_places.1 hp
    exact ⟨hr, hc, h p.1 hr p.2 hc⟩
  simp only [List.not_mem_nil, decide_false, Bool.false_and, List.nil_append] at hfold
  refine hfold.trans (congrArg Except.ok (ofFn_congr fun r hr c hc => ?_))
  rw [decide_eq_true (mem_places.2 ⟨hr, hc⟩), Bool.true_and]

end

end BitMatrix

end StateSpace
