import StateSpace.Bits

/-!
# Bit matrices

A relation between two index ranges. A row is packed into words of 64 bits, where column `c` is bit `c % 64` of word
`c / 64`, and the words of all rows stand one after another. The last word of a row can have bits from `cols` on, which
are never set (`BitMatrix.Packed`). A matrix without columns has no words, so it can have as many rows as can be
counted.

Reading and writing outside the matrix fail with the position (`OutOfRange`).
-/

namespace StateSpace

/-- A position that a matrix does not have. -/
inductive OutOfRange where
  | entry (row col rows cols : Nat)
  | row (row rows : Nat)
  | column (col cols : Nat)
  deriving DecidableEq, Repr

def OutOfRange.message : OutOfRange → String
  | .entry r c rows cols => s!"({r}, {c}) out of range ({rows} x {cols})"
  | .row r rows => s!"row {r} out of range ({rows})"
  | .column c cols => s!"column {c} out of range ({cols})"

namespace BitMatrix

/-- Words that a row takes. -/
def stride (cols : Nat) : Nat := (cols + 63) / 64

/-- No bit is set from column `cols` on. -/
def Packed (cols : Nat) (bits : Array UInt64) : Prop :=
  ∀ k, ∀ i < 64, cols ≤ 64 * (k % stride cols) + i → Bits.test (bits.getD k 0) i = false

end BitMatrix

structure BitMatrix where
  rows : Nat
  cols : Nat
  /-- The words of the rows, one row after another. -/
  bits : Array UInt64
  size_eq : bits.size = rows * BitMatrix.stride cols
  packed : BitMatrix.Packed cols bits
  deriving DecidableEq

namespace BitMatrix

/-- Why a matrix cannot be made. -/
inductive MakeError where
  /-- It has more words than can be addressed. -/
  | storage (rows cols : Nat)
  /-- A column of its rows does not exist. -/
  | outOfRange (position : OutOfRange)
  deriving DecidableEq, Repr

/-- Why two rows cannot be compared. -/
inductive OverlapError where
  /-- The matrices differ in their columns. -/
  | columns (cols cols' : Nat)
  /-- The row has no words to read. -/
  | words (row rows : Nat)
  deriving DecidableEq, Repr

/-! ## Making matrices -/

/-- Word `w` of row `r` of a relation: its bits are the columns from `64 * w` on, as far as there are any. -/
def wordOf (cols : Nat) (related : Nat → Nat → Bool) (r w : Nat) : UInt64 :=
  Bits.pack (fun i => related r (64 * w + i)) (min 64 (cols - 64 * w))

theorem test_wordOf (cols : Nat) (related : Nat → Nat → Bool) (r w : Nat) {i : Nat} (hi : i < 64) :
    Bits.test (wordOf cols related r w) i = (decide (64 * w + i < cols) && related r (64 * w + i)) := by
  have hcols : i < min 64 (cols - 64 * w) ↔ 64 * w + i < cols := by omega
  rw [wordOf, Bits.test_pack _ (Nat.min_le_left 64 _) hi, decide_eq_decide.2 hcols]

/-- The words of a relation. -/
def wordsOf (rows cols : Nat) (related : Nat → Nat → Bool) : Array UInt64 :=
  Array.ofFn fun k : Fin (rows * stride cols) => wordOf cols related (k / stride cols) (k % stride cols)

theorem packed_wordsOf (rows cols : Nat) (related : Nat → Nat → Bool) : Packed cols (wordsOf rows cols related) := by
  intro k i hi hcols
  rw [wordsOf, Array.getD_eq_getD_getElem?, Array.getElem?_ofFn]
  split
  · rw [Option.getD_some, test_wordOf _ _ _ _ hi, decide_eq_false (Nat.not_lt.2 hcols), Bool.false_and]
  · exact Bits.test_zero i

/-- The matrix of a relation. -/
def ofFn (rows cols : Nat) (related : Nat → Nat → Bool) : BitMatrix :=
  ⟨rows, cols, wordsOf rows cols related, Array.size_ofFn, packed_wordsOf rows cols related⟩

theorem packed_replicate (cols n : Nat) : Packed cols (Array.replicate n 0) := by
  intro k i hi hcols
  rw [Array.getD_eq_getD_getElem?, Array.getElem?_replicate]
  split <;> exact Bits.test_zero i

/-- The matrix without relations. -/
def zero (rows cols : Nat) : BitMatrix :=
  ⟨rows, cols, Array.replicate (rows * stride cols) 0, Array.size_replicate, packed_replicate cols _⟩

/-! ## Entries -/

/-- Word `w` of row `r`. -/
def word (m : BitMatrix) (r w : Nat) : UInt64 := m.bits.getD (r * stride m.cols + w) 0

/-- Whether row `r` is related to column `c`; nothing outside the matrix is. -/
def entry (m : BitMatrix) (r c : Nat) : Bool :=
  decide (r < m.rows ∧ c < m.cols) && Bits.test (m.word r (c / 64)) (c % 64)

/-- The matrix has row `r` and column `c`. -/
def checkEntry (m : BitMatrix) (r c : Nat) : Except OutOfRange (PLift (r < m.rows ∧ c < m.cols)) :=
  if h : r < m.rows ∧ c < m.cols then .ok ⟨h⟩ else .error (.entry r c m.rows m.cols)

def get (m : BitMatrix) (r c : Nat) : Except OutOfRange Bool := do
  let _ ← m.checkEntry r c
  return m.entry r c

/-- Words of a row stand one after another. -/
theorem add_mod_stride {cols r w : Nat} (hw : w < stride cols) : (r * stride cols + w) % stride cols = w := by
  rw [Nat.mul_comm, Nat.mul_add_mod, Nat.mod_eq_of_lt hw]

theorem div_lt_stride {cols c : Nat} (hc : c < cols) : c / 64 < stride cols := by
  unfold stride
  omega

/-- A bit of a column is none beyond the last. -/
theorem packed_modify {m : BitMatrix} {r c : Nat} (hc : c < m.cols) (value : Bool) :
    Packed m.cols (m.bits.modify (r * stride m.cols + c / 64) (Bits.put · (c % 64) value)) := by
  intro k i hi hcols
  have hclear := m.packed k i hi hcols
  rw [Array.getD_eq_getD_getElem?] at hclear ⊢
  rw [Array.getElem?_modify]
  split
  · rename_i hk
    rw [← hk, add_mod_stride (div_lt_stride hc)] at hcols
    have hne : i ≠ c % 64 := by omega
    cases hword : m.bits[k]? with
    | none => exact Bits.test_zero i
    | some word =>
      rw [hword, Option.getD_some] at hclear
      rw [Option.map_some, Option.getD_some, Bits.test_put (Nat.mod_lt c (by decide)) hi, if_neg hne, hclear]
  · exact hclear

/-- Writes an entry. -/
def put (m : BitMatrix) (r : Nat) {c : Nat} (hc : c < m.cols) (value : Bool) : BitMatrix where
  rows := m.rows
  cols := m.cols
  bits := m.bits.modify (r * stride m.cols + c / 64) (Bits.put · (c % 64) value)
  size_eq := Array.size_modify.trans m.size_eq
  packed := packed_modify hc value

def set (m : BitMatrix) (r c : Nat) (value : Bool) : Except OutOfRange BitMatrix := do
  let ⟨h⟩ ← m.checkEntry r c
  return m.put r h.2 value

/-! ## Sets of columns -/

/-- Sets the columns of a list in a row. -/
def setAll (m : BitMatrix) (r : Nat) (columns : List Nat) : Except OutOfRange BitMatrix :=
  columns.foldlM (fun m c => m.set r c true) m

/-- The matrix whose rows are the given sets of columns. -/
def ofSets (cols : Nat) (sets : List (List Nat)) : Except OutOfRange BitMatrix :=
  sets.zipIdx.foldlM (fun m (set, r) => m.setAll r set) (zero sets.length cols)

/-- Words that a matrix of this shape takes. -/
def words (rows cols : Nat) : Nat := rows * stride cols

/-- Fails if the bytes of the words cannot be addressed by a signed number of 64 bits. -/
def reserve (rows cols : Nat) : Except MakeError Unit :=
  if words rows cols < 1 <<< 60 then .ok () else .error (.storage rows cols)

/-- Makes a matrix without relations, if its words can be addressed. -/
def create (rows cols : Nat) : Except MakeError BitMatrix := do
  reserve rows cols
  return zero rows cols

/-- Makes the matrix whose rows are the given sets of columns, if its words can be addressed. -/
def createFrom (cols : Nat) (sets : List (List Nat)) : Except MakeError BitMatrix := do
  reserve sets.length cols
  (ofSets cols sets).mapError .outOfRange

/-! ## Rows and columns -/

/-- The columns that row `r` is related to, word by word. -/
def rowList (m : BitMatrix) (r : Nat) : List Nat :=
  (List.range (stride m.cols)).flatMap fun w => (Bits.positions (m.word r w)).map (64 * w + ·)

/-- The rows that are related to column `c`, ascending. -/
def colList (m : BitMatrix) (c : Nat) : List Nat := (List.range m.rows).filter (m.entry · c)

def row (m : BitMatrix) (r : Nat) : Except OutOfRange (List Nat) :=
  if r < m.rows then .ok (m.rowList r) else .error (.row r m.rows)

def col (m : BitMatrix) (c : Nat) : Except OutOfRange (List Nat) :=
  if c < m.cols then .ok (m.colList c) else .error (.column c m.cols)

/-- Whether row `i` of `m` and row `j` of `m'` have a column in common. -/
def meets (m : BitMatrix) (i : Nat) (m' : BitMatrix) (j : Nat) : Bool :=
  (List.range (stride m.cols)).any fun w => m.word i w &&& m'.word j w != 0

/-- The row has words to read: it is one of the matrix, or the matrix has no columns and the row has a successor among
the 64-bit numbers. -/
def checkWords (m : BitMatrix) (r : Nat) : Except OverlapError Unit :=
  if r < m.rows ∨ (m.cols = 0 ∧ r + 1 < UInt64.size) then .ok () else .error (.words r m.rows)

/-- Whether row `i` of `m` and row `j` of `m'`, a matrix of as many columns, overlap. -/
def overlap (m : BitMatrix) (i : Nat) (m' : BitMatrix) (j : Nat) : Except OverlapError Bool := do
  if m.cols ≠ m'.cols then throw (.columns m.cols m'.cols)
  m.checkWords i
  m'.checkWords j
  return m.meets i m' j

/-- The number of related pairs. -/
def count (m : BitMatrix) : Nat := m.bits.foldl (fun n word => n + Bits.count word) 0

/-! ## Text -/

/-- A row as plus and minus signs. -/
def rowText (m : BitMatrix) (r : Nat) : String :=
  String.ofList ((List.range m.cols).map fun c => if m.entry r c then '+' else '-') ++ "\n"

/-- The dimensions on one line, then each row on its own. -/
def text (m : BitMatrix) : String :=
  s!"DependencyMatrix({m.rows} x {m.cols})\n" ++ String.join ((List.range m.rows).map m.rowText)

end BitMatrix

end StateSpace
