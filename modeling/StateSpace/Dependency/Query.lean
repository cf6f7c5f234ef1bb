import StateSpace.Dependency.Matrices

/-!
# Queries

Each relation is named by a character (`MatrixKind.ofChar?`) and can be read in both directions (`View`): by rows, or
inverted, by columns. The image of an index is the list of indices that it is related to, ascending. Views compose by
feeding the image under one into the next (`View.imageOfSet`).
-/

namespace StateSpace

/-- What an index ranges over. -/
inductive Dimension where
  | transitions
  | guards
  | slots
  deriving DecidableEq, Repr

def Dimension.text : Dimension → String
  | .transitions => "transitions"
  | .guards => "guards"
  | .slots => "slots"

inductive MatrixKind where
  | guardsOf
  | read
  | write
  | actionsRead
  | guardTests
  | coenabled
  | mustDisable
  | nes
  | nds
  | commutes
  | dnaRaw
  | dna
  | dnb
  deriving DecidableEq, Repr

namespace MatrixKind

/-- Every kind, in the order of listings. -/
def all : List MatrixKind :=
  [.guardsOf, .commutes, .dnaRaw, .dna, .dnb, .nes, .nds, .mustDisable, .coenabled, .guardTests, .actionsRead, .read,
    .write]

/-- The character that names a kind. -/
def char : MatrixKind → Char
  | .guardsOf => 'g'
  | .read => 'R'
  | .write => 'w'
  | .actionsRead => 'r'
  | .guardTests => 't'
  | .coenabled => 'c'
  | .mustDisable => 'm'
  | .nes => 'e'
  | .nds => 'd'
  | .commutes => 'u'
  | .dnaRaw => 'a'
  | .dna => 'A'
  | .dnb => 'b'

def ofChar? (c : Char) : Option MatrixKind := all.find? (·.char = c)

theorem ofChar?_char (k : MatrixKind) : ofChar? k.char = some k := by cases k <;> rfl

/-- The name of a kind. -/
def name : MatrixKind → String
  | .guardsOf => "GuardsOf"
  | .read => "Read"
  | .write => "Write"
  | .actionsRead => "ActionsRead"
  | .guardTests => "GuardTests"
  | .coenabled => "Coenabled"
  | .mustDisable => "MustDisable"
  | .nes => "Nes"
  | .nds => "Nds"
  | .commutes => "Commutes"
  | .dnaRaw => "DnaRaw"
  | .dna => "Dna"
  | .dnb => "Dnb"

/-- The short name of a relation and what it means. -/
def description : MatrixKind → String
  | .guardsOf => "G_T (transition guard function)"
  | .read => "T2R (transition read set)"
  | .write => "T2W (transition write set)"
  | .actionsRead => "A2R (actions read set)"
  | .guardTests => "GDM (guard-slot test set)"
  | .coenabled => "MCE (guard^2 may-be coenabled)"
  | .mustDisable => "MDS (guard-trans must disable set)"
  | .nes => "NES (guard-trans necessary enabling set)"
  | .nds => "NDS (guard-trans necessary disabling set)"
  | .commutes => "COM (transition^2 commutes)"
  | .dnaRaw => "DNA (transition^2 do-not-accord)"
  | .dna => "DNA- (transition^2 do-not-accord, refined)"
  | .dnb => "DNB (transition^2 not-left-accord)"

/-- What the rows and the columns range over. -/
def dimensions : MatrixKind → Dimension × Dimension
  | .guardsOf => (.transitions, .guards)
  | .read | .write | .actionsRead => (.transitions, .slots)
  | .guardTests => (.guards, .slots)
  | .coenabled => (.guards, .guards)
  | .mustDisable | .nes | .nds => (.guards, .transitions)
  | .commutes | .dnaRaw | .dna | .dnb => (.transitions, .transitions)

end MatrixKind

/-- The matrix of a kind. -/
def DependencyMatrices.matrix (m : DependencyMatrices) : MatrixKind → BitMatrix
  | .guardsOf => m.guardsOf
  | .read => m.read
  | .write => m.mayWrite
  | .actionsRead => m.actionsRead
  | .guardTests => m.tests
  | .coenabled => m.coenabled
  | .mustDisable => m.mustDisable
  | .nes => m.nes
  | .nds => m.nds
  | .commutes => m.commutes
  | .dnaRaw => m.dnaRaw
  | .dna => m.dna
  | .dnb => m.dnb

/-- One matrix, read by rows or, inverted, by columns. -/
structure View where
  kind : MatrixKind
  matrix : BitMatrix
  inverted : Bool
  deriving DecidableEq

/-- The view of the matrix that a character names. -/
def DependencyMatrices.view? (m : DependencyMatrices) (c : Char) (inverted : Bool) : Option View :=
  (MatrixKind.ofChar? c).map fun kind => ⟨kind, m.matrix kind, inverted⟩

namespace View

/-- The number of indices that have an image. -/
def inDim (v : View) : Nat := if v.inverted then v.matrix.cols else v.matrix.rows

/-- The number of indices that images are made of. -/
def outDim (v : View) : Nat := if v.inverted then v.matrix.rows else v.matrix.cols

/-- What the two sides range over. -/
def dimensions (v : View) : Dimension × Dimension := if v.inverted then v.kind.dimensions.swap else v.kind.dimensions

/-- The indices that `i` is related to; `none` if there is no such `i`. -/
def image (v : View) (i : Nat) : Option (List Nat) :=
  if i < v.inDim then some (if v.inverted then v.matrix.colList i else v.matrix.rowList i) else none

/-- The indices that some index of the list is related to, ascending. Indices without an image are skipped. -/
def imageOfSet (v : View) (indices : List Nat) : List Nat :=
  let images := indices.filterMap v.image
  (List.range v.outDim).filter fun j => images.any (·.contains j)

/-- Whether `i` is related to `j`. -/
def relates (v : View) (i j : Nat) : Bool :=
  i < v.inDim && j < v.outDim && (if v.inverted then v.matrix.entry j i else v.matrix.entry i j)

/-- The images of a set under one view after another, from the first image on. -/
def chain : List View → List Nat → List (List Nat)
  | [], _ => []
  | v :: rest, indices =>
    let image := v.imageOfSet indices
    image :: chain rest image

def text (v : View) : String := "matrix" ++ (if v.inverted then "-1" else "") ++ s!"({v.kind.char})"

end View

end StateSpace
