import StateSpace.Dependency.Query
import StateSpace.Dependency.Listing

/-!
# Dependency reports

The answer to a question about an input: the listing, if it is asked for or nothing else is, and the rows of one matrix,
or a single one of them, under a heading.
-/

namespace StateSpace

/-- What is asked about an input. -/
structure DependencyQuestion where
  listing : Bool := false
  /-- The character that names a matrix. -/
  matrix : Option Char := none
  invert : Bool := false
  /-- The only row that is wanted. -/
  index : Option Nat := none
  deriving DecidableEq, Repr, Inhabited

inductive DependencyFailure where
  /-- There are no matrices for the input. -/
  | input (error : BuildError)
  | unknownMatrix (char : Char)
  | indexOutOfRange (index : Nat) (dimension : Dimension) (entries : Nat)
  deriving DecidableEq, Repr

/-- What went wrong and why, the reason last. -/
def DependencyFailure.chain : DependencyFailure → List String
  | .input e => ["malformed dependency input", e.message]
  | .unknownMatrix c =>
    let known := String.ofList (MatrixKind.all.map (·.char))
    [s!"unknown matrix '{c}', expected one of {known}"]
  | .indexOutOfRange i d n => [s!"index {i} out of range, {d.text} has {n} entries"]

namespace View

/-- The line above the rows of a view. -/
def heading (v : View) : String :=
  let (source, target) := v.dimensions
  s!"{v.text}: {v.kind.description} ({source.text} -> {target.text})\n"

/-- The line of index `i`. -/
def rowLine (v : View) (i : Nat) : String :=
  let image := (v.image i).getD []
  s!"{i}: " ++ ", ".intercalate (image.map toString) ++ "\n"

/-- The rows that are wanted. -/
def rowsFor (v : View) : Option Nat → Except DependencyFailure (List Nat)
  | none => .ok (List.range v.inDim)
  | some i => if i < v.inDim then .ok [i] else .error (.indexOutOfRange i v.dimensions.1 v.inDim)

end View

namespace DependencyInput

/-- The listing, if it is asked for or no matrix is. -/
def listingFor (input : DependencyInput) (q : DependencyQuestion) : String :=
  if q.listing || q.matrix.isNone then input.listing else ""

/-- Answers a question about an input. -/
def report (input : DependencyInput) (q : DependencyQuestion) : Except DependencyFailure String := do
  let matrices ← (DependencyMatrices.build input).mapError .input
  let listing := input.listingFor q
  match q.matrix with
  | none => return listing
  | some c =>
    match matrices.view? c q.invert with
    | none => throw (.unknownMatrix c)
    | some v =>
      let rows ← v.rowsFor q.index
      return listing ++ v.heading ++ String.join (rows.map v.rowLine)

end DependencyInput

end StateSpace
