import StateSpace.Table.Lookup

/-!
# Histories

The operations on a table as values (`Op`), their answers, and what a list of them does (`run`). An operation on a key
of another length fails and changes nothing.
-/

namespace StateSpace.Table

/-- One operation. -/
inductive Op where
  | insert (key : State)
  | contains (key : State)
  | remove (key : State)
  | resize
  | clear
  deriving DecidableEq

/-- What an operation answers. -/
inductive Answer where
  | lookup (result : Lookup)
  | bool (result : Bool)
  | unit
  deriving DecidableEq, Repr

/-- The key of an operation that has one. -/
def Op.key? : Op → Option State
  | .insert key | .contains key | .remove key => some key
  | .resize | .clear => none

/-- The key of an operation has the right length. -/
def check (t : Table) (op : Op) : Except WrongLength Unit :=
  match op.key? with
  | some key => t.checkLength key
  | none => .ok ()

/-- Performs an operation whose key has the right length. -/
def act (t : Table) : Op → Answer × Table
  | .insert key =>
    let (answer, t) := t.lookupKey key
    (.lookup answer, t)
  | .contains key => (.bool (t.hasKey key), t)
  | .remove key =>
    let (answer, t) := t.removeKey key
    (.bool answer, t)
  | .resize =>
    let (grown, t) := t.resize
    (.bool grown, t)
  | .clear => (.unit, t.clear)

/-- Performs one operation. -/
def apply (t : Table) (op : Op) : Except WrongLength Answer × Table :=
  match t.check op with
  | .error wrong => (.error wrong, t)
  | .ok () =>
    let (answer, t) := t.act op
    (.ok answer, t)

/-- Performs operations in order, up to the first that fails; the table is then that of the operations before it. -/
def run (t : Table) : List Op → Except WrongLength (List Answer) × Table
  | [] => (.ok [], t)
  | op :: rest =>
    match t.apply op with
    | (.error wrong, t) => (.error wrong, t)
    | (.ok answer, t) =>
      let (answers, t) := t.run rest
      (answers.map (answer :: ·), t)

/-! ## Series of keys -/

/-- The operations on one key that a series repeats. -/
inductive KeyOp where
  | insert
  | contains
  | remove
  deriving DecidableEq, Repr

def KeyOp.on : KeyOp → State → Op
  | .insert, key => .insert key
  | .contains, key => .contains key
  | .remove, key => .remove key

/-- A series of `count` keys: word `j` of the key of number `i` is `base + step * i` for the `j`-th pair, and numbers
count up from `start`. All arithmetic is that of words. -/
structure Series where
  start : Int32
  count : Nat
  pattern : List (Int32 × Int32)
  deriving DecidableEq

/-- The key of number `i`. -/
def Series.key (s : Series) (i : Int32) : State := s.pattern.map fun (base, step) => base + step * i

/-- The keys of a series, in order. -/
def Series.keys (s : Series) : List State := (List.range s.count).map fun k => s.key (s.start + Int32.ofNat k)

/-! ## Commands -/

/-- What a user of a table asks for. -/
inductive Command where
  | op (op : Op)
  | series (op : KeyOp) (keys : Series)
  | summary
  deriving DecidableEq

/-- What a command answers. -/
inductive Reply where
  | answer (answer : Answer)
  | answers (answers : Array Answer)
  | summary (summary : Summary)
  | wrongLength (wrong : WrongLength)
  deriving DecidableEq, Repr

/-- Performs an operation on all keys of a series, which have the right length. -/
def actOn (t : Table) (op : KeyOp) (s : Series) : Array Answer × Table :=
  s.keys.foldl (fun (answers, t) key =>
    let (answer, t) := t.act (op.on key)
    (answers.push answer, t)) (#[], t)

/-- Whether a series has a key of another length than the table's. All its keys have the same length. -/
def Series.wrongLength? (s : Series) (t : Table) : Option WrongLength :=
  if s.count = 0 ∨ s.pattern.length = t.config.keyLength then none
  else some ⟨s.pattern.length, t.config.keyLength⟩

/-- Performs a command. A key of another length leaves the table as it is, and a series of such keys fails at the first
of them. -/
def perform (t : Table) : Command → Reply × Table
  | .op op =>
    match t.apply op with
    | (.ok answer, t) => (.answer answer, t)
    | (.error wrong, t) => (.wrongLength wrong, t)
  | .series op keys =>
    match keys.wrongLength? t with
    | some wrong => (.wrongLength wrong, t)
    | none =>
      let (answers, t) := t.actOn op keys
      (.answers answers, t)
  | .summary => (.summary t.summary, t)

end StateSpace.Table
