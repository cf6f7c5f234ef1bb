import StateSpace.Table.Lookup
import StateSpace.Text

/-!
# Self-test of a table

Different keys are inserted into a new table, as many as its load bound allows or fewer, and looked up again in further
rounds. Then one more key must be refused if the table is at its bound, and stored otherwise. Key `i` has the number `i`
in every word.

The test is written for any way to look a key up (`runWith`); `run` is the test of the table itself.
-/

namespace StateSpace

/-- How many keys a table of this geometry can hold. -/
def Table.Config.loadBound (c : Table.Config) : Nat := 3 * c.maxCapacity / 4

namespace SelfTest

inductive Failure where
  /-- The table cannot be made. -/
  | geometry (error : Table.Error)
  | tooManyKeys (keys bound maxPow2 : Nat)
  /-- The number of a key is no word. -/
  | keyIndex (index : Nat)
  /-- A lookup in a round did not answer as it must. -/
  | unexpected (round index : Nat) (got : Lookup) (load capacity : Nat)
  /-- The lookup of the last key did not answer as it must. -/
  | lastKey (index : Nat) (expected got : Lookup)
  /-- A key does not have the length of the table's keys. -/
  | wrongLength (wrong : WrongLength)
  deriving DecidableEq, Repr

/-- What went wrong and why, the reason last. -/
def Failure.chain : Failure → List String
  | .geometry e => ["invalid table geometry", e.message]
  | .tooManyKeys keys bound maxPow2 => [s!"{keys} keys exceed the load bound of {bound} at 2^{maxPow2}"]
  | .keyIndex i =>
    [s!"key index {i} does not fit a state slot", "out of range integral type conversion attempted"]
  | .unexpected round i got load capacity =>
    [s!"round {round}, key {i}: unexpected {got.text} (load {load}, capacity {capacity})"]
  | .lastKey i expected got => [s!"key {i}: expected {expected.text}, got {got.text}"]
  | .wrongLength w => [w.message]

/-- The counters at the end of a test that passed. -/
structure Summary where
  keys : Nat
  rounds : Nat
  stats : Table.Stats
  deriving DecidableEq, Repr

def Summary.text (s : Summary) : String :=
  s!"keys {s.keys} x {s.rounds} rounds: load {s.stats.load} / capacity {s.stats.capacity} " ++
    s!"(max {s.stats.maxCapacity}), {s.stats.resizes} resizes, " ++
    s!"load factor {Text.thousandths s.stats.load s.stats.capacity}"

/-- The key of number `i`. -/
def key (config : Table.Config) (i : Nat) : Except Failure State :=
  if i < 0x80000000 then .ok (List.replicate config.keyLength (Int32.ofNat i)) else .error (.keyIndex i)

/-- Looks up the key of number `i`. -/
def look (t : Table) (i : Nat) : Except Failure (Lookup × Table) := do
  let key ← key t.config i
  (t.lookupOrInsert key).mapError .wrongLength

/-- What looking up a key of the set must answer: it is new in round 0 only. -/
def expectedIn (round : Nat) : Lookup := if round = 0 then .inserted else .found

section

variable {m : Type → Type} [Monad m] [MonadExceptOf Failure m] (look : Table → Nat → m (Lookup × Table))

/-- Looks up one key of the set in a round. -/
@[specialize]
def roundStep (round : Nat) (t : Table) (i : Nat) : m Table := do
  let (got, t) ← look t i
  if got = expectedIn round then return t else throw (.unexpected round i got t.load t.capacity)

/-- Looks up all keys of the set once. -/
@[specialize]
def runRound (keys : Nat) (t : Table) (round : Nat) : m Table :=
  (List.range keys).foldlM (roundStep look round) t

/-- Looks up all keys of the set in `left` more rounds, the first of them of the given number. -/
@[specialize]
def runRounds (keys : Nat) : Nat → Nat → Table → m Table
  | 0, _, t => return t
  | left + 1, round, t => do
    let t ← runRound look keys t round
    runRounds keys left (round + 1) t

/-- The test with this way to look a key up, of the given number of keys or as many as the bound allows. -/
@[specialize]
def runWith (config : Table.Config) (keys : Option Nat) (rounds : Nat) (memory : Table.Memory) : m Summary := do
  let t ← MonadExcept.ofExcept ((Table.create config memory).mapError .geometry)
  let bound := config.loadBound
  let keys := keys.getD bound
  if bound < keys then throw (.tooManyKeys keys bound config.maxPow2)
  let t ← runRounds look keys rounds 0 t
  let expected : Lookup := if 0 < rounds ∧ keys = bound then .full else .inserted
  let (got, t) ← look t keys
  if got = expected then return ⟨keys, rounds, t.stats⟩ else throw (.lastKey keys expected got)

end

/-- Runs the test of a table. -/
def run (config : Table.Config) (keys : Option Nat) (rounds : Nat) (memory : Table.Memory := .ordinary) :
    Except Failure Summary :=
  runWith look config keys rounds memory

end SelfTest

end StateSpace
