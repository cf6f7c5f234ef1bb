/-!
# Table geometry

A table holds keys of one length. Its capacity is a power of two that starts at `2 ^ initialPow2` and doubles up to
`2 ^ maxPow2`; room for the largest capacity is reserved when the table is made. `Config.validate` rejects bad geometry
before anything is reserved.

Memory is asked for twice, for the fingerprints and for the keys, and may refuse either (`Memory`, `Config.reserve`).
The sizes are plain numbers here; `Config.make` works them out in machine words.
-/

namespace StateSpace.Table

/-- Why a table cannot be made, or cannot take another key. -/
inductive Error where
  /-- The initial capacity is not below the largest one. -/
  | invalidCapacity (initialPow2 maxPow2 : Nat)
  /-- The largest capacity is beyond what slots can be numbered for. -/
  | capacityTooLarge (maxPow2 limitPow2 : Nat)
  /-- The storage cannot be reserved. -/
  | allocationFailure (bytes align : Nat)
  /-- No room is left at the largest capacity. -/
  | full (maxPow2 load : Nat)
  deriving DecidableEq, Repr

namespace Error

def message : Error → String
  | .invalidCapacity initialPow2 maxPow2 =>
    s!"invalid table capacity: initial 2^{initialPow2} must be below max 2^{maxPow2}"
  | .capacityTooLarge maxPow2 limitPow2 => s!"table capacity 2^{maxPow2} exceeds the supported 2^{limitPow2}"
  | .allocationFailure bytes align => s!"failed to allocate {bytes} bytes aligned at {align} for the state table"
  | .full maxPow2 load =>
    s!"state table is full (max size = 2^{maxPow2}, load = {load}); increase max_capacity_pow2"

/-- Whether a larger geometry can help. -/
def isRecoverable : Error → Bool
  | .full .. => true
  | _ => false

end Error

/-- Slots in one probe window. -/
def windowSlots : Nat := 16

/-- Windows that one probe looks at. -/
def probeAttempts : Nat := 64

/-- The largest exponent of a capacity. -/
def maxPow2Limit : Nat := 30

/-- Bytes of one word of a key. -/
def wordBytes : Nat := 4

/-- Bytes of one line of fingerprints, which is one window; a line is aligned to its length. -/
def lineBytes : Nat := 64

/-- No array is as long as this, `2 ^ 63` bytes, whatever memory there is. -/
def arrayLimit : Nat := 1 <<< 63

/-- What the requests of one call for memory are told: whether so many bytes are granted at such an alignment. The next
call may be told something else. -/
structure Memory where
  grants : (bytes align : Nat) → Bool

namespace Memory

/-- Requests below `2 ^ 48` bytes are granted. -/
def ordinary : Memory := ⟨fun bytes _ => bytes < 1 <<< 48⟩

/-- Whether there is room for an array. An empty one needs none. -/
def hasRoom (memory : Memory) (bytes align : Nat) : Bool :=
  bytes = 0 || bytes < arrayLimit && memory.grants bytes align

/-- Reserves an array. -/
def reserve (memory : Memory) (bytes align : Nat) : Except Error Unit :=
  if memory.hasRoom bytes align then .ok () else .error (.allocationFailure bytes align)

end Memory

/-- The geometry of a table. -/
structure Config where
  keyLength : Nat := 1
  initialPow2 : Nat := 4
  maxPow2 : Nat := 15
  deriving DecidableEq, Repr, Inhabited

namespace Config

def initialCapacity (c : Config) : Nat := 1 <<< c.initialPow2

def maxCapacity (c : Config) : Nat := 1 <<< c.maxPow2

/-- Rejects bad geometry; an initial capacity that is not below the largest one comes first. -/
def validate (c : Config) : Except Error Unit :=
  if c.maxPow2 ≤ c.initialPow2 then .error (.invalidCapacity c.initialPow2 c.maxPow2)
  else if maxPow2Limit < c.maxPow2 then .error (.capacityTooLarge c.maxPow2 maxPow2Limit)
  else .ok ()

/-- Lines of fingerprints at the largest capacity; a table of fewer slots than a line has gets a whole one. -/
def lines (c : Config) : Nat := (c.maxCapacity + windowSlots - 1) / windowSlots

/-- Words of the keys at the largest capacity. -/
def keyWords (c : Config) : Nat := c.maxCapacity * c.keyLength

/-- Reserves the storage: the lines of fingerprints first, then the words of the keys. -/
def reserve (c : Config) (memory : Memory) : Except Error Unit := do
  memory.reserve (c.lines * lineBytes) lineBytes
  memory.reserve (c.keyWords * wordBytes) wordBytes

def text (c : Config) : String :=
  s!"TableConfig \x7b key_length: {c.keyLength}, initial_capacity_pow2: {c.initialPow2}, " ++
    s!"max_capacity_pow2: {c.maxPow2} \x7d"

end Config

end StateSpace.Table
