import StateSpace.Proofs.Access
import StateSpace.Table.History

/-!
# The layout of a table

A table lies in two arrays that are as long as its largest capacity from the start: the fingerprints of its slots, line
by line, and the words of its keys, of which each slot has as many as a key. Whatever is read or written of a slot is
read or written at a position of these arrays (`Layout`), and the positions of a probe are computed with the bit masks
of the capacity and of the width of a window.

Here the operations on a table are written down once more, access by access (`Config.perform`), and how a table is made
(`Config.make`), where the sizes of the arrays are worked out in machine words. Growth takes the entries out one by one,
counting each of them down from the load, and lines up their words in an array of its own; it puts them back by the same
lookup that made the table grow. The recursion has no bound.
-/

namespace StateSpace.Table

/-- The numbers that are kept beside the slots. -/
structure Counters where
  capacity : Nat
  load : Nat
  resizes : Nat
  relocations : Nat
  reclaimed : Nat

/-- A table as it is stored. -/
structure Layout extends Counters where
  fingerprints : Array Fingerprint
  words : Array Int32

/-- Entries that growth has taken out: their tags, and the words of their keys in one row. -/
structure Staging where
  tags : List UInt32 := []
  words : Array Int32 := #[]

/-! ## Storage -/

namespace Layout

variable (config : Config)

/-- A position, if there is a slot for it. -/
def index (raw : Nat) : Access Layout Nat :=
  if raw < config.maxCapacity then return raw else throw (.position raw config.maxCapacity)

def fingerprint (slot : Nat) : Access Layout Fingerprint := do
  let s ← get
  match s.fingerprints[slot]? with
  | some f => return f
  | none => throw (.position slot s.fingerprints.size)

def setFingerprint (slot : Nat) (f : Fingerprint) : Access Layout Unit := do
  let s ← get
  if slot < s.fingerprints.size then set { s with fingerprints := s.fingerprints.setIfInBounds slot f }
  else throw (.position slot s.fingerprints.size)

/-- The words of a slot. -/
def key (slot : Nat) : Access Layout State := do
  Access.range (← get).words (slot * config.keyLength) config.keyLength

/-- Copies a key to the words of a slot. -/
def setKey (slot : Nat) (key : State) : Access Layout Unit := do
  let target ← Layout.key config slot
  if key.length = target.length then
    modify fun s => { s with words := overwrite s.words (slot * config.keyLength) key }
  else throw (.lengths key.length target.length)

def write (slot : Nat) (f : Fingerprint) (key : State) : Access Layout Unit := do
  setKey config slot key
  setFingerprint slot f

/-- Copies the entry of one slot to another one. -/
def copyEntry (source target : Nat) : Access Layout Unit := do
  setKey config target (← key config source)
  setFingerprint target (← fingerprint source)

/-- Empties the slots from `start` up to `stop`. -/
def clearRange (start stop : Nat) : Access Layout Unit := do
  if stop ≤ config.maxCapacity then (List.range' start (stop - start)).forM fun slot => setFingerprint slot .empty
  else throw (.position stop config.maxCapacity)

/-- Reserves an array of so many items of a size. If there is no room for it, the error says how long it would be. -/
def reserveArray (memory : Memory) (count size align : Nat) : Access Layout (Except Error Unit) := do
  if memory.hasRoom (count * size) align then return .ok ()
  else return .error (.allocationFailure (← Access.multiply count size) align)

/-- Counts one entry down. -/
def unload : Access Layout Unit := do
  let load ← Access.subtract (← get).load 1
  modify fun s => { s with load }

end Layout

namespace Config

variable (config : Config)

/-- The storage of a new table, sixteen fingerprints to a line. -/
def allocate : Layout where
  fingerprints := Array.replicate (windowSlots * config.lines) .empty
  words := Array.replicate config.keyWords 0
  capacity := config.initialCapacity
  load := 0
  resizes := 0
  relocations := 0
  reclaimed := 0

/-- Empties the slots of the initial capacity. -/
def clear : Access Layout Unit := do
  modify fun s =>
    { s with capacity := config.initialCapacity, load := 0, resizes := 0, relocations := 0, reclaimed := 0 }
  Layout.clearRange config 0 config.initialCapacity

/-- Makes a new table in the place of what is stored. -/
def make (memory : Memory) : Access Layout (Except Error Unit) := do
  match config.validate with
  | .error e => return .error e
  | .ok () =>
    match ← Layout.reserveArray memory config.lines lineBytes lineBytes with
    | .error e => return .error e
    | .ok () =>
      let words ← Access.multiply config.maxCapacity config.keyLength
      match ← Layout.reserveArray memory words wordBytes wordBytes with
      | .error e => return .error e
      | .ok () =>
        set config.allocate
        config.clear
        return .ok ()

/-! ## Probes -/

/-- All bits of a machine word. -/
def allBits : Nat := 1 <<< 64 - 1

/-- Whether a slot with this fingerprint stores the key. -/
def holdsKey (slot : Nat) (f : Fingerprint) (key : State) (hash : UInt32) : Access Layout Bool := do
  if f.matches hash then return decide ((← Layout.key config slot) = key) else return false

/-- Walks a window that begins at slot `line`, from slot `start` on: the steps that are left, with a mask of as many low
bits as the window is wide. -/
def scan (key : State) (hash : UInt32) (start line mask : Nat) : List Nat → Option Nat → Access Layout (Option Probe)
  | [], _ => return none
  | step :: rest, tombstone => do
    let slot ← Layout.index config (line + ((start + step) &&& mask))
    let f ← Layout.fingerprint slot
    if f.isTombstone then scan key hash start line mask rest (tombstone <|> some slot)
    else if f.isEmpty then return some (.vacant (tombstone.getD slot) tombstone.isSome)
    else if ← config.holdsKey slot f key hash then return some (.hit slot tombstone)
    else scan key hash start line mask rest tombstone

/-- Walks `left` more windows of the given width, the first of them that of `next`. -/
def probeFrom (key : State) (hash : UInt32) (width slots mask : Nat) : Nat → UInt32 → UInt32 → Access Layout Probe
  | 0, _, _ => return .exhausted
  | left + 1, attempt, next => do
    let start := next.toNat &&& slots
    let line := start &&& (allBits ^^^ mask)
    match ← config.scan key hash start line mask (List.range width) none with
    | some found => return found
    | none => probeFrom key hash width slots mask left (attempt + 1) (Hash.rehash key next attempt)

def probe (key : State) (hash : UInt32) : Access Layout Probe := do
  let s ← get
  let width := min windowSlots s.capacity
  let slots ← Access.subtract s.capacity 1
  let mask ← Access.subtract width 1
  config.probeFrom key hash width slots mask probeAttempts 0 (Fingerprint.ofHash hash).tag

/-! ## Lookup and growth -/

/-- Stores a key in a slot that is not occupied. -/
def occupy (slot : Nat) (key : State) (hash : UInt32) : Access Layout Unit := do
  Layout.write config slot (.ofHash hash) key
  modify fun s => { s with load := s.load + 1 }

/-- Looks a key up at the present capacity; `none` if there is no room. -/
def attempt (key : State) (hash : UInt32) : Access Layout (Option Lookup) := do
  match ← config.probe key hash with
  | .hit slot (some tombstone) =>
    Layout.copyEntry config slot tombstone
    Layout.setFingerprint slot .tombstone
    modify fun s => { s with relocations := s.relocations + 1 }
    return some .found
  | .hit _ none => return some .found
  | .vacant slot onTombstone =>
    let s ← get
    if (s.load + 1) * 4 ≤ s.capacity * 3 then
      modify fun s => { s with reclaimed := s.reclaimed + onTombstone.toNat }
      config.occupy slot key hash
      return some .inserted
    else return none
  | .exhausted => return none

/-- Looks at one slot before the capacity is doubled, with the mask of the doubled capacity: an entry that is not at
home is taken out. -/
def stage (mask : Nat) (staging : Staging) (raw : Nat) : Access Layout Staging := do
  let slot ← Layout.index config raw
  let f ← Layout.fingerprint slot
  if f.isEmpty then return staging
  else if f.isTombstone then
    Layout.setFingerprint slot .empty
    modify fun s => { s with reclaimed := s.reclaimed + 1 }
    return staging
  else if f.tag.toNat &&& mask = raw then return staging
  else
    let key ← Layout.key config slot
    Layout.setFingerprint slot .empty
    Layout.unload
    return ⟨staging.tags ++ [f.tag], staging.words ++ key⟩

/-- Doubles the capacity; what has to be put back is returned. -/
def double (old : Nat) : Access Layout Staging := do
  modify fun s => { s with capacity := old <<< 1 }
  let mask ← Access.subtract (old <<< 1) 1
  let staging ← (List.range old).foldlM (config.stage mask) {}
  Layout.clearRange config old (old <<< 1)
  return staging

/-- The key of number `k` among those that were taken out. -/
def stagedKey (staging : Staging) (k : Nat) : Access Layout State :=
  Access.range staging.words (k * config.keyLength) config.keyLength

mutual

def lookup (config : Config) (key : State) (hash : UInt32) : Access Layout Lookup := do
  match ← config.attempt key hash with
  | some answer => return answer
  | none => if ← config |>.resize then config |>.lookup key hash else return .full
partial_fixpoint

def resize (config : Config) : Access Layout Bool := do
  let old := (← get).capacity
  if config.maxCapacity ≤ old then return false
  let staging ← config.double old
  staging.tags.zipIdx.forM fun entry => do
    let key ← config.stagedKey staging entry.2
    config |>.putBack key entry.1
  modify fun s => { s with resizes := s.resizes + 1 }
  return true
partial_fixpoint

def putBack (config : Config) (key : State) (tag : UInt32) : Access Layout Unit := do
  match ← config.probe key tag with
  | .vacant slot _ => config.occupy slot key tag
  | _ =>
    let _ ← config |>.lookup key tag
    return ()
partial_fixpoint

end

/-! ## Operations -/

def checkKey (key : State) : Access Layout Unit := do
  if key.length ≠ config.keyLength then throw (.wrongLength ⟨key.length, config.keyLength⟩)

def lookupOrInsert (key : State) : Access Layout Lookup := do
  config.checkKey key
  config.lookup key (Hash.ofState key 0)

def contains (key : State) : Access Layout Bool := do
  config.checkKey key
  match ← config.probe key (Hash.ofState key 0) with
  | .hit .. => return true
  | _ => return false

def remove (key : State) : Access Layout Bool := do
  config.checkKey key
  match ← config.probe key (Hash.ofState key 0) with
  | .hit slot _ =>
    Layout.setFingerprint slot .tombstone
    Layout.unload
    return true
  | _ => return false

def perform : Op → Access Layout Answer
  | .insert key => return .lookup (← config.lookupOrInsert key)
  | .contains key => return .bool (← config.contains key)
  | .remove key => return .bool (← config.remove key)
  | .resize => return .bool (← config.resize)
  | .clear => do
    config.clear
    return .unit

end Config

end StateSpace.Table
