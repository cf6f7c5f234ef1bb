import StateSpace.Hash
import StateSpace.Fingerprint
import StateSpace.Table.Config

/-!
# State tables

A table is a set of keys of one length, kept in numbered slots by open addressing. The slots of the largest capacity
are there from the start, and only those below the current capacity, `2 ^ pow2`, are in use. `clear` empties the slots
of the initial capacity only: what later slots hold is stale, and growth empties them before they are used again
(`Table/Lookup.lean`).

The counters beside the slots are reset by `clear`. `dropped` counts keys that growth could not put back
(`Table/Lookup.lean`); the statistics do not show it.
-/

namespace StateSpace

/-- What one slot holds. -/
inductive Slot where
  | empty
  | tombstone
  | entry (tag : UInt32) (key : State)
  deriving DecidableEq, Inhabited

/-- The summary of a slot. -/
def Slot.fingerprint : Slot → Fingerprint
  | .empty => .empty
  | .tombstone => .tombstone
  | .entry tag _ => .occupied tag

structure Table where
  config : Table.Config
  /-- The current capacity is `2 ^ pow2`. -/
  pow2 : Nat
  slots : Array Slot
  /-- Occupied slots. -/
  load : Nat
  /-- Doublings since the last clear. -/
  resizes : Nat
  /-- Entries that a lookup moved forward into a tombstone. -/
  relocations : Nat
  /-- Tombstones that became usable again, by an insertion or by growth. -/
  reclaimed : Nat
  /-- Keys that growth could not put back. -/
  dropped : Nat
  deriving DecidableEq, Inhabited

namespace Table

/-- The number of slots in use. -/
def capacity (t : Table) : Nat := 1 <<< t.pow2

/-- What slot `i` holds. -/
def slot (t : Table) (i : Nat) : Slot := t.slots.getD i .empty

/-- The slots with slot `i` replaced by `f i` of it for every `i` below `n`; the other slots are not touched. -/
def updateBelow (f : Nat → Slot → Slot) : Nat → Array Slot → Array Slot
  | 0, slots => slots
  | n + 1, slots => updateBelow f n (slots.modify n (f n))

theorem size_updateBelow (f : Nat → Slot → Slot) (n : Nat) (slots : Array Slot) :
    (updateBelow f n slots).size = slots.size := by
  induction n generalizing slots with
  | zero => rfl
  | succ n ih => rw [updateBelow, ih, Array.size_modify]

theorem getElem?_updateBelow (f : Nat → Slot → Slot) (n : Nat) (slots : Array Slot) (i : Nat) :
    (updateBelow f n slots)[i]? = if i < n then slots[i]?.map (f i) else slots[i]? := by
  induction n generalizing slots with
  | zero => rfl
  | succ n ih =>
    rw [updateBelow, ih, Array.getElem?_modify]
    by_cases h : n = i
    · subst h
      simp
    · simp only [if_neg h, show i < n + 1 ↔ i < n by omega]

/-- The table without members; only the slots of the initial capacity are emptied. -/
def clear (t : Table) : Table :=
  { t with
    pow2 := t.config.initialPow2
    slots := updateBelow (fun _ _ => .empty) t.config.initialCapacity t.slots
    load := 0
    resizes := 0
    relocations := 0
    reclaimed := 0
    dropped := 0 }

/-- The table of a geometry that is known to be good. -/
def empty (config : Config) : Table :=
  { config
    pow2 := config.initialPow2
    slots := Array.replicate config.maxCapacity .empty
    load := 0
    resizes := 0
    relocations := 0
    reclaimed := 0
    dropped := 0 }

/-- Makes a table, if its geometry is good and its storage can be reserved. -/
def create (config : Config) (memory : Memory := .ordinary) : Except Error Table := do
  config.validate
  config.reserve memory
  return empty config

/-- Whether one more entry keeps the load within three quarters of the capacity. -/
def hasRoom (t : Table) : Bool := (t.load + 1) * 4 ≤ t.capacity * 3

/-- That the table is full, as an error. -/
def fullError (t : Table) : Error := .full t.config.maxPow2 t.load

/-! ## Statistics -/

/-- The counters of a table at one moment. -/
structure Stats where
  load : Nat
  capacity : Nat
  maxCapacity : Nat
  resizes : Nat
  relocations : Nat
  reclaimed : Nat
  deriving DecidableEq, Repr, Inhabited

def stats (t : Table) : Stats :=
  { load := t.load
    capacity := t.capacity
    maxCapacity := t.config.maxCapacity
    resizes := t.resizes
    relocations := t.relocations
    reclaimed := t.reclaimed }

/-- The occupied fraction of the capacity. -/
def Stats.loadFactor (s : Stats) : Float := if s.capacity = 0 then 0 else s.load.toFloat / s.capacity.toFloat

/-- A table as a reader of diagnostics sees it: its geometry and its counters. -/
structure Summary where
  config : Config
  stats : Stats
  deriving DecidableEq, Repr, Inhabited

def summary (t : Table) : Summary := ⟨t.config, t.stats⟩

/-- That a table of this summary is full, as an error. -/
def Summary.fullError (s : Summary) : Error := .full s.config.maxPow2 s.stats.load

def Summary.text (s : Summary) : String :=
  s!"StateTable \x7b key_length: {s.config.keyLength}, load: {s.stats.load}, capacity: {s.stats.capacity}, " ++
    s!"max_capacity: {s.stats.maxCapacity}, .. \x7d"

end Table

end StateSpace
