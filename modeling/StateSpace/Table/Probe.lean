import StateSpace.Table.Basic

/-!
# Probing

A key is looked for in up to 64 windows of 16 slots (of all slots, if the capacity is smaller). The first window is the
one of the tag of the key's hash, and each later one that of the hash that follows (`Hash.rehash`). A window is walked
from the slot of its hash to its end and then from its beginning (`window`).

The walk ends at the key, or at the first empty slot: no key is stored behind an empty slot of its own walk. The first
tombstone of the same window is remembered, since the key is better placed there.

Only the tag of the hash is used, so an entry can be moved by its stored tag.
-/

namespace StateSpace.Table

/-- Where a key is, or where it belongs. -/
inductive Probe where
  /-- The key is in this slot; `tombstone` is an earlier tombstone of the same window. -/
  | hit (slot : Nat) (tombstone : Option Nat)
  /-- The key is in no slot, and belongs in this one, which holds a tombstone or nothing. -/
  | vacant (slot : Nat) (onTombstone : Bool)
  /-- Neither the key nor an empty slot is in any window. -/
  | exhausted
  deriving DecidableEq, Repr

/-- The slots of the window of a hash, in the order of the walk. -/
def window (capacity : Nat) (hash : UInt32) : List Nat :=
  let width := min windowSlots capacity
  let start := hash.toNat % capacity
  let first := start - start % width
  (List.range width).map fun step => first + (start + step) % width

/-- Walks the given slots; `none` if they hold neither the key nor an empty slot. -/
def scan (t : Table) (key : State) (tag : UInt32) : List Nat → Option Nat → Option Probe
  | [], _ => none
  | i :: rest, tombstone =>
    match t.slot i with
    | .tombstone => t.scan key tag rest (tombstone <|> some i)
    | .empty => some (.vacant (tombstone.getD i) tombstone.isSome)
    | .entry tag' key' => if tag' = tag ∧ key' = key then some (.hit i tombstone) else t.scan key tag rest tombstone

/-- Walks `left` more windows, the first of them that of `hash`, at the given attempt. -/
def probeFrom (t : Table) (key : State) (tag : UInt32) : Nat → UInt32 → UInt32 → Probe
  | 0, _, _ => .exhausted
  | left + 1, attempt, hash =>
    match t.scan key tag (window t.capacity hash) none with
    | some found => found
    | none => t.probeFrom key tag left (attempt + 1) (Hash.rehash key hash attempt)

/-- Looks for a key whose hash is `hash`. -/
def probe (t : Table) (key : State) (hash : UInt32) : Probe :=
  t.probeFrom key (Fingerprint.tagOf hash) probeAttempts 0 (Fingerprint.tagOf hash)

end StateSpace.Table
