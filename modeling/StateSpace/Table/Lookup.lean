import StateSpace.Table.Probe

/-!
# Lookup, removal and growth

`lookupHashed` finds or inserts a key. A key that is found behind a tombstone of its window is moved into the tombstone.
A key that is new is stored if the load stays within its bound; otherwise, or if the probe is exhausted, the capacity is
doubled and the lookup starts again, until the largest capacity is reached.

Growth (`growWith`) empties the slots that come into use, turns tombstones into empty slots, and keeps the entries whose
first slot under the new capacity is the one they are in. It takes out all other entries before it puts the first of
them back, so that no slot is emptied in front of an entry that was put back. An entry whose windows are packed is
looked up like a new key, which can grow the table again; if even that fails, it is dropped.

Growth and lookup call each other, and every growth doubles the capacity. `lookupWithin n` grows at most `n` times in
a row, and `lookupHashed` takes for `n` the doublings that are left, so that the bound is never what stops it
(`Table/Growth.lean`).

The operations on keys check the length of the key first, and do nothing on a key of another length.
-/

namespace StateSpace

/-- A key of another length than the table's. -/
structure WrongLength where
  actual : Nat
  expected : Nat
  deriving DecidableEq, Repr

def WrongLength.message (w : WrongLength) : String := s!"state has {w.actual} slots, table expects {w.expected}"

/-- What became of a key that was looked up. -/
inductive Lookup where
  /-- The key was new and is stored now. -/
  | inserted
  /-- The key was a member. -/
  | found
  /-- The key is new, and there is no room for it. -/
  | full
  deriving DecidableEq, Repr, Inhabited

def Lookup.text : Lookup → String
  | .inserted => "Inserted"
  | .found => "Found"
  | .full => "Full"

namespace Table

/-! ## Changing slots -/

/-- Stores a key in a slot that is not occupied. -/
def occupy (t : Table) (slot : Nat) (key : State) (hash : UInt32) : Table :=
  { t with slots := t.slots.setIfInBounds slot (.entry (Fingerprint.tagOf hash) key), load := t.load + 1 }

/-- Moves the entry of a slot into a tombstone, and leaves a tombstone. -/
def relocate (t : Table) (slot tombstone : Nat) : Table :=
  { t with
    slots := (t.slots.setIfInBounds tombstone (t.slot slot)).setIfInBounds slot .tombstone
    relocations := t.relocations + 1 }

/-- Removes the entry of a slot, and leaves a tombstone. -/
def vacate (t : Table) (slot : Nat) : Table :=
  { t with slots := t.slots.setIfInBounds slot .tombstone, load := t.load - 1 }

/-- Stores a new key where a probe said. -/
def insertAt (t : Table) (slot : Nat) (onTombstone : Bool) (key : State) (hash : UInt32) : Table :=
  occupy { t with reclaimed := t.reclaimed + onTombstone.toNat } slot key hash

/-! ## Growth -/

/-- The entry of slot `i`, if its first slot under the given capacity is another one. -/
def displaced (t : Table) (capacity i : Nat) : Option (UInt32 × State) :=
  match t.slot i with
  | .entry tag key => if tag.toNat % capacity = i then none else some (tag, key)
  | _ => none

/-- What slot `i` holds when the capacity is doubled to `capacity` and no entry is put back yet. -/
def settled (capacity i : Nat) (s : Slot) : Slot :=
  if capacity ≤ 2 * i then .empty
  else match s with
    | .entry tag key => if tag.toNat % capacity = i then .entry tag key else .empty
    | _ => .empty

/-- The entries that doubling takes out, slot by slot. -/
def staged (t : Table) : List (UInt32 × State) := (List.range t.capacity).filterMap (t.displaced (2 * t.capacity))

/-- The tombstones among the slots in use. -/
def tombstones (t : Table) : Nat := (List.range t.capacity).countP fun i => t.slot i == .tombstone

/-- The table of twice the capacity, without the entries that are taken out. -/
def doubled (t : Table) : Table :=
  let taken := t.staged.length
  let tombstones := t.tombstones
  let capacity := 2 * t.capacity
  { t with
    pow2 := t.pow2 + 1
    slots := updateBelow (settled capacity) capacity t.slots
    load := t.load - taken
    reclaimed := t.reclaimed + tombstones }

/-- Puts an entry back. If its windows are packed it is looked up by `look`, and dropped if that finds no room. -/
def putBack (look : Table → State → UInt32 → Lookup × Table) (t : Table) (entry : UInt32 × State) : Table :=
  match t.probe entry.2 entry.1 with
  | .vacant slot _ => t.occupy slot entry.2 entry.1
  | _ =>
    match look t entry.2 entry.1 with
    | (.full, t) => { t with dropped := t.dropped + 1 }
    | (_, t) => t

/-- Doubles the capacity. -/
def growWith (look : Table → State → UInt32 → Lookup × Table) (t : Table) : Table :=
  let staged := t.staged
  let grown := staged.foldl (putBack look) t.doubled
  { grown with resizes := grown.resizes + 1 }

/-! ## Lookup -/

/-- Finds a key with the given hash, or inserts it if the present capacity has room; `grow` takes over otherwise. -/
def lookupOr (grow : Table → Lookup × Table) (t : Table) (key : State) (hash : UInt32) : Lookup × Table :=
  match t.probe key hash with
  | .hit _ none => (.found, t)
  | .hit slot (some tombstone) => (.found, t.relocate slot tombstone)
  | .vacant slot onTombstone => if t.hasRoom then (.inserted, t.insertAt slot onTombstone key hash) else grow t
  | .exhausted => grow t

/-- Finds or inserts a key with the given hash, growing at most `n` times in a row. -/
def lookupWithin : Nat → Table → State → UInt32 → Lookup × Table
  | 0, t, key, hash => lookupOr (fun t => (.full, t)) t key hash
  | n + 1, t, key, hash =>
    lookupOr (fun t =>
      if t.pow2 < t.config.maxPow2 then lookupWithin n (growWith (lookupWithin n) t) key hash else (.full, t))
      t key hash

/-- Doublings until the largest capacity. -/
def doublingsLeft (t : Table) : Nat := t.config.maxPow2 - t.pow2

/-- Finds or inserts a key with the given hash. -/
def lookupHashed (t : Table) (key : State) (hash : UInt32) : Lookup × Table := lookupWithin t.doublingsLeft t key hash

/-! ## Operations -/

/-- Whether the table was below its largest capacity, and the table with its capacity doubled if so. -/
def resize (t : Table) : Bool × Table :=
  match t.doublingsLeft with
  | 0 => (false, t)
  | n + 1 => (true, growWith (lookupWithin n) t)

def checkLength (t : Table) (key : State) : Except WrongLength Unit :=
  if key.length = t.config.keyLength then .ok () else .error ⟨key.length, t.config.keyLength⟩

/-- Inserts a key of the right length unless it is a member. -/
def lookupKey (t : Table) (key : State) : Lookup × Table := t.lookupHashed key (Hash.ofState key 0)

/-- Whether a key of the right length is a member. -/
def hasKey (t : Table) (key : State) : Bool :=
  match t.probe key (Hash.ofState key 0) with
  | .hit .. => true
  | _ => false

/-- Whether a key of the right length was a member, and the table without it. -/
def removeKey (t : Table) (key : State) : Bool × Table :=
  match t.probe key (Hash.ofState key 0) with
  | .hit slot _ => (true, t.vacate slot)
  | _ => (false, t)

/-- Inserts a key unless it is a member. -/
def lookupOrInsert (t : Table) (key : State) : Except WrongLength (Lookup × Table) := do
  t.checkLength key
  return t.lookupKey key

/-- Whether the key is a member. -/
def contains (t : Table) (key : State) : Except WrongLength Bool := do
  t.checkLength key
  return t.hasKey key

/-- Whether the key was a member, and the table without it. -/
def remove (t : Table) (key : State) : Except WrongLength (Bool × Table) := do
  t.checkLength key
  return t.removeKey key

end Table

end StateSpace
