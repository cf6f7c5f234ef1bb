import StateSpace.Text

/-!
# Fingerprints

What a table keeps of a slot in one 32-bit word: nothing, a tombstone, or the tag of the key stored there. The tag is
the low 31 bits of the key's first hash; the top bit of the word tells an occupied slot from the two others.

Only `Fingerprint.matches` needs the tag: it answers whether the slot may hold a key with a given hash, and the
comparison of the keys themselves decides.
-/

namespace StateSpace

inductive Fingerprint where
  /-- Never written since the last clear. -/
  | empty
  /-- Vacated, and still walked through by probes. -/
  | tombstone
  /-- Holds a key with this tag. -/
  | occupied (tag : UInt32)
  deriving DecidableEq, Repr

namespace Fingerprint

instance : Inhabited Fingerprint := ⟨.empty⟩

/-- The tag that is kept of a hash: its low 31 bits. -/
def tagOf (hash : UInt32) : UInt32 := hash &&& 0x7FFFFFFF

/-- The fingerprint of a slot whose key has the given hash. -/
def ofHash (hash : UInt32) : Fingerprint := .occupied (tagOf hash)

/-- The word that stands for a fingerprint. -/
def bits : Fingerprint → UInt32
  | .empty => 0
  | .tombstone => 1
  | .occupied tag => tag ||| 0x80000000

/-- The tag bits of the word. -/
def tag (f : Fingerprint) : UInt32 := tagOf f.bits

def isEmpty : Fingerprint → Bool
  | .empty => true
  | _ => false

def isTombstone : Fingerprint → Bool
  | .tombstone => true
  | _ => false

def isOccupied : Fingerprint → Bool
  | .occupied _ => true
  | _ => false

/-- Whether the slot may hold a key with this hash. -/
def «matches» (f : Fingerprint) (hash : UInt32) : Bool := f.isOccupied && f.tag == tagOf hash

def text : Fingerprint → String
  | .empty => "Empty"
  | .tombstone => "Tombstone"
  | .occupied tag => s!"Occupied(0x{Text.hex 8 tag.toNat})"

end Fingerprint

end StateSpace
