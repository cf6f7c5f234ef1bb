import StateSpace.State

/-!
# The state hash

A seeded 32-bit hash over blocks of four bytes. A key hashed again under other seeds gives a chain of values
(`Hash.rehash`), which a table follows when a window of slots is packed. Both ends of a hash word are used, the low
bits for the slot and the high bits for the stored tag, so the last stage (`Hash.avalanche`) always runs.

A state is hashed word by word (`Hash.ofState`) without spelling out its bytes: each word is one block of its four
bytes, lowest first.
-/

namespace StateSpace.Hash

/-- The 16-bit number with the given low and high byte. -/
def half (lo hi : UInt8) : UInt32 := lo.toUInt32 ||| (hi.toUInt32 <<< 8)

/-- Mixes one block, given as its two 16-bit halves, into the hash. -/
def mixBlock (hash lo hi : UInt32) : UInt32 :=
  let h := hash + lo
  let h := (h <<< 16) ^^^ ((hi <<< 11) ^^^ h)
  h + (h >>> 11)

/-- Mixes up to three bytes after the last whole block into the hash. -/
def mixTail (hash : UInt32) : List UInt8 → UInt32
  | [a, b, c] =>
    let h := hash + half a b
    let h := h ^^^ (h <<< 16)
    let h := h ^^^ (c.toUInt32 <<< 18)
    h + (h >>> 11)
  | [a, b] =>
    let h := hash + half a b
    let h := h ^^^ (h <<< 11)
    h + (h >>> 17)
  | [a] =>
    let h := hash + a.toUInt32
    let h := h ^^^ (h <<< 10)
    h + (h >>> 1)
  | _ => hash

/-- Mixes all bytes into the hash, block by block. -/
def mixBytes (hash : UInt32) : List UInt8 → UInt32
  | a :: b :: c :: d :: rest => mixBytes (mixBlock hash (half a b) (half c d)) rest
  | tail => mixTail hash tail

/-- Spreads every bit over the whole word. -/
def avalanche (hash : UInt32) : UInt32 :=
  let h := hash ^^^ (hash <<< 3)
  let h := h + (h >>> 5)
  let h := h ^^^ (h <<< 4)
  let h := h + (h >>> 17)
  let h := h ^^^ (h <<< 25)
  h + (h >>> 6)

/-- The hash of a byte sequence; the empty one hashes to 0 under every seed. -/
def ofBytes (bytes : List UInt8) (seed : UInt32) : UInt32 :=
  if bytes.isEmpty then 0 else avalanche (mixBytes seed bytes)

/-- Mixes one word of a state into the hash, as one block. -/
def mixWord (hash : UInt32) (word : Int32) : UInt32 :=
  mixBlock hash (word.toUInt32 &&& 0xFFFF) (word.toUInt32 >>> 16)

/-- The hash of a state; the empty one hashes to 0 under every seed. -/
def ofState (state : State) (seed : UInt32) : UInt32 :=
  if state.isEmpty then 0 else avalanche (state.foldl mixWord seed)

/-- The four bytes of a word, lowest first. -/
def wordBytes (word : Int32) : List UInt8 :=
  let bits := word.toUInt32
  [bits.toUInt8, (bits >>> 8).toUInt8, (bits >>> 16).toUInt8, (bits >>> 24).toUInt8]

/-- The hash that follows `hash` after attempt `attempt`. -/
def rehash (state : State) (hash attempt : UInt32) : UInt32 := ofState state (hash + attempt)

/-- The `n` hashes that follow `hash`, the first of them after attempt `attempt`. -/
def rehashes (state : State) : Nat → UInt32 → UInt32 → List UInt32
  | 0, _, _ => []
  | n + 1, attempt, hash =>
    let next := rehash state hash attempt
    next :: rehashes state n (attempt + 1) next

end StateSpace.Hash
