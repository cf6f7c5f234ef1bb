import Mathlib.Data.Nat.Digits.Defs
import StateSpace.Hash
import StateSpace.Proofs.Table.Walk

/-!
# The hash of words is the hash of their bytes

A state is hashed word by word, and a byte sequence block by block with up to three bytes left over. The bytes of a
word, lowest first, are one block (`mixBytes_wordBytes`), so that the bytes of words are mixed as the words are, and
what follows them is all that is left over (`mixBytes_append`). Hence the two hashes agree, and with them the chains of
hashes that they give (`chain`) and the windows in which a table looks for a key (`ofState_exact`).
-/

namespace StateSpace.Hash

/-! ## The bytes of a word -/

/-- The numbers of the four bytes are the digits of the word's bits. -/
theorem map_toNat_wordBytes (word : Int32) : (wordBytes word).map UInt8.toNat =
    let n := word.toUInt32.toNat
    [n % 256, n / 256 % 256, n / 65536 % 256, n / 16777216 % 256] := by
  simp [wordBytes, UInt32.toNat_shiftRight, Nat.shiftRight_eq_div_pow]

/-- The bits of a word are its number in two's complement. -/
theorem toNat_toUInt32 (word : Int32) : word.toUInt32.toNat = (word.toInt % 2 ^ 32).toNat := by
  have hlt : word.toUInt32.toNat < 2 ^ 32 := word.toUInt32.toNat_lt
  have hbmod : word.toInt = Int.bmod word.toUInt32.toNat (2 ^ 32) := BitVec.toInt_eq_toNat_bmod word.toBitVec
  have hemod := Int.bmod_emod (x := word.toUInt32.toNat) (m := 2 ^ 32)
  rw [← hbmod] at hemod
  have hmod : word.toInt % 2 ^ 32 = word.toUInt32.toNat :=
    hemod.trans (Int.emod_eq_of_lt (Int.natCast_nonneg _) (Int.ofNat_lt.2 hlt))
  rw [hmod, Int.toNat_natCast]

/-- The bytes of a word are those of its number in two's complement, lowest first. -/
theorem ofDigits_wordBytes (word : Int32) :
    Nat.ofDigits 256 ((wordBytes word).map UInt8.toNat) = (word.toInt % 2 ^ 32).toNat := by
  have hlt : word.toUInt32.toNat < 2 ^ 32 := word.toUInt32.toNat_lt
  rw [← toNat_toUInt32, map_toNat_wordBytes]
  generalize word.toUInt32.toNat = n at hlt
  simp only [Nat.ofDigits_cons, Nat.ofDigits_nil]
  omega

theorem toNat_half (lo hi : UInt8) : (half lo hi).toNat = lo.toNat + 256 * hi.toNat := by
  have hlo : lo.toNat < 2 ^ 8 := lo.toNat_lt
  have hhi : hi.toNat < 2 ^ 8 := hi.toNat_lt
  have hshift : (hi.toUInt32 <<< 8).toNat = hi.toNat <<< 8 := by
    simp [UInt32.toNat_shiftLeft, Nat.shiftLeft_eq]
    omega
  rw [half, UInt32.toNat_or, hshift, UInt8.toNat_toUInt32, Nat.or_comm, ← Nat.shiftLeft_add_eq_or_of_lt hlo,
    Nat.shiftLeft_eq]
  omega

/-- Two bytes of a word make up one of its halves. -/
theorem half_bytes (bits : UInt32) : half bits.toUInt8 (bits >>> 8).toUInt8 = bits &&& 0xFFFF := by
  have hmask : (bits &&& 0xFFFF).toNat = bits.toNat % 2 ^ 16 := by
    rw [UInt32.toNat_and]
    exact Nat.and_two_pow_sub_one_eq_mod bits.toNat 16
  have hshift : (bits >>> 8).toNat = bits.toNat / 2 ^ 8 := by
    simp [UInt32.toNat_shiftRight, Nat.shiftRight_eq_div_pow]
  refine UInt32.toNat_inj.1 ?_
  rw [toNat_half, hmask, UInt32.toNat_toUInt8, UInt32.toNat_toUInt8, hshift]
  omega

/-- The two upper bytes of a word. -/
theorem half_bytes_high (bits : UInt32) :
    half (bits >>> 16).toUInt8 (bits >>> 24).toUInt8 = bits >>> 16 := by
  have hlt := bits.toNat_lt
  have hshift (k : UInt32) (n : Nat) (hk : k.toNat % 32 = n) : (bits >>> k).toNat = bits.toNat / 2 ^ n := by
    rw [UInt32.toNat_shiftRight, hk, Nat.shiftRight_eq_div_pow]
  refine UInt32.toNat_inj.1 ?_
  rw [toNat_half, UInt32.toNat_toUInt8, UInt32.toNat_toUInt8, hshift 16 16 rfl, hshift 24 24 rfl]
  omega

/-! ## Mixing words and bytes -/

/-- The bytes of a word are one block, whatever follows them. -/
theorem mixBytes_wordBytes (hash : UInt32) (word : Int32) (rest : List UInt8) :
    mixBytes hash (wordBytes word ++ rest) = mixBytes (mixWord hash word) rest := by
  simp only [wordBytes, List.cons_append, List.nil_append, mixBytes, mixWord, half_bytes, half_bytes_high]

/-- All bytes of words are mixed as the words are; only what follows them can be left over. -/
theorem mixBytes_append (hash : UInt32) (words : State) (rest : List UInt8) :
    mixBytes hash (words.flatMap wordBytes ++ rest) = mixBytes (words.foldl mixWord hash) rest := by
  induction words generalizing hash with
  | nil => rfl
  | cons word words ih =>
    rw [List.flatMap_cons, List.append_assoc, mixBytes_wordBytes, ih, List.foldl_cons]

theorem ofState_eq_ofBytes (words : State) (seed : UInt32) :
    ofState words seed = ofBytes (words.flatMap wordBytes) seed := by
  have hempty : (words.flatMap wordBytes).isEmpty = words.isEmpty := by cases words <;> rfl
  have hmix : mixBytes seed (words.flatMap wordBytes) = words.foldl mixWord seed := by
    have happend := mixBytes_append seed words []
    rwa [List.append_nil] at happend
  rw [ofState, ofBytes, hempty, hmix]

/-! ## Chains of hashes -/

/-- The hashes that follow from `start`: each is made from the one before and its number. -/
def chain (hash : UInt32 → UInt32) (start : UInt32) : Nat → UInt32
  | 0 => start
  | i + 1 => hash (chain hash start i + UInt32.ofNat i)

section

variable (words : State) (start : UInt32)

/-- Rehashing goes along the chain, at whatever attempt it begins. -/
theorem rehashes_eq (n a : Nat) : rehashes words n (UInt32.ofNat a) (chain (ofState words) start a) =
    (List.range n).map fun i => chain (ofState words) start (a + i + 1) := by
  induction n generalizing a with
  | zero => rfl
  | succ n ih =>
    specialize ih (a + 1)
    rw [UInt32.ofNat_add] at ih
    rw [rehashes, List.range_succ_eq_map, List.map_cons, List.map_map]
    refine congrArg₂ List.cons rfl (ih.trans (List.map_congr_left fun i _ => ?_))
    exact congrArg (chain (ofState words) start) (by omega)

/-- A table looks for a key along the chain. -/
theorem windowsFrom_eq (capacity n a : Nat) :
    Table.windowsFrom capacity words n (UInt32.ofNat a) (chain (ofState words) start a) =
      (List.range n).map fun i => Table.window capacity (chain (ofState words) start (a + i)) := by
  induction n generalizing a with
  | zero => rfl
  | succ n ih =>
    specialize ih (a + 1)
    rw [UInt32.ofNat_add] at ih
    rw [Table.windowsFrom, List.range_succ_eq_map, List.map_cons, List.map_map]
    refine congrArg₂ List.cons rfl (ih.trans (List.map_congr_left fun i _ => ?_))
    exact congrArg (fun k => Table.window capacity (chain (ofState words) start k)) (by omega)

end

/-- **The hash of words is the hash of their bytes.** A word has four bytes, those of its number in two's complement,
lowest first. Under every seed the words hash as their bytes do. So from every start the chains of hashes are the same
through either function at every step, and it is this chain that a key is rehashed along and that a table follows from
window to window. -/
theorem ofState_exact (words : State) :
    (∀ word, (wordBytes word).length = 4 ∧
      Nat.ofDigits 256 ((wordBytes word).map UInt8.toNat) = (word.toInt % 2 ^ 32).toNat) ∧
    (∀ seed, ofState words seed = ofBytes (words.flatMap wordBytes) seed) ∧
    (∀ start i, chain (ofState words) start i = chain (ofBytes (words.flatMap wordBytes)) start i) ∧
    (∀ n start, rehashes words n 0 start =
      (List.range n).map fun i => chain (ofBytes (words.flatMap wordBytes)) start (i + 1)) ∧
    ∀ capacity, Table.windows capacity words = (List.range Table.probeAttempts).map fun i =>
      Table.window capacity (chain (ofBytes (words.flatMap wordBytes)) (Table.keyTag words) i) := by
  have heq : ofState words = ofBytes (words.flatMap wordBytes) := funext (ofState_eq_ofBytes words)
  refine ⟨fun word => ⟨rfl, ofDigits_wordBytes word⟩, ofState_eq_ofBytes words, fun start i => ?_, fun n start => ?_,
    fun capacity => ?_⟩
  · rw [heq]
  · have hchain := rehashes_eq words start n 0
    simp only [Nat.zero_add] at hchain
    rw [← heq]
    exact hchain
  · have hwindows := windowsFrom_eq words (Table.keyTag words) capacity Table.probeAttempts 0
    simp only [Nat.zero_add] at hwindows
    rw [← heq]
    exact hwindows

end StateSpace.Hash
