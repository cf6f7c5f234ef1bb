import StateSpace.Table.Lookup

/-!
# Access by access

A computation that reads and writes a storage one access at a time (`Access`). An access outside of what it reads, a
difference below zero, a product that is no machine word and a key of the wrong length are faults: they stop the
computation and leave the storage as it is then. A computation may also go on for ever.

`Ends` says of a computation that it ends without a fault, and with which result. Words are kept in flat arrays, of
which ranges are read (`slice`) and overwritten (`overwrite`).
-/

namespace StateSpace

/-- What stops a computation. -/
inductive Access.Fault where
  /-- A position is outside of its array. -/
  | position (index size : Nat)
  /-- A range of words is outside of its array. -/
  | range (start length size : Nat)
  /-- A range is copied to one of another length. -/
  | lengths (source target : Nat)
  | underflow (minuend subtrahend : Nat)
  | overflow (factor factor' : Nat)
  | wrongLength (wrong : WrongLength)
  deriving DecidableEq, Repr

/-- A computation on a storage. -/
abbrev Access (σ : Type) := ExceptT Access.Fault (StateT σ Option)

/-! ## Ranges of words -/

/-- `length` words from `start` on. -/
def slice (words : Array Int32) (start length : Nat) : List Int32 := (words.extract start (start + length)).toList

/-- Puts the given words in the place of those from `start` on. -/
def overwrite (words : Array Int32) (start : Nat) (given : List Int32) : Array Int32 :=
  words.mapIdx fun i word => if start ≤ i then given.getD (i - start) word else word

section

variable {words : Array Int32} {start length place : Nat} {given : List Int32}

theorem getElem?_slice (words : Array Int32) (start length k : Nat) :
    (slice words start length)[k]? = if k < length then words[start + k]? else none := by
  rw [slice, Array.toList_extract, List.extract_eq_take_drop, Nat.add_sub_cancel_left, List.getElem?_take,
    List.getElem?_drop, Array.getElem?_toList]

/-- A range that lies within the words has its length. -/
theorem length_slice (h : start + length ≤ words.size) : (slice words start length).length = length := by
  rw [slice, Array.length_toList, Array.size_extract, Nat.min_eq_left h, Nat.add_sub_cancel_left]

/-- The words between those in front and those behind. -/
theorem slice_eq_of_toList {front back : List Int32} (h : words.toList = front ++ given ++ back) :
    slice words front.length given.length = given := by
  rw [slice, Array.toList_extract, List.extract_eq_take_drop, Nat.add_sub_cancel_left, h, List.append_assoc,
    List.drop_left, List.take_left]

theorem size_overwrite : (overwrite words start given).size = words.size := Array.size_mapIdx

theorem slice_overwrite_self (h : start + given.length ≤ words.size) :
    slice (overwrite words start given) start given.length = given := by
  refine List.ext_getElem? fun k => ?_
  rw [getElem?_slice, overwrite, Array.getElem?_mapIdx]
  by_cases hk : k < given.length
  · have hlt : start + k < words.size := by omega
    simp [hk, hlt]
  · simp [hk]

/-- Other ranges stay as they are. -/
theorem slice_overwrite_of_disjoint (h : place + length ≤ start ∨ start + given.length ≤ place) :
    slice (overwrite words start given) place length = slice words place length := by
  refine List.ext_getElem? fun k => ?_
  rw [getElem?_slice, getElem?_slice, overwrite, Array.getElem?_mapIdx]
  split
  · -- the place is in front of the given words, or behind the last of them
    have hsame : (fun word => if start ≤ place + k then given.getD (place + k - start) word else word) = id := by
      funext word
      split
      · rename_i hle
        rw [List.getD_eq_getElem?_getD, List.getElem?_eq_none (by omega)]
        rfl
      · rfl
    rw [hsame, Option.map_id, id]
  · rfl

end

/-! ## Computations -/

namespace Access

variable {σ α β : Type}

/-- The outcome of a computation that begins with the given storage, and the storage at its end. -/
def exec (m : Access σ α) (s : σ) : Option (Except Fault α × σ) := (ExceptT.run m).run s

theorem exec_get (s : σ) : exec (get : Access σ σ) s = some (.ok s, s) := rfl

theorem exec_bind_of_ok {m : Access σ α} {f : α → Access σ β} {s s' : σ} {a : α} (h : exec m s = some (.ok a, s')) :
    exec (m >>= f) s = exec (f a) s' := by
  unfold exec at h ⊢
  rw [ExceptT.run_bind, StateT.run_bind, h]
  rfl

theorem exec_bind_of_error {m : Access σ α} {f : α → Access σ β} {s s' : σ} {e : Fault}
    (h : exec m s = some (.error e, s')) : exec (m >>= f) s = some (.error e, s') := by
  unfold exec at h ⊢
  rw [ExceptT.run_bind, StateT.run_bind, h]
  rfl

/-- The difference of two numbers. -/
def subtract (a b : Nat) : Access σ Nat := if b ≤ a then return a - b else throw (.underflow a b)

/-- No machine word is as large as this. -/
def wordLimit : Nat := 1 <<< 64

/-- The product of two sizes. -/
def multiply (a b : Nat) : Access σ Nat := if a * b < wordLimit then return a * b else throw (.overflow a b)

/-- The words of a range. -/
def range (words : Array Int32) (start length : Nat) : Access σ (List Int32) :=
  if start + length ≤ words.size then return slice words start length else throw (.range start length words.size)

/-- On every storage with the first property, the computation ends without a fault: with the given result, and with a
storage that has the second property. -/
def Ends (p : σ → Prop) (m : Access σ α) (a : α) (q : σ → Prop) : Prop :=
  ∀ s, p s → ∃ s', m.exec s = some (.ok a, s') ∧ q s'

section

variable {p q r : σ → Prop} {m : Access σ α} {f : α → Access σ β} {a : α} {b : β}

theorem ends_pure (h : ∀ s, p s → q s) : Ends p (pure a) a q := fun s hs => ⟨s, rfl, h s hs⟩

theorem Ends.bind (h : Ends p m a q) (h' : Ends q (f a) b r) : Ends p (m >>= f) b r := by
  intro s hs
  obtain ⟨s', hexec, hs'⟩ := h s hs
  rw [exec_bind_of_ok hexec]
  exact h' s' hs'

theorem Ends.weaken (h : Ends p m a q) (hqr : ∀ s, q s → r s) : Ends p m a r := by
  intro s hs
  obtain ⟨s', hexec, hs'⟩ := h s hs
  exact ⟨s', hexec, hqr s' hs'⟩

/-- What is read of the storage. -/
theorem ends_get {f : σ → Access σ β} (h : ∀ s, p s → Ends p (f s) b r) : Ends p (get >>= f) b r := fun s hs => by
  rw [exec_bind_of_ok (exec_get s)]
  exact h s hs s hs

theorem ends_modify {change : σ → σ} (h : ∀ s, p s → q (change s)) : Ends p (modify change) () q := fun s hs =>
  ⟨change s, rfl, h s hs⟩

theorem ends_subtract {n k : Nat} (h : k ≤ n) : Ends p (subtract n k) (n - k) p := by
  rw [subtract, if_pos h]
  exact ends_pure fun _ => id

theorem ends_range {words : Array Int32} {start length : Nat} (h : start + length ≤ words.size) :
    Ends p (range words start length) (slice words start length) p := by
  rw [range, if_pos h]
  exact ends_pure fun _ => id

end

end Access

end StateSpace
