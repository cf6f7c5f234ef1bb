import StateSpace.Table.Progress

/-!
# Growth is never cut short

`lookupWithin` gives the same answer and the same table under any two bounds that cover the doublings left
(`lookupWithin_congr`): each doubling leaves fewer of them, and nothing that is done while entries are put back gives
one back. So the bound of `lookupHashed` decides nothing, and lookup and growth call each other as if there were none
(`lookupHashed_eq`, `resize_eq`).
-/

namespace StateSpace.Table

theorem doublingsLeft_doubled (t : Table) : t.doubled.doublingsLeft = t.doublingsLeft - 1 := by
  unfold doublingsLeft doubled
  dsimp only
  omega

theorem Follows.doublingsLeft_le {t t' : Table} (h : Follows t t') : t'.doublingsLeft ≤ t.doublingsLeft := by
  have hp := h.pow2_le
  unfold doublingsLeft
  rw [h.config_eq]
  omega

theorem grows_lookupWithin (n : Nat) : Grows (lookupWithin n) := fun t key hash =>
  (lookupWithin_progress n t key hash).follows

/-- Two lookup functions do the same to every table with at most `n` doublings left. -/
def AgreeUpTo (n : Nat) (look look' : Table → State → UInt32 → Lookup × Table) : Prop :=
  ∀ t key hash, t.doublingsLeft ≤ n → look t key hash = look' t key hash

section

variable {n : Nat} {look look' : Table → State → UInt32 → Lookup × Table}

theorem putBack_congr (h : AgreeUpTo n look look') {t : Table} (ht : t.doublingsLeft ≤ n) (entry : UInt32 × State) :
    putBack look t entry = putBack look' t entry := by
  unfold putBack
  rw [h t entry.2 entry.1 ht]

theorem foldl_putBack_congr (h : AgreeUpTo n look look') (hg : Grows look) (entries : List (UInt32 × State)) {t : Table}
    (ht : t.doublingsLeft ≤ n) : entries.foldl (putBack look) t = entries.foldl (putBack look') t := by
  induction entries generalizing t with
  | nil => rfl
  | cons entry rest ih =>
    have hle := (follows_putBack hg t entry).doublingsLeft_le
    rw [List.foldl_cons, List.foldl_cons, ← putBack_congr h ht, ih (Nat.le_trans hle ht)]

theorem growWith_congr (h : AgreeUpTo n look look') (hg : Grows look) {t : Table} (ht : t.doublingsLeft ≤ n + 1) :
    growWith look t = growWith look' t := by
  have hd : t.doubled.doublingsLeft ≤ n := by
    rw [doublingsLeft_doubled]
    omega
  unfold growWith
  dsimp only
  rw [foldl_putBack_congr h hg t.staged hd]

/-- A growth takes one of the doublings that are left. -/
theorem doublingsLeft_growWith_le (hg : Grows look) (t : Table) :
    (growWith look t).doublingsLeft ≤ t.doublingsLeft - 1 := by
  rw [← doublingsLeft_doubled]
  exact (follows_doubled_growWith hg t).doublingsLeft_le

end

/-- What `grow` does to other tables does not matter. -/
theorem lookupOr_congr {grow grow' : Table → Lookup × Table} {t : Table} (h : grow t = grow' t) (key : State)
    (hash : UInt32) : lookupOr grow t key hash = lookupOr grow' t key hash := by
  unfold lookupOr
  rw [h]

/-- Two bounds that cover the doublings left do not differ. -/
theorem lookupWithin_congr {m n : Nat} {t : Table} (hm : t.doublingsLeft ≤ m) (hn : t.doublingsLeft ≤ n) (key : State)
    (hash : UInt32) : lookupWithin m t key hash = lookupWithin n t key hash := by
  induction m generalizing n t key hash with
  | zero =>
    cases n with
    | zero => rfl
    | succ n =>
      refine lookupOr_congr ?_ key hash
      rw [if_neg]
      unfold doublingsLeft at hm
      omega
  | succ m ih =>
    cases n with
    | zero =>
      refine lookupOr_congr ?_ key hash
      rw [if_neg]
      unfold doublingsLeft at hn
      omega
    | succ n =>
      refine lookupOr_congr ?_ key hash
      split
      · have hle := doublingsLeft_growWith_le (grows_lookupWithin m) t
        rw [ih (n := n) (by omega) (by omega)]
        congr 1
        refine growWith_congr (n := min m n) (fun t key hash h => ?_) (grows_lookupWithin m) (by omega)
        exact ih (by omega) (by omega) key hash
      · rfl

/-- Any bound that covers the doublings left gives the lookup. -/
theorem lookupWithin_eq {n : Nat} {t : Table} (h : t.doublingsLeft ≤ n) (key : State) (hash : UInt32) :
    lookupWithin n t key hash = t.lookupHashed key hash :=
  lookupWithin_congr h (Nat.le_refl _) key hash

/-- Below the largest capacity, a lookup without room doubles the capacity and starts again. -/
theorem lookupHashed_eq (t : Table) (key : State) (hash : UInt32) :
    t.lookupHashed key hash =
      lookupOr (fun t =>
        if t.pow2 < t.config.maxPow2 then (growWith lookupHashed t).lookupHashed key hash else (.full, t))
        t key hash := by
  rw [← lookupWithin_eq (Nat.le_succ t.doublingsLeft)]
  refine lookupOr_congr ?_ key hash
  split
  · have hgrow : growWith (lookupWithin t.doublingsLeft) t = growWith lookupHashed t :=
      growWith_congr (n := t.doublingsLeft) (fun _ key hash h => lookupWithin_eq h key hash) (grows_lookupWithin _)
        (Nat.le_succ _)
    have hle := doublingsLeft_growWith_le (grows_lookupWithin t.doublingsLeft) t
    rw [← hgrow]
    exact lookupWithin_eq (by omega) key hash
  · rfl

/-- A table below its largest capacity is doubled, and any other is left alone. -/
theorem resize_eq (t : Table) :
    t.resize = if t.pow2 < t.config.maxPow2 then (true, growWith lookupHashed t) else (false, t) := by
  unfold resize
  split
  · rename_i h
    rw [if_neg]
    unfold doublingsLeft at h
    omega
  · rename_i n h
    have hlt : t.pow2 < t.config.maxPow2 := by
      unfold doublingsLeft at h
      omega
    rw [if_pos hlt]
    congr 1
    exact growWith_congr (n := n) (fun _ key hash h => lookupWithin_eq h key hash) (grows_lookupWithin n)
      (Nat.le_of_eq h)

end StateSpace.Table
