import StateSpace.Table.Lookup

/-!
# Lookups make progress

A lookup leaves the geometry alone and never shrinks the capacity. If it does not grow the table, a key that was found
leaves the load as it is, and a new key is stored within the load bound (`lookupHashed_progress`). So a search that
looks up one state after another can store only finitely many.
-/

namespace StateSpace.Table

/-- Slots that the load bound leaves free, in quarters. -/
def roomLeft (t : Table) : Nat := 3 * t.capacity - 4 * t.load

/-- `t'` has the geometry of `t` and at least its capacity. -/
structure Follows (t t' : Table) : Prop where
  config_eq : t'.config = t.config
  pow2_le : t.pow2 ≤ t'.pow2

theorem Follows.refl (t : Table) : Follows t t := ⟨rfl, Nat.le_refl _⟩

theorem Follows.trans {t₁ t₂ t₃ : Table} (h₁ : Follows t₁ t₂) (h₂ : Follows t₂ t₃) : Follows t₁ t₃ :=
  ⟨h₂.config_eq.trans h₁.config_eq, Nat.le_trans h₁.pow2_le h₂.pow2_le⟩

/-- Every table that a lookup function returns follows the one it was given. -/
def Grows (look : Table → State → UInt32 → Lookup × Table) : Prop := ∀ t key hash, Follows t (look t key hash).2

theorem follows_putBack {look : Table → State → UInt32 → Lookup × Table} (h : Grows look) (t : Table)
    (entry : UInt32 × State) : Follows t (putBack look t entry) := by
  have hl := h t entry.2 entry.1
  unfold putBack
  split
  · exact ⟨rfl, Nat.le_refl _⟩
  · split <;> rename_i heq <;> rw [heq] at hl <;> exact ⟨hl.config_eq, hl.pow2_le⟩

theorem follows_foldl_putBack {look : Table → State → UInt32 → Lookup × Table} (h : Grows look)
    (entries : List (UInt32 × State)) (t : Table) : Follows t (entries.foldl (putBack look) t) := by
  induction entries generalizing t with
  | nil => exact Follows.refl t
  | cons entry rest ih => exact (follows_putBack h t entry).trans (ih _)

theorem follows_doubled_growWith {look : Table → State → UInt32 → Lookup × Table} (h : Grows look) (t : Table) :
    Follows t.doubled (growWith look t) := by
  have := follows_foldl_putBack h t.staged t.doubled
  exact ⟨this.config_eq, this.pow2_le⟩

/-- What a lookup does to the geometry, the capacity and the load. -/
def Progress (t : Table) (r : Lookup × Table) : Prop :=
  r.2.config = t.config ∧
    (t.pow2 < t.config.maxPow2 ∧ t.pow2 < r.2.pow2 ∨
      r.2.pow2 = t.pow2 ∧ (r.1 = .found → r.2.load = t.load) ∧
        (r.1 = .inserted → r.2.load = t.load + 1 ∧ t.hasRoom = true))

theorem Progress.follows {t : Table} {r : Lookup × Table} (h : Progress t r) : Follows t r.2 := by
  obtain ⟨hc, ⟨_, hp⟩ | ⟨hp, _⟩⟩ := h
  · exact ⟨hc, Nat.le_of_lt hp⟩
  · exact ⟨hc, Nat.le_of_eq hp.symm⟩

theorem lookupOr_progress {grow : Table → Lookup × Table} {t : Table} (h : Progress t (grow t)) (key : State)
    (hash : UInt32) : Progress t (lookupOr grow t key hash) := by
  unfold lookupOr
  split
  · exact ⟨rfl, .inr ⟨rfl, fun _ => rfl, by simp⟩⟩
  · exact ⟨rfl, .inr ⟨rfl, fun _ => rfl, by simp⟩⟩
  · split
    · rename_i hr
      exact ⟨rfl, .inr ⟨rfl, by simp, fun _ => ⟨rfl, hr⟩⟩⟩
    · exact h
  · exact h

theorem lookupWithin_progress (n : Nat) (t : Table) (key : State) (hash : UInt32) :
    Progress t (lookupWithin n t key hash) := by
  induction n generalizing t key hash with
  | zero => exact lookupOr_progress ⟨rfl, .inr ⟨rfl, by simp, by simp⟩⟩ key hash
  | succ n ih =>
    refine lookupOr_progress ?_ key hash
    split
    · rename_i hlt
      have hg := follows_doubled_growWith (fun t key hash => (ih t key hash).follows) t
      have hf := hg.trans (ih (growWith (lookupWithin n) t) key hash).follows
      exact ⟨hf.config_eq, .inl ⟨hlt, hf.pow2_le⟩⟩
    · exact ⟨rfl, .inr ⟨rfl, by simp, by simp⟩⟩

theorem lookupHashed_progress (t : Table) (key : State) (hash : UInt32) : Progress t (t.lookupHashed key hash) :=
  lookupWithin_progress _ t key hash

theorem lookupKey_progress (t : Table) (key : State) : Progress t (t.lookupKey key) := t.lookupHashed_progress key _

/-- A lookup leaves fewer doublings, or as many; if as many, a key that was found leaves the room as it is, and a new
key takes some of it. -/
theorem Progress.room {t : Table} {r : Lookup × Table} (h : Progress t r) :
    r.2.doublingsLeft < t.doublingsLeft ∨
      r.2.doublingsLeft = t.doublingsLeft ∧
        (r.1 = .found → r.2.roomLeft = t.roomLeft) ∧ (r.1 = .inserted → r.2.roomLeft < t.roomLeft) := by
  obtain ⟨hc, ⟨hlt, hp⟩ | ⟨hp, hf, hi⟩⟩ := h
  · left
    unfold doublingsLeft
    rw [hc]
    omega
  · right
    refine ⟨by unfold doublingsLeft; rw [hc, hp], fun e => ?_, fun e => ?_⟩
    · unfold roomLeft capacity
      rw [hp, hf e]
    · obtain ⟨hl, hroom⟩ := hi e
      simp only [hasRoom, decide_eq_true_eq] at hroom
      unfold roomLeft
      rw [hl, show r.2.capacity = t.capacity by unfold capacity; rw [hp]]
      omega

end StateSpace.Table
