import StateSpace.Proofs.Table.Doubling

/-!
# Lookup and growth keep the members

A lookup finds a key exactly if it is a member, and then changes neither the load nor the capacity
(`lookupHashed_of_mem`); otherwise it adds the key, or finds no room at the largest capacity
(`doublingsLeft_of_full`). Growth adds nothing, and loses nothing but the keys that it drops
(`extends_growWith`). Lookup and growth call each other, so what one of them does to the members is shown from what the
other does on tables with fewer doublings left (`looked_lookupWithin`).
-/

namespace StateSpace.Table

/-- `t'` is a well-formed table with the members of `t` and the given keys. Members are missing only if some were
dropped. -/
structure Extends (t t' : Table) (keys : List State) : Prop where
  wellFormed : t'.WellFormed
  config_eq : t'.config = t.config
  dropped_le : t.dropped ≤ t'.dropped
  mem_or : ∀ key ∈ t', key ∈ t ∨ key ∈ keys
  mem_of : t'.dropped = t.dropped → ∀ key, key ∈ t ∨ key ∈ keys → key ∈ t'
  tidy : t.Tidy → t'.Tidy

/-- What became of a key that was looked up. -/
structure Looked (t : Table) (key : State) (r : Lookup × Table) : Prop where
  extends_ : Extends t r.2 (if r.1 = .inserted then [key] else [])
  found_iff : r.1 = .found ↔ key ∈ t

/-- A lookup function is faithful if it does on every well-formed table what a lookup should. -/
def Faithful (look : Table → State → UInt32 → Lookup × Table) : Prop :=
  ∀ t key hash, t.WellFormed → Fingerprint.tagOf hash = keyTag key → key.length = t.config.keyLength →
    Looked t key (look t key hash)

namespace Extends

variable {t t' t'' : Table} {keys keys' : List State}

theorem refl (h : t.WellFormed) : Extends t t [] :=
  ⟨h, rfl, Nat.le_refl _, fun _ hk => .inl hk, fun _ _ hk => hk.elim id (by simp), id⟩

theorem trans (h : Extends t t' keys) (h' : Extends t' t'' keys') : Extends t t'' (keys ++ keys') := by
  refine ⟨h'.wellFormed, h'.config_eq.trans h.config_eq, Nat.le_trans h.dropped_le h'.dropped_le, ?_, ?_,
    h'.tidy ∘ h.tidy⟩
  · intro key hk
    rcases h'.mem_or key hk with hk | hk
    · exact (h.mem_or key hk).imp_right (List.mem_append_left _)
    · exact .inr (List.mem_append_right _ hk)
  · intro hd key hk
    have hle := h.dropped_le
    have hle' := h'.dropped_le
    have hd₁ : t'.dropped = t.dropped := by omega
    have hd₂ : t''.dropped = t'.dropped := by omega
    rw [List.mem_append, ← or_assoc] at hk
    exact h'.mem_of hd₂ key (hk.imp_left (h.mem_of hd₁ key))

/-- Keys that are members anyway may be left out or put in. -/
theorem of_mem (h : Extends t t' []) (hkeys : ∀ key ∈ keys, key ∈ t) : Extends t t' keys :=
  ⟨h.wellFormed, h.config_eq, h.dropped_le, fun key hk => (h.mem_or key hk).imp_right (by simp), fun hd key hk =>
    h.mem_of hd key (.inl (hk.elim id (hkeys key))), h.tidy⟩

theorem with_counters (h : Extends t t' keys) (resizes relocations reclaimed : Nat) :
    Extends t { t' with resizes, relocations, reclaimed } keys :=
  ⟨h.wellFormed.with_counters _ _ _ _, h.config_eq, h.dropped_le, h.mem_or, h.mem_of, h.tidy⟩

/-- Without drops, the members are exactly those before and the given keys. -/
theorem mem_iff (h : Extends t t' keys) (hd : t'.dropped = t.dropped) (key : State) :
    key ∈ t' ↔ key ∈ t ∨ key ∈ keys :=
  ⟨h.mem_or key, h.mem_of hd key⟩

end Extends

section

variable {t : Table} {key : State} {hash : UInt32}

theorem extends_occupy (h : t.WellFormed) (hh : Fingerprint.tagOf hash = keyTag key)
    (hlength : key.length = t.config.keyLength) {i : Nat} {onTombstone : Bool}
    (hp : t.probe key hash = .vacant i onTombstone) : Extends t (t.occupy i key hash) [key] := by
  have hmem := mem_occupy h hh hp
  refine ⟨wellFormed_occupy h hh hlength hp, rfl, Nat.le_refl _, fun k hk => ?_, fun _ k hk => ?_, tidy_occupy⟩
  · exact ((hmem k).1 hk).symm.imp_right List.mem_singleton.2
  · exact (hmem k).2 (hk.symm.imp_left List.mem_singleton.1)

theorem extends_relocate (h : t.WellFormed) {i j : Nat} (hi : t.Stores i key) (hreach : t.Reaches key j)
    (hslot : t.slot j = .tombstone) : Extends t (t.relocate i j) [] := by
  have hmem := mem_relocate h hi hreach.lt hslot
  refine ⟨wellFormed_relocate h hi hreach hslot, rfl, Nat.le_refl _, fun k hk => ?_, fun _ k hk => ?_, fun htidy => ?_⟩
  · exact .inl ((hmem k).1 hk)
  · exact (hmem k).2 (hk.elim id (by simp))
  · exact absurd hslot (htidy j hreach.lt)

/-! ## Growth -/

variable {look : Table → State → UInt32 → Lookup × Table}

/-- An entry that is put back is a member again, or was dropped. -/
theorem extends_putBack (hlook : Faithful look) (h : t.WellFormed) {entry : UInt32 × State}
    (htag : entry.1 = keyTag entry.2) (hlength : entry.2.length = t.config.keyLength) :
    Extends t (putBack look t entry) [entry.2] := by
  have hh : Fingerprint.tagOf entry.1 = keyTag entry.2 := by rw [htag, tagOf_keyTag]
  have hlooked := hlook t entry.2 entry.1 h hh hlength
  unfold putBack
  split
  · rename_i hp
    exact extends_occupy h hh hlength hp
  · obtain ⟨hext, hfound⟩ := hlooked
    generalize look t entry.2 entry.1 = r at hext hfound
    obtain ⟨answer, t'⟩ := r
    cases answer with
    | inserted => exact hext
    | found =>
      have hkey := hfound.1 rfl
      refine hext.of_mem fun key hk => ?_
      rwa [List.mem_singleton.1 hk]
    | full =>
      have hle := hext.dropped_le
      dsimp only at hle
      refine ⟨hext.wellFormed.with_counters _ _ _ _, hext.config_eq, Nat.le_succ_of_le hle, fun key hk => ?_, ?_,
        hext.tidy⟩
      · exact (hext.mem_or key hk).imp_right (by simp)
      · intro hd
        dsimp only at hd
        omega

theorem extends_foldl_putBack (hlook : Faithful look) (entries : List (UInt32 × State)) {t : Table} (h : t.WellFormed)
    (hentries : ∀ entry ∈ entries, entry.1 = keyTag entry.2 ∧ entry.2.length = t.config.keyLength) :
    Extends t (entries.foldl (putBack look) t) (entries.map Prod.snd) := by
  induction entries generalizing t with
  | nil => exact .refl h
  | cons entry rest ih =>
    obtain ⟨htag, hlength⟩ := hentries entry List.mem_cons_self
    have hfirst := extends_putBack hlook h htag hlength
    refine hfirst.trans (ih hfirst.wellFormed fun entry he => ?_)
    rw [hfirst.config_eq]
    exact hentries entry (List.mem_cons_of_mem _ he)

/-- Growth adds no key, and loses none unless it drops one. -/
theorem extends_growWith (hlook : Faithful look) (h : t.WellFormed) (hlt : t.pow2 < t.config.maxPow2) :
    Extends t (growWith look t) [] := by
  have hfold := extends_foldl_putBack hlook t.staged (wellFormed_doubled h hlt) fun _ => h.of_mem_staged
  have hext : Extends t (t.staged.foldl (putBack look) t.doubled) [] := by
    refine ⟨hfold.wellFormed, hfold.config_eq, hfold.dropped_le, fun key hk => ?_, fun hd key hk => ?_, fun _ => ?_⟩
    · exact .inl ((mem_iff_doubled h key).2 (hfold.mem_or key hk))
    · exact hfold.mem_of hd key ((mem_iff_doubled h key).1 (hk.elim id (by simp)))
    · exact hfold.tidy (tidy_doubled t)
  exact hext.with_counters _ _ _

/-! ## Lookup -/

/-- A member is found, and at most moved. -/
theorem lookupOr_of_mem (h : t.WellFormed) (hh : Fingerprint.tagOf hash = keyTag key) (hk : key ∈ t)
    (grow : Table → Lookup × Table) :
    lookupOr grow t key hash = (.found, t) ∨
      ∃ i j, t.Stores i key ∧ t.Reaches key j ∧ t.slot j = .tombstone ∧
        lookupOr grow t key hash = (.found, t.relocate i j) := by
  obtain ⟨i, tombstone, hp⟩ := (h.mem_iff_probe hh).1 hk
  cases tombstone with
  | none => exact .inl (by rw [lookupOr, hp])
  | some j =>
    obtain ⟨hi, hj, hslot⟩ := movable_of_hit hh hp
    exact .inr ⟨i, j, hi, hj, hslot, by rw [lookupOr, hp]⟩

/-- A lookup does what it should if growth does on keys that are new. -/
theorem looked_lookupOr (h : t.WellFormed) (hh : Fingerprint.tagOf hash = keyTag key)
    (hlength : key.length = t.config.keyLength) {grow : Table → Lookup × Table}
    (hgrow : key ∉ t → Looked t key (grow t)) : Looked t key (lookupOr grow t key hash) := by
  by_cases hk : key ∈ t
  · rcases lookupOr_of_mem h hh hk grow with heq | ⟨i, j, hi, hj, hslot, heq⟩
    · rw [heq]
      exact ⟨.refl h, by simp [hk]⟩
    · rw [heq]
      exact ⟨extends_relocate h hi hj hslot, by simp [hk]⟩
  · unfold lookupOr
    split
    · rename_i hp
      exact absurd ((h.mem_iff_probe hh).2 ⟨_, _, hp⟩) hk
    · rename_i hp
      exact absurd ((h.mem_iff_probe hh).2 ⟨_, _, hp⟩) hk
    · rename_i i onTombstone hp
      split
      · refine ⟨?_, by simp [hk]⟩
        exact (extends_occupy h hh hlength hp).with_counters _ _ _
      · exact hgrow hk
    · exact hgrow hk

theorem looked_full (h : t.WellFormed) (hk : key ∉ t) : Looked t key (.full, t) := ⟨.refl h, by simp [hk]⟩

theorem looked_lookupWithin (n : Nat) : Faithful (lookupWithin n) := by
  induction n with
  | zero =>
    intro t key hash h hh hlength
    exact looked_lookupOr h hh hlength fun hk => looked_full h hk
  | succ n ih =>
    intro t key hash h hh hlength
    refine looked_lookupOr h hh hlength fun hk => ?_
    split
    · rename_i hlt
      have hgrow := extends_growWith ih h hlt
      have hlength' : key.length = (growWith (lookupWithin n) t).config.keyLength := by rw [hgrow.config_eq, hlength]
      obtain ⟨hext, hfound⟩ := ih _ key hash hgrow.wellFormed hh hlength'
      refine ⟨hgrow.trans hext, hfound.trans ?_⟩
      -- growth does not add the key, so it is not found afterwards
      constructor
      · intro hmem
        exact (hgrow.mem_or key hmem).elim id (by simp)
      · intro hmem
        exact absurd hmem hk
    · exact looked_full h hk

theorem looked_lookupHashed (h : t.WellFormed) (hh : Fingerprint.tagOf hash = keyTag key)
    (hlength : key.length = t.config.keyLength) : Looked t key (t.lookupHashed key hash) :=
  looked_lookupWithin _ t key hash h hh hlength

theorem looked_lookupKey (h : t.WellFormed) (hlength : key.length = t.config.keyLength) :
    Looked t key (t.lookupKey key) :=
  looked_lookupHashed h rfl hlength

theorem lookupOrInsert_of_length (hlength : key.length = t.config.keyLength) :
    t.lookupOrInsert key = .ok (t.lookupKey key) := by
  simp [lookupOrInsert, checkLength, hlength, bind, Except.bind, pure, Except.pure]

/-- A lookup of a member leaves the table alone, or moves the entry within it. -/
theorem lookupKey_of_mem (h : t.WellFormed) (hk : key ∈ t) :
    t.lookupKey key = (.found, t) ∨ ∃ i j, t.lookupKey key = (.found, t.relocate i j) := by
  unfold lookupKey
  rw [lookupHashed_eq]
  exact (lookupOr_of_mem h rfl hk _).imp_right fun ⟨i, j, _, _, _, heq⟩ => ⟨i, j, heq⟩

/-- Without tombstones, a lookup of a member leaves the table alone. -/
theorem lookupKey_of_tidy (h : t.WellFormed) (htidy : t.Tidy) (hk : key ∈ t) : t.lookupKey key = (.found, t) := by
  unfold lookupKey
  rw [lookupHashed_eq]
  rcases lookupOr_of_mem h rfl hk _ with heq | ⟨i, j, -, hj, hslot, -⟩
  · exact heq
  · exact absurd hslot (htidy j hj.lt)

/-- Only growth answers that there is no room. -/
theorem lookupOr_of_full {grow : Table → Lookup × Table} (h : (lookupOr grow t key hash).1 = .full) :
    lookupOr grow t key hash = grow t := by
  unfold lookupOr at h ⊢
  split at h
  · simp at h
  · simp at h
  · split at h
    · simp at h
    · rename_i hroom
      rw [if_neg hroom]
  · rfl

/-- A lookup that finds no room has used up all doublings. -/
theorem doublingsLeft_of_full {n : Nat} (h : t.doublingsLeft ≤ n) (hfull : (lookupWithin n t key hash).1 = .full) :
    (lookupWithin n t key hash).2.doublingsLeft = 0 := by
  induction n generalizing t with
  | zero =>
    unfold lookupWithin at hfull ⊢
    rw [lookupOr_of_full hfull]
    exact Nat.le_zero.1 h
  | succ n ih =>
    have hgrown := doublingsLeft_growWith_le (grows_lookupWithin n) t
    unfold lookupWithin at hfull ⊢
    have heq := lookupOr_of_full hfull
    rw [heq] at hfull ⊢
    split at hfull
    · rename_i hlt
      rw [if_pos hlt]
      exact ih (by omega) hfull
    · rename_i hlt
      rw [if_neg hlt]
      show t.doublingsLeft = 0
      unfold doublingsLeft
      omega

/-! ## Resizing -/

/-- Doubling on request adds no key, and loses none unless it drops one. -/
theorem extends_resize (h : t.WellFormed) : Extends t t.resize.2 [] := by
  rw [resize_eq]
  split
  · rename_i hlt
    exact extends_growWith (fun _ _ _ h hh hlength => looked_lookupHashed h hh hlength) h hlt
  · exact .refl h

end

end StateSpace.Table
