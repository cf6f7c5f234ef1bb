import Mathlib.Algebra.Ring.Nat
import StateSpace.Proofs.Table.LoadBound

/-!
# Growth ends, and is counted

A lookup starts again after every growth, a growth puts entries back, and an entry that finds its windows packed is
looked up. Nothing in this recursion says how often it goes round, so here it is written without a bound
(`lookupFreely`, `resizeFreely`, `putBackFreely`), as a fixpoint in `Counting`: no value is a recursion without end.
It counts every doubling when it is made.

The recursion ends on every table, with the result of the lookup or the growth that has a bound, and with as many
doublings as there are between the capacities (`ends_lookupFreely`, `ends_resizeFreely`): each of them leaves one
doubling less to everything that comes after it, be it inside or behind the growth. The table itself counts a growth
only when it is over, so its counter is wrong while growths are nested; when the outermost is over, it has counted them
all. So between operations the capacity is the initial one, doubled as often as the counter says (`growth_ends`).
-/

namespace StateSpace.Table

/-- A recursion that counts its doublings, and may go on for ever. -/
abbrev Counting := StateT Nat Option

mutual

/-- Looks a key up at the present capacity, and starts again as long as that finds no room and the table grows. -/
def lookupFreely (t : Table) (key : State) (hash : UInt32) : Counting (Lookup × Table) := do
  match lookupOr (fun t => (.full, t)) t key hash with
  | (.full, _) =>
    let (grown, t) ← t |>.resizeFreely
    if grown then t |>.lookupFreely key hash else return (.full, t)
  | result => return result
partial_fixpoint

/-- Doubles the capacity and puts back what had to be taken out, unless the capacity is the largest. -/
def resizeFreely (t : Table) : Counting (Bool × Table) := do
  if t.pow2 < t.config.maxPow2 then
    modify (· + 1)
    let t' ← t.staged.foldlM (fun t entry => t |>.putBackFreely entry) t.doubled
    return (true, { t' with resizes := t'.resizes + 1 })
  else return (false, t)
partial_fixpoint

/-- Puts an entry back; if its windows are packed it is looked up, and dropped if that finds no room. -/
def putBackFreely (t : Table) (entry : UInt32 × State) : Counting Table := do
  match t.probe entry.2 entry.1 with
  | .vacant slot _ => return t.occupy slot entry.2 entry.1
  | _ =>
    match ← t |>.lookupFreely entry.2 entry.1 with
    | (.full, t) => return { t with dropped := t.dropped + 1 }
    | (_, t) => return t
partial_fixpoint

end

/-! ## Counted doublings -/

/-- The capacity of `t'` is that of `t`, doubled `d` times, and `t'` has counted `d` growths more. -/
structure Grown (d : Nat) (t t' : Table) : Prop where
  config_eq : t'.config = t.config
  pow2_eq : t'.pow2 = t.pow2 + d
  resizes_eq : t'.resizes = t.resizes + d

theorem Grown.refl (t : Table) : Grown 0 t t := ⟨rfl, rfl, rfl⟩

theorem Grown.trans {d d' : Nat} {t t' t'' : Table} (h : Grown d t t') (h' : Grown d' t' t'') :
    Grown (d + d') t t'' := by
  refine ⟨h'.config_eq.trans h.config_eq, ?_, ?_⟩
  · rw [h'.pow2_eq, h.pow2_eq, Nat.add_assoc]
  · rw [h'.resizes_eq, h.resizes_eq, Nat.add_assoc]

theorem Grown.follows {d : Nat} {t t' : Table} (h : Grown d t t') : Follows t t' :=
  ⟨h.config_eq, by rw [h.pow2_eq]; exact Nat.le_add_right _ _⟩

/-- Started with table `t`, the recursion ends with the given result and table, and has counted the doublings between
the two tables. -/
def Ends {α : Type} (t : Table) (m : Counting α) (result : α) (t' : Table) : Prop :=
  ∃ d, Grown d t t' ∧ ∀ count, m.run count = some (result, count + d)

section

variable {α β : Type} {t t' t'' : Table}

/-- A recursion that goes no further has doubled nothing. -/
theorem ends_pure {result : α} (h : Grown 0 t t') : Ends t (pure result) result t' := ⟨0, h, fun _ => rfl⟩

/-- What comes after a recursion adds its doublings. -/
theorem Ends.bind {m : Counting α} {f : α → Counting β} {result : α} {result' : β} (h : Ends t m result t')
    (h' : Ends t' (f result) result' t'') : Ends t (m >>= f) result' t'' := by
  obtain ⟨d, hgrown, hrun⟩ := h
  obtain ⟨d', hgrown', hrun'⟩ := h'
  refine ⟨d + d', hgrown.trans hgrown', fun count => ?_⟩
  rw [StateT.run_bind, hrun, ← Nat.add_assoc]
  exact hrun' _

end

/-! ## The recursion ends -/

/-- On tables with at most `n` doublings left, the recursion ends with the result of the lookup. -/
def EndsUpTo (n : Nat) : Prop :=
  ∀ (t : Table) (key : State) (hash : UInt32), t.doublingsLeft ≤ n →
    Ends t (t.lookupFreely key hash) (t.lookupHashed key hash) (t.lookupHashed key hash).2

section

variable {n : Nat} {t : Table}

theorem ends_putBackFreely (hlook : EndsUpTo n) (hn : t.doublingsLeft ≤ n) (entry : UInt32 × State) :
    Ends t (t.putBackFreely entry) (putBack lookupHashed t entry) (putBack lookupHashed t entry) := by
  have hlooked := hlook t entry.2 entry.1 hn
  rw [putBackFreely]
  unfold putBack
  cases t.probe entry.2 entry.1 with
  | vacant slot onTombstone => exact ends_pure ⟨rfl, rfl, rfl⟩
  | hit | exhausted =>
    refine hlooked.bind ?_
    generalize t.lookupHashed entry.2 entry.1 = r
    obtain ⟨answer, t'⟩ := r
    cases answer with
    | inserted | found => exact ends_pure (.refl t')
    | full => exact ends_pure ⟨rfl, rfl, rfl⟩

theorem ends_foldlM_putBackFreely (hlook : EndsUpTo n) (entries : List (UInt32 × State)) {t : Table}
    (hn : t.doublingsLeft ≤ n) : Ends t (entries.foldlM putBackFreely t) (entries.foldl (putBack lookupHashed) t)
      (entries.foldl (putBack lookupHashed) t) := by
  induction entries generalizing t with
  | nil => exact ends_pure (.refl t)
  | cons entry rest ih =>
    have hfirst := ends_putBackFreely hlook hn entry
    have hle := (follows_putBack grows_lookupHashed t entry).doublingsLeft_le
    rw [List.foldlM_cons, List.foldl_cons]
    exact hfirst.bind (ih (Nat.le_trans hle hn))

/-- One doubling, and those that it takes to put the entries back. -/
theorem ends_resizeFreely (hlook : EndsUpTo n) (hn : t.doublingsLeft ≤ n + 1) :
    Ends t t.resizeFreely t.resize t.resize.2 := by
  rw [resizeFreely, resize_eq]
  split
  · have hleft : t.doubled.doublingsLeft ≤ n := by
      rw [doublingsLeft_doubled]
      omega
    obtain ⟨d, hgrown, hrun⟩ := ends_foldlM_putBackFreely hlook t.staged hleft
    have hpow2 : t.doubled.pow2 = t.pow2 + 1 := rfl
    refine ⟨1 + d, ⟨hgrown.config_eq, ?_, ?_⟩, fun count => ?_⟩
    · rw [← Nat.add_assoc, ← hpow2]
      exact hgrown.pow2_eq
    · -- the growth itself is counted last
      rw [Nat.add_comm 1 d, ← Nat.add_assoc]
      exact congrArg (· + 1) hgrown.resizes_eq
    · rw [← Nat.add_assoc]
      simp only [StateT.run_bind, StateT.run_modify, Option.pure_def, Option.bind_eq_bind, Option.bind_some, hrun]
      rfl
  · exact ends_pure (.refl t)

/-- A lookup ends if growth and what comes after it end, where the present capacity has no room. -/
theorem ends_lookupFreely_of_grow {key : State} {hash : UInt32} {grow : Table → Lookup × Table}
    (hgrow : Ends t (t.resizeFreely >>= fun (grown, t) =>
      if grown then t.lookupFreely key hash else return (.full, t)) (grow t) (grow t).2) :
    Ends t (t.lookupFreely key hash) (lookupOr grow t key hash) (lookupOr grow t key hash).2 := by
  rw [lookupFreely]
  unfold lookupOr
  cases t.probe key hash with
  | hit slot tombstone =>
    cases tombstone with
    | none => exact ends_pure (.refl t)
    | some tombstone => exact ends_pure ⟨rfl, rfl, rfl⟩
  | vacant slot onTombstone =>
    by_cases hroom : t.hasRoom = true
    · simp only [if_pos hroom]
      exact ends_pure ⟨rfl, rfl, rfl⟩
    · simp only [if_neg hroom]
      exact hgrow
  | exhausted => exact hgrow

theorem ends_lookupFreely (n : Nat) : EndsUpTo n := by
  induction n with
  | zero =>
    intro t key hash hn
    have hmax := doublingsLeft_eq_zero_iff.1 (Nat.le_zero.1 hn)
    rw [lookupHashed_eq]
    refine ends_lookupFreely_of_grow ?_
    rw [resizeFreely, if_neg hmax, if_neg hmax]
    exact ends_pure (.refl t)
  | succ n ih =>
    intro t key hash hn
    by_cases hlt : t.pow2 < t.config.maxPow2
    · have hresize := ends_resizeFreely ih hn
      have hleft := doublingsLeft_growWith_le grows_lookupHashed t
      rw [resize_eq, if_pos hlt] at hresize
      rw [lookupHashed_eq]
      refine ends_lookupFreely_of_grow ?_
      rw [if_pos hlt]
      exact hresize.bind (ih (growWith lookupHashed t) key hash (by omega))
    · have hleft := doublingsLeft_eq_zero_iff.2 hlt
      exact ih t key hash (by omega)

end

/-! ## Operations -/

variable {t : Table}

/-- Every operation but clearing keeps count of its doublings. -/
theorem grown_act (t : Table) {op : Op} (hop : op ≠ .clear) : ∃ d, Grown d t (t.act op).2 := by
  cases op with
  | insert key =>
    obtain ⟨d, hgrown, -⟩ := ends_lookupFreely _ t key (Hash.ofState key 0) (Nat.le_refl _)
    exact ⟨d, hgrown⟩
  | contains key => exact ⟨0, .refl t⟩
  | remove key =>
    refine ⟨0, ?_⟩
    show Grown 0 t (t.removeKey key).2
    unfold removeKey
    split
    · exact ⟨rfl, rfl, rfl⟩
    · exact .refl t
  | resize =>
    obtain ⟨d, hgrown, -⟩ := ends_resizeFreely (ends_lookupFreely _) (Nat.le_succ t.doublingsLeft)
    exact ⟨d, hgrown⟩
  | clear => exact absurd rfl hop

theorem grown_apply (t : Table) {op : Op} (hop : op ≠ .clear) : ∃ d, Grown d t (t.apply op).2 := by
  unfold apply
  split
  · exact ⟨0, .refl t⟩
  · exact grown_act t hop

/-- The doublings of a history add up. -/
theorem grown_run (ops : List Op) (hops : .clear ∉ ops) (t : Table) : ∃ d, Grown d t (t.run ops).2 := by
  induction ops generalizing t with
  | nil => exact ⟨0, .refl t⟩
  | cons op rest ih =>
    rw [List.mem_cons, not_or] at hops
    obtain ⟨d, hgrown⟩ := grown_apply t (Ne.symm hops.1)
    unfold run
    split
    · rename_i heq
      rw [heq] at hgrown
      exact ⟨d, hgrown⟩
    · rename_i heq
      rw [heq] at hgrown
      obtain ⟨d', hgrown'⟩ := ih hops.2 _
      exact ⟨d + d', hgrown.trans hgrown'⟩

/-- Since the last clear, the capacity was doubled as often as the table has counted. -/
theorem Reachable.pow2_eq (h : t.Reachable) : t.pow2 = t.config.initialPow2 + t.resizes := by
  induction h with
  | create hc =>
    obtain ⟨-, rfl⟩ := create_eq_ok hc
    rfl
  | @apply t op ht ih =>
    by_cases hop : op = .clear
    · subst hop
      rfl
    · obtain ⟨d, hgrown⟩ := grown_apply t hop
      rw [hgrown.pow2_eq, hgrown.config_eq, hgrown.resizes_eq, ih, Nat.add_assoc]

theorem log2_capacity (t : Table) : Nat.log2 t.capacity = t.pow2 := by
  rw [capacity, Nat.one_shiftLeft, Nat.log2_two_pow]

/-- No more doublings were made than were left. -/
theorem Grown.le {d : Nat} {t' : Table} (h : Grown d t t') (ht : t'.WellFormed) :
    d ≤ t.config.maxPow2 - Nat.log2 t.capacity := by
  have hle := ht.pow2_le
  rw [h.config_eq, h.pow2_eq] at hle
  rw [log2_capacity]
  omega

/-- **Growth ends, and is counted.** In a table in use, a lookup and a growth come to an end, however often the lookup
starts again and growth happens within growth, and give the result that they give with a bound. Neither of them makes
more doublings than there are from the capacity to the largest one, nor do all operations together until the table is
cleared, and each of the doublings is counted. So the capacity is the initial one, doubled as often as the counter says,
and never above the largest; clearing resets both. -/
theorem growth_ends (h : t.Reachable) :
    (∀ key, key.length = t.config.keyLength → ∃ d ≤ t.config.maxPow2 - Nat.log2 t.capacity,
      (t.lookupFreely key (Hash.ofState key 0)).run 0 = some (t.lookupKey key, d) ∧
        (t.lookupKey key).2.stats.resizes = t.stats.resizes + d) ∧
    (∃ d ≤ t.config.maxPow2 - Nat.log2 t.capacity,
      t.resizeFreely.run 0 = some (t.resize, d) ∧ t.resize.2.stats.resizes = t.stats.resizes + d) ∧
    (∀ ops, .clear ∉ ops → ∃ d ≤ t.config.maxPow2 - Nat.log2 t.capacity,
      (t.run ops).2.stats.resizes = t.stats.resizes + d) ∧
    t.stats.capacity = t.config.initialCapacity * 2 ^ t.stats.resizes ∧
    t.config.initialCapacity ≤ t.stats.capacity ∧ t.stats.capacity ≤ t.config.maxCapacity ∧
    t.clear.stats.capacity = t.config.initialCapacity ∧ t.clear.stats.resizes = 0 := by
  have hwf := h.wellFormed
  have hcap : t.capacity = t.config.initialCapacity * 2 ^ t.resizes := by
    rw [capacity, Config.initialCapacity, h.pow2_eq, Nat.one_shiftLeft, Nat.one_shiftLeft, Nat.pow_add]
  refine ⟨fun key hlength => ?_, ?_, fun ops hops => ?_, hcap, ?_, hwf.capacity_le_max, rfl, rfl⟩
  · obtain ⟨d, hgrown, hrun⟩ := ends_lookupFreely _ t key (Hash.ofState key 0) (Nat.le_refl _)
    refine ⟨d, hgrown.le (looked_lookupKey hwf hlength).extends_.wellFormed, ?_, hgrown.resizes_eq⟩
    rw [hrun, Nat.zero_add]
    rfl
  · obtain ⟨d, hgrown, hrun⟩ := ends_resizeFreely (ends_lookupFreely _) (Nat.le_succ t.doublingsLeft)
    refine ⟨d, hgrown.le (extends_resize hwf).wellFormed, ?_, hgrown.resizes_eq⟩
    rw [hrun, Nat.zero_add]
  · obtain ⟨d, hgrown⟩ := grown_run ops hops t
    exact ⟨d, hgrown.le (h.run ops).wellFormed, hgrown.resizes_eq⟩
  · show t.config.initialCapacity ≤ t.capacity
    rw [hcap]
    exact Nat.le_mul_of_pos_right _ (Nat.two_pow_pos _)

/-- Six members in eight slots have no room for one more, and the largest capacity is sixteen. -/
theorem growth_ends_brimming : brimming.Reachable ∧ .clear ∉ [Op.insert [15], .resize, .insert [16]] ∧
    (brimming.lookupFreely [15] (Hash.ofState [15] 0)).run 0 = some (brimming.lookupKey [15], 1) ∧
    brimming.resizeFreely.run 0 = some (brimming.resize, 1) ∧ brimming.stats.capacity = 1 * 2 ^ 3 ∧
    (brimming.run [.insert [15], .resize, .insert [16]]).2.stats.resizes ≤ 3 + 1 := by
  have hc : Table.create ⟨1, 0, 4⟩ = .ok (empty ⟨1, 0, 4⟩) := by decide
  have hreach : brimming.Reachable := (Reachable.create hc).run _
  have hops : .clear ∉ [Op.insert [15], .resize, .insert [16]] := by decide
  have hleft : brimming.config.maxPow2 - Nat.log2 brimming.capacity = 1 := by decide +kernel
  have hcount : brimming.stats.resizes = 3 := by decide +kernel
  have hinitial : brimming.config.initialCapacity = 1 := by decide +kernel
  obtain ⟨hlookup, ⟨d', -, hresize, heq'⟩, hrun, hcap, -⟩ := growth_ends hreach
  obtain ⟨d, -, hlook, heq⟩ := hlookup [15] (by decide +kernel)
  obtain ⟨d'', hle, heq''⟩ := hrun _ hops
  have hd : (brimming.lookupKey [15]).2.stats.resizes = 4 := by decide +kernel
  have hd' : brimming.resize.2.stats.resizes = 4 := by decide +kernel
  obtain rfl : d = 1 := by omega
  obtain rfl : d' = 1 := by omega
  rw [hcount, hinitial] at hcap
  exact ⟨hreach, hops, hlook, hresize, hcap, by omega⟩

end StateSpace.Table
