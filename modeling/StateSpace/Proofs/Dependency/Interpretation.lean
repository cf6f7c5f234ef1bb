import Mathlib.Tactic.IntervalCases
import StateSpace.Proofs.Dependency.Relations

/-!
# What the dependency matrices mean

An interpretation says when guards hold and what groups assign, over values of the slots. It respects an input if guards
depend on the slots that they test, groups assign slots that they may or must write, and the explicit tables are right.

In every such interpretation, a group that makes a guard true is one of its necessary enabling set (`Respects.nes`), a
group that makes it false is one of its necessary disabling set (`Respects.nds`), and groups that commute by their sets
do commute (`over_approximates`). Groups that accord by the refined relation do not disable each other, and their order
matters only to slots that both assign (`accord_of_not_dna`): that a slot is written by both is not among the reasons
for which the relation holds (`dna_ignores_overwriting`).
-/

namespace StateSpace

universe u

/-- What the guards and the groups of a model mean if its slots have values in `V`. -/
structure Interpretation (V : Type u) where
  /-- The guard holds for these values of the slots. -/
  holds : Nat → (Nat → V) → Prop
  /-- What the group assigns to a slot; `none` if it leaves the slot alone. -/
  assigns : Nat → (Nat → V) → Nat → Option V

namespace Interpretation

open DependencyInput

variable {V : Type u}

/-- The values after a group was executed. -/
def exec (I : Interpretation V) (t : Nat) (s : Nat → V) : Nat → V := fun x => (I.assigns t s x).getD (s x)

/-- All guards of the group hold. -/
def Enabled (I : Interpretation V) (input : DependencyInput) (t : Nat) (s : Nat → V) : Prop :=
  ∀ g ∈ input.guardsOf t, I.holds g s

/-- What the input says of guards and groups is true of their meaning. -/
structure Respects (I : Interpretation V) (input : DependencyInput) : Prop where
  /-- A guard depends on the slots that it tests. -/
  tests : ∀ g < input.guards.length, ∀ s s', (∀ x ∈ input.tests g, s x = s' x) → (I.holds g s ↔ I.holds g s')
  /-- A group assigns only slots that it may or must write. -/
  writes : ∀ t < input.groups.length, ∀ s x, x ∉ input.writes t → I.assigns t s x = none
  /-- Guards that hold together can hold together. -/
  coenabled : ∀ g < input.guards.length, ∀ h < input.guards.length, ∀ s, I.holds g s → I.holds h s →
    input.Coenabled g h
  /-- A group falsifies the guards that it always falsifies. -/
  mustDisable : ∀ g < input.guards.length, ∀ t < input.groups.length, input.MustDisable g t →
    ∀ s, ¬ I.holds g (I.exec t s)

/-- Which slots a group assigns, and the values, depend on the given slots only. -/
def DecidedBy (I : Interpretation V) (input : DependencyInput) (slots : Nat → Set Nat) : Prop :=
  ∀ t < input.groups.length, ∀ s s', (∀ x ∈ slots t, s x = s' x) → I.assigns t s = I.assigns t s'

variable {I : Interpretation V} {input : DependencyInput} {slots slots' : Nat → Set Nat} {g i j t : Nat}

theorem DecidedBy.mono (h : I.DecidedBy input slots) (hsub : ∀ t < input.groups.length, slots t ⊆ slots' t) :
    I.DecidedBy input slots' :=
  fun t ht s s' hsame => h t ht s s' fun x hx => hsame x (hsub t ht hx)

/-! ## One group -/

theorem Respects.exec_eq (h : I.Respects input) (ht : t < input.groups.length) {x : Nat} (hx : x ∉ input.writes t)
    (s : Nat → V) : I.exec t s x = s x := by
  rw [exec, h.writes t ht s x hx, Option.getD_none]

/-- A group leaves the slots of a set alone if it writes none of them. -/
theorem Respects.exec_eq_of_disjoint (h : I.Respects input) (ht : t < input.groups.length) {xs : Set Nat}
    (hxs : input.writes t ∩ xs = ∅) (s : Nat → V) : ∀ x ∈ xs, I.exec t s x = s x := by
  intro x hx
  refine h.exec_eq ht (fun hw => ?_) s
  have hmem : x ∈ input.writes t ∩ xs := ⟨hw, hx⟩
  simp [hxs] at hmem

/-- A guard keeps its truth if the group writes no slot that it tests. -/
theorem Respects.holds_exec_iff (h : I.Respects input) (hg : g < input.guards.length) (ht : t < input.groups.length)
    (hdisjoint : input.writes t ∩ input.tests g = ∅) (s : Nat → V) : I.holds g (I.exec t s) ↔ I.holds g s :=
  h.tests g hg _ _ (h.exec_eq_of_disjoint ht hdisjoint s)

/-- A guard whose truth a group changes tests a slot that the group writes. -/
theorem Respects.overlap (h : I.Respects input) (hg : g < input.guards.length) (ht : t < input.groups.length)
    {s : Nat → V} (hchange : ¬ (I.holds g (I.exec t s) ↔ I.holds g s)) :
    (input.writes t ∩ input.tests g).Nonempty := by
  rw [Set.nonempty_iff_ne_empty]
  exact fun hdisjoint => hchange (h.holds_exec_iff hg ht hdisjoint s)

/-- A group that makes a guard true is in its necessary enabling set. -/
theorem Respects.nes (h : I.Respects input) (hg : g < input.guards.length) (ht : t < input.groups.length)
    {s : Nat → V} (hbefore : ¬ I.holds g s) (hafter : I.holds g (I.exec t s)) : input.Nes g t := by
  refine ⟨h.overlap hg ht fun hiff => hbefore (hiff.1 hafter), fun hdisable => ?_⟩
  exact h.mustDisable g hg t ht hdisable s hafter

/-- A group that is enabled and makes a guard false is in its necessary disabling set. -/
theorem Respects.nds (h : I.Respects input) (hv : input.Valid) (hg : g < input.guards.length)
    (ht : t < input.groups.length) {s : Nat → V} (hbefore : I.holds g s) (henabled : I.Enabled input t s)
    (hafter : ¬ I.holds g (I.exec t s)) : input.Nds g t := by
  refine ⟨h.overlap hg ht fun hiff => hafter (hiff.2 hbefore), fun k hk => ?_⟩
  exact h.coenabled g hg k (hv.guardsOf_lt ht hk) s hbefore (henabled k hk)

/-! ## Two groups -/

/-- A group that is in no necessary disabling set of another's guards leaves it enabled. -/
theorem Respects.enabled_exec (h : I.Respects input) (hv : input.Valid) (hi : i < input.groups.length)
    (hj : j < input.groups.length) (hnds : ∀ g ∈ input.guardsOf j, ¬ input.Nds g i) {s : Nat → V}
    (henabled : I.Enabled input i s) (henabled' : I.Enabled input j s) : I.Enabled input j (I.exec i s) := by
  intro g hg
  by_contra hafter
  exact hnds g hg (h.nds hv (hv.guardsOf_lt hj hg) hi (henabled' g hg) henabled hafter)

/-- Groups whose guards can hold together, and that the refined relation does not relate, do not disable each other, and
neither writes what the actions of the other read. -/
theorem not_mayDisable_of_not_dna (hij : i ≠ j)
    (hco : ∀ g ∈ input.guardsOf i, ∀ k ∈ input.guardsOf j, input.Coenabled g k)
    (hsub : input.actionReads i ⊆ input.reads i) (hsub' : input.actionReads j ⊆ input.reads j)
    (hdna : ¬ input.Dna i j) : ¬ input.MayDisable i j ∧ input.writes i ∩ input.actionReads j = ∅ ∧
      input.actionReads i ∩ input.writes j = ∅ := by
  by_cases hraw : input.DnaRaw i j
  · have hrefined : ¬ (input.MayDisable i j ∨ (input.writes i ∩ input.actionReads j).Nonempty ∨
        (input.actionReads i ∩ input.writes j).Nonempty) := fun hor => hdna (.inr ⟨hraw, hor⟩)
    simpa only [not_or, Set.not_nonempty_iff_eq_empty] using hrefined
  · have hand : input.Commutes i j ∧ ¬ input.MayDisable i j := by
      by_contra hnot
      rw [not_and_or, not_not] at hnot
      exact hraw ⟨hij, hco, hnot⟩
    obtain ⟨⟨hwr, hrw, -⟩, hdisable⟩ := hand
    refine ⟨hdisable, Set.subset_empty_iff.1 ?_, Set.subset_empty_iff.1 ?_⟩
    · exact hwr ▸ Set.inter_subset_inter_right _ hsub'
    · exact hrw ▸ Set.inter_subset_inter_left _ hsub

/-- A group assigns the same after another that writes none of the slots that decide it. -/
theorem Respects.assigns_exec (h : I.Respects input) (hdecided : I.DecidedBy input slots)
    (hi : i < input.groups.length) (hj : j < input.groups.length) (hdisjoint : input.writes i ∩ slots j = ∅)
    (s : Nat → V) : I.assigns j (I.exec i s) = I.assigns j s :=
  hdecided j hj _ _ (h.exec_eq_of_disjoint hi hdisjoint s)

/-- If neither group changes what the other assigns, their order matters exactly to slots to which they assign different
values. -/
theorem exec_comm_iff {s : Nat → V} (hi : I.assigns i (I.exec j s) = I.assigns i s)
    (hj : I.assigns j (I.exec i s) = I.assigns j s) : I.exec j (I.exec i s) = I.exec i (I.exec j s) ↔
      ∀ x v w, I.assigns i s x = some v → I.assigns j s x = some w → v = w := by
  have hvalue (x : Nat) : I.exec j (I.exec i s) x = I.exec i (I.exec j s) x ↔
      ∀ v w, I.assigns i s x = some v → I.assigns j s x = some w → v = w := by
    rw [exec, hj, exec, exec, hi, exec]
    cases I.assigns i s x <;> cases I.assigns j s x <;> simp [eq_comm]
  rw [funext_iff]
  exact forall_congr' hvalue

/-- Groups that do not write the same slots do not assign different values to a slot. -/
theorem Respects.eq_of_assigns (h : I.Respects input) (hi : i < input.groups.length) (hj : j < input.groups.length)
    (hdisjoint : input.writes i ∩ input.writes j = ∅) (s : Nat → V) :
    ∀ x v w, I.assigns i s x = some v → I.assigns j s x = some w → v = w := by
  intro x v w hv hw
  have hmem : x ∈ input.writes i ∩ input.writes j := by
    constructor
    · by_contra hx
      simp [h.writes i hi s x hx] at hv
    · by_contra hx
      simp [h.writes j hj s x hx] at hw
  simp [hdisjoint] at hmem

end Interpretation

namespace DependencyMatrices

open DependencyInput Interpretation

variable {V : Type u} {I : Interpretation V} {input : DependencyInput}

/-- **The relations of one group and one guard, and commutation, miss nothing.** In every interpretation that respects
the input: a group that makes a guard true is in its necessary enabling set; a group that makes a guard false, when the
guards of both hold, is in its necessary disabling set; and groups that commute lead to the same values in both orders
and change no guard of each other. -/
theorem over_approximates (h : input.validate = .ok ()) (hI : I.Respects input) (hreads : I.DecidedBy input input.reads)
    (htests : ∀ t < input.groups.length, ∀ g ∈ input.guardsOf t, input.tests g ⊆ input.reads t) :
    ∃ m, build input = .ok m ∧
      (∀ g < input.guards.length, ∀ t < input.groups.length, ∀ s, ¬ I.holds g s → I.holds g (I.exec t s) →
        m.nes.entry g t = true) ∧
      (∀ g < input.guards.length, ∀ t < input.groups.length, ∀ s, I.holds g s → I.Enabled input t s →
        ¬ I.holds g (I.exec t s) → m.nds.entry g t = true) ∧
      (∀ i < input.groups.length, ∀ j < input.groups.length, m.commutes.entry i j = true → ∀ s,
        I.exec j (I.exec i s) = I.exec i (I.exec j s) ∧
          (∀ g ∈ input.guardsOf j, (I.holds g (I.exec i s) ↔ I.holds g s)) ∧
          (∀ g ∈ input.guardsOf i, (I.holds g (I.exec j s) ↔ I.holds g s))) := by
  have hv := validate_eq_ok_iff.1 h
  obtain ⟨m, hm, hd⟩ := describes_of_valid hv
  refine ⟨m, hm, fun g hg t ht s hbefore hafter => ?_, fun g hg t ht s hbefore henabled hafter => ?_,
    fun i hi j hj hcommutes s => ?_⟩
  · exact (hd.nes.entry_iff_of_lt hg ht).2 (hI.nes hg ht hbefore hafter)
  · exact (hd.nds.entry_iff_of_lt hg ht).2 (hI.nds hv hg ht hbefore henabled hafter)
  · obtain ⟨hwr, hrw, hww⟩ := (hd.commutes.entry_iff_of_lt hi hj).1 hcommutes
    rw [Set.inter_comm] at hrw
    refine ⟨?_, fun g hg => ?_, fun g hg => ?_⟩
    · rw [exec_comm_iff (hI.assigns_exec hreads hj hi hrw s) (hI.assigns_exec hreads hi hj hwr s)]
      exact hI.eq_of_assigns hi hj hww s
    -- what a guard tests its group reads, and the other group does not write it
    · refine hI.holds_exec_iff (hv.guardsOf_lt hj hg) hi ?_ s
      exact Set.subset_empty_iff.1 (hwr ▸ Set.inter_subset_inter_right _ (htests j hj g hg))
    · refine hI.holds_exec_iff (hv.guardsOf_lt hi hg) hj ?_ s
      exact Set.subset_empty_iff.1 (hrw ▸ Set.inter_subset_inter_right _ (htests i hi g hg))

/-- What the guards and groups of `meter` say. -/
def meterMeaning : Interpretation Nat where
  holds
    | 0, s => s 0 < 3
    | 1, s => s 1 = 0
    | _, s => s 1 ≠ 0
  assigns
    | 0, s, x => if x = 0 then some (s 0 + 1) else none
    | 1, s, x => if x = 1 then some (s 0) else none
    | _, _, x => if x = 1 then some 0 else none

theorem respects_meterMeaning : meterMeaning.Respects meter where
  tests := by
    intro g hg s s' hsame
    change g < 3 at hg
    interval_cases g
    · have h0 : s 0 = s' 0 := hsame 0 (by simp [tests, DependencyInput.guard, meter])
      simp [meterMeaning, h0]
    · have h1 : s 1 = s' 1 := hsame 1 (by simp [tests, DependencyInput.guard, meter])
      simp [meterMeaning, h1]
    · have h1 : s 1 = s' 1 := hsame 1 (by simp [tests, DependencyInput.guard, meter])
      simp [meterMeaning, h1]
  writes := by
    intro t ht s x hx
    change t < 3 at ht
    interval_cases t
    · have h0 : x ≠ 0 := by simpa [writes, mustWrites, group, meter] using hx
      simp [meterMeaning, h0]
    · have h1 : x ≠ 1 := by simpa [writes, mustWrites, group, meter] using hx
      simp [meterMeaning, h1]
    · have h1 : x ≠ 1 := by simpa [writes, mustWrites, group, meter] using hx
      simp [meterMeaning, h1]
  coenabled := by
    intro g hg k hk s hgs hks
    change g < 3 at hg
    change k < 3 at hk
    rw [← coenabled_iff]
    interval_cases g <;> interval_cases k <;> first | decide | exact absurd hgs hks | exact absurd hks hgs
  mustDisable := by
    intro g hg t ht hdisable s
    change g < 3 at hg
    change t < 3 at ht
    rw [← mustDisables_iff] at hdisable
    interval_cases g <;> interval_cases t <;> first | exact absurd hdisable (by decide) | simp [meterMeaning, exec]

theorem actionReads_meter_subset : ∀ t < meter.groups.length, meter.actionReads t ⊆ meter.reads t := by
  intro t ht
  change t < 3 at ht
  interval_cases t <;> simp [actionReads, reads, group, meter]

theorem tests_meter_subset : ∀ t < meter.groups.length, ∀ g ∈ meter.guardsOf t, meter.tests g ⊆ meter.reads t := by
  intro t ht g hg
  change t < 3 at ht
  have hgt : g = t := by interval_cases t <;> simpa [guardsOf, group, meter] using hg
  subst hgt
  interval_cases g <;> simp [tests, reads, group, DependencyInput.guard, meter]

theorem decidedBy_meterMeaning : meterMeaning.DecidedBy meter meter.actionReads := by
  intro t ht s s' hsame
  change t < 3 at ht
  interval_cases t
  · have h0 : s 0 = s' 0 := hsame 0 (by simp [actionReads, reads, group, meter])
    funext x
    simp [meterMeaning, h0]
  · have h0 : s 0 = s' 0 := hsame 0 (by simp [actionReads, group, meter])
    funext x
    simp [meterMeaning, h0]
  · rfl

/-- Executing `alarm = level` at level five makes `alarm != 0` true, executing `level++` at level two makes `level < 3`
false, and `level++` and `alarm = 0` commute. -/
theorem over_approximates_meter : meter.validate = .ok () ∧ meterMeaning.Respects meter ∧
    meterMeaning.DecidedBy meter meter.reads ∧
    (∀ t < meter.groups.length, ∀ g ∈ meter.guardsOf t, meter.tests g ⊆ meter.reads t) ∧
    ∃ m, build meter = .ok m ∧ m.nes.entry 2 1 = true ∧ m.nds.entry 0 0 = true ∧ m.commutes.entry 0 2 = true ∧
      ∀ s, meterMeaning.exec 2 (meterMeaning.exec 0 s) = meterMeaning.exec 0 (meterMeaning.exec 2 s) := by
  have hv : meter.validate = .ok () := by decide
  have hreads : meterMeaning.DecidedBy meter meter.reads := decidedBy_meterMeaning.mono actionReads_meter_subset
  refine ⟨hv, respects_meterMeaning, hreads, tests_meter_subset, ?_⟩
  obtain ⟨m, hm, hnes, hnds, hcommutes⟩ := over_approximates hv respects_meterMeaning hreads tests_meter_subset
  have h02 : m.commutes.entry 0 2 = true := eq_of_map_build (f := (·.commutes.entry 0 2)) hm (by decide +kernel)
  refine ⟨m, hm, ?_, ?_, h02, fun s => (hcommutes 0 (by decide) 2 (by decide) h02 s).1⟩
  · refine hnes 2 (by decide) 1 (by decide) (fun x => if x = 0 then 5 else 0) ?_ ?_ <;> simp [meterMeaning, exec]
  · refine hnds 0 (by decide) 0 (by decide) (fun _ => 2) ?_ ?_ ?_
    · simp [meterMeaning]
    · simp [Enabled, guardsOf, group, meter, meterMeaning]
    · simp [meterMeaning, exec]

/-- **Groups that accord.** In every interpretation that respects the input, two different groups that are not related
by the refined relation leave each other enabled, and both orders lead to the same values exactly if they do not assign
different values to one slot; so they do if they do not write the same slots. -/
theorem accord_of_not_dna (h : input.validate = .ok ()) (hI : I.Respects input)
    (hactions : I.DecidedBy input input.actionReads)
    (hsub : ∀ t < input.groups.length, input.actionReads t ⊆ input.reads t) :
    ∃ m, build input = .ok m ∧
      ∀ i < input.groups.length, ∀ j < input.groups.length, i ≠ j → m.dna.entry i j = false →
        ∀ s, I.Enabled input i s → I.Enabled input j s →
          I.Enabled input j (I.exec i s) ∧ I.Enabled input i (I.exec j s) ∧
            (I.exec j (I.exec i s) = I.exec i (I.exec j s) ↔
              ∀ x v w, I.assigns i s x = some v → I.assigns j s x = some w → v = w) ∧
            (input.writes i ∩ input.writes j = ∅ → I.exec j (I.exec i s) = I.exec i (I.exec j s)) := by
  have hv := validate_eq_ok_iff.1 h
  obtain ⟨m, hm, hd⟩ := describes_of_valid hv
  refine ⟨m, hm, fun i hi j hj hij hdna s henabled henabled' => ?_⟩
  have hnot : ¬ input.Dna i j := by
    rw [← hd.dna.entry_iff_of_lt hi hj, hdna]
    simp
  have hco : ∀ g ∈ input.guardsOf i, ∀ k ∈ input.guardsOf j, input.Coenabled g k := fun g hg k hk =>
    hI.coenabled g (hv.guardsOf_lt hi hg) k (hv.guardsOf_lt hj hk) s (henabled g hg) (henabled' k hk)
  obtain ⟨hdisable, hwa, haw⟩ := not_mayDisable_of_not_dna hij hco (hsub i hi) (hsub j hj) hnot
  rw [Set.inter_comm] at haw
  have hiff := exec_comm_iff (hI.assigns_exec hactions hj hi haw s) (hI.assigns_exec hactions hi hj hwa s)
  refine ⟨?_, ?_, hiff, fun hdisjoint => hiff.2 (hI.eq_of_assigns hi hj hdisjoint s)⟩
  · exact hI.enabled_exec hv hi hj (fun g hg hnds => hdisable (.inr ⟨g, hg, hnds⟩)) henabled henabled'
  · exact hI.enabled_exec hv hj hi (fun g hg hnds => hdisable (.inl ⟨g, hg, hnds⟩)) henabled' henabled

/-- `level++` and `alarm = 0` accord where both are enabled. -/
theorem accord_of_not_dna_meter : meter.validate = .ok () ∧ meterMeaning.Respects meter ∧
    meterMeaning.DecidedBy meter meter.actionReads ∧
    (∀ t < meter.groups.length, meter.actionReads t ⊆ meter.reads t) ∧
    ∃ m, build meter = .ok m ∧ m.dna.entry 0 2 = false ∧ ∃ s, meterMeaning.Enabled meter 0 s ∧
      meterMeaning.Enabled meter 2 s ∧ meterMeaning.Enabled meter 2 (meterMeaning.exec 0 s) ∧
      meterMeaning.Enabled meter 0 (meterMeaning.exec 2 s) ∧
      meterMeaning.exec 2 (meterMeaning.exec 0 s) = meterMeaning.exec 0 (meterMeaning.exec 2 s) := by
  have hv : meter.validate = .ok () := by decide
  refine ⟨hv, respects_meterMeaning, decidedBy_meterMeaning, actionReads_meter_subset, ?_⟩
  obtain ⟨m, hm, haccord⟩ :=
    accord_of_not_dna hv respects_meterMeaning decidedBy_meterMeaning actionReads_meter_subset
  have h02 : m.dna.entry 0 2 = false := eq_of_map_build (f := (·.dna.entry 0 2)) hm (by decide +kernel)
  have henabled : meterMeaning.Enabled meter 0 fun _ => 2 := by simp [Enabled, guardsOf, group, meter, meterMeaning]
  have henabled' : meterMeaning.Enabled meter 2 fun _ => 2 := by simp [Enabled, guardsOf, group, meter, meterMeaning]
  obtain ⟨hafter, hafter', -, hcomm⟩ :=
    haccord 0 (by decide) 2 (by decide) (by decide) h02 (fun _ => 2) henabled henabled'
  refine ⟨m, hm, h02, fun _ => 2, henabled, henabled', hafter, hafter', hcomm ?_⟩
  ext x
  simp [writes, mustWrites, group, meter]

/-- Two groups that write the same slot and read nothing. -/
def overwriting : DependencyInput where
  slots := ["x"]
  groups := [{ name := "x = 1", mustWrite := [0] }, { name := "x = 2", mustWrite := [0] }]

/-- What the groups of `overwriting` say. -/
def overwritingMeaning : Interpretation Nat where
  holds _ _ := True
  assigns t _ x := if x = 0 then some (t + 1) else none

/-- The refined relation does not relate two groups that write the same slot and read nothing, and their order matters.
-/
theorem dna_ignores_overwriting : overwriting.validate = .ok () ∧ overwritingMeaning.Respects overwriting ∧
    overwritingMeaning.DecidedBy overwriting overwriting.actionReads ∧
    (∀ t < overwriting.groups.length, overwriting.actionReads t ⊆ overwriting.reads t) ∧
    ∃ m, build overwriting = .ok m ∧ m.dna.entry 0 1 = false ∧ ∃ s, overwritingMeaning.Enabled overwriting 0 s ∧
      overwritingMeaning.Enabled overwriting 1 s ∧ overwritingMeaning.exec 1 (overwritingMeaning.exec 0 s) ≠
        overwritingMeaning.exec 0 (overwritingMeaning.exec 1 s) := by
  have hv : overwriting.validate = .ok () := by decide
  refine ⟨hv, ⟨?_, ?_, ?_, ?_⟩, fun _ _ _ _ _ => rfl, ?_, ?_⟩
  · exact fun _ _ _ _ _ => Iff.rfl
  · intro t ht s x hx
    change t < 2 at ht
    have h0 : x ≠ 0 := by interval_cases t <;> simpa [writes, mustWrites, group, overwriting] using hx
    simp [overwritingMeaning, h0]
  · exact fun _ _ _ _ _ _ _ => trivial
  · exact fun _ _ _ _ hdisable => hdisable.elim
  · intro t ht
    change t < 2 at ht
    interval_cases t <;> exact Set.Subset.rfl
  · obtain ⟨m, hm, -⟩ := describes_of_valid (validate_eq_ok_iff.1 hv)
    have h01 : m.dna.entry 0 1 = false := eq_of_map_build (f := (·.dna.entry 0 1)) hm (by decide +kernel)
    refine ⟨m, hm, h01, fun _ => 0, fun _ _ => trivial, fun _ _ => trivial, fun hcomm => ?_⟩
    have hx : 2 = 1 := congrFun hcomm 0
    omega

end DependencyMatrices

end StateSpace
