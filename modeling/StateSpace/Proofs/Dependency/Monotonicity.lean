import Mathlib.Tactic.IntervalCases
import StateSpace.Proofs.Dependency.Relations

/-!
# Over-approximated inputs

One input over-approximates another if groups read and write at least the same slots and guards test them, guards can
hold together at least in the same pairs, and groups always falsify at most the same guards. Then every dependency that
is derived of the first is derived of the second, and two groups that commute by the second commute by the first
(`build_mono`).

The tables count with opposite signs: a mark of `mustDisable` takes dependencies away, and one of `mayBeCoenabled` adds
them. Absent tables are the roughest.
-/

namespace StateSpace

/-! ## Matrices with at least the same entries -/

namespace BitMatrix

/-- What is related in the first matrix is related in the second. -/
instance : HasSubset BitMatrix := ⟨fun m m' => ∀ r c, m.entry r c = true → m'.entry r c = true⟩

theorem Represents.subset {m m' : BitMatrix} {rows cols : Nat} {related related' : Nat → Nat → Prop}
    (h : m.Represents rows cols related) (h' : m'.Represents rows cols related')
    (hsub : ∀ r < rows, ∀ c < cols, related r c → related' r c) : m ⊆ m' := by
  intro r c hentry
  obtain ⟨hr, hc, hrelated⟩ := (h.entry_iff r c).1 hentry
  exact (h'.entry_iff r c).2 ⟨hr, hc, hsub r hr c hc hrelated⟩

end BitMatrix

/-! ## Over-approximation -/

namespace DependencyInput

/-- The second input over-approximates the first: the numbers of slots, groups and guards and the guards of each group
are the same, and everything else may be rougher. -/
structure ApproximatedBy (input input' : DependencyInput) : Prop where
  slots_eq : input'.slots.length = input.slots.length
  groups_eq : input'.groups.length = input.groups.length
  guards_eq : input'.guards.length = input.guards.length
  guardsOf_eq : ∀ t < input.groups.length, input'.guardsOf t = input.guardsOf t
  reads : ∀ t < input.groups.length, input.reads t ⊆ input'.reads t
  writes : ∀ t < input.groups.length, input.writes t ⊆ input'.writes t
  actionReads : ∀ t < input.groups.length, input.actionReads t ⊆ input'.actionReads t
  tests : ∀ g < input.guards.length, input.tests g ⊆ input'.tests g
  coenabled : ∀ g < input.guards.length, ∀ h < input.guards.length, input.Coenabled g h → input'.Coenabled g h
  mustDisable : ∀ g < input.guards.length, ∀ t < input.groups.length, input'.MustDisable g t → input.MustDisable g t

namespace ApproximatedBy

variable {input input' : DependencyInput} (h : input.ApproximatedBy input') {g i j t : Nat}

include h

/-- A group that writes a tested slot still does. -/
theorem writesTested (hg : g < input.guards.length) (ht : t < input.groups.length)
    (hmeet : (input.writes t ∩ input.tests g).Nonempty) : (input'.writes t ∩ input'.tests g).Nonempty :=
  hmeet.mono (Set.inter_subset_inter (h.writes t ht) (h.tests g hg))

theorem nes (hg : g < input.guards.length) (ht : t < input.groups.length) (hnes : input.Nes g t) : input'.Nes g t :=
  ⟨h.writesTested hg ht hnes.1, fun hdisable => hnes.2 (h.mustDisable g hg t ht hdisable)⟩

/-- Groups that do not touch each other's slots by the rougher sets do not by the sharper. -/
theorem commutes (hi : i < input.groups.length) (hj : j < input.groups.length) (hcommutes : input'.Commutes i j) :
    input.Commutes i j := by
  obtain ⟨hwr, hrw, hww⟩ := hcommutes
  refine ⟨Set.subset_empty_iff.1 ?_, Set.subset_empty_iff.1 ?_, Set.subset_empty_iff.1 ?_⟩
  · exact hwr ▸ Set.inter_subset_inter (h.writes i hi) (h.reads j hj)
  · exact hrw ▸ Set.inter_subset_inter (h.reads i hi) (h.writes j hj)
  · exact hww ▸ Set.inter_subset_inter (h.writes i hi) (h.writes j hj)

/-- One of the groups still writes what the actions of the other read. -/
theorem feedsActions (hi : i < input.groups.length) (hj : j < input.groups.length)
    (hfeeds : (input.writes i ∩ input.actionReads j).Nonempty ∨ (input.actionReads i ∩ input.writes j).Nonempty) :
    (input'.writes i ∩ input'.actionReads j).Nonempty ∨ (input'.actionReads i ∩ input'.writes j).Nonempty := by
  refine hfeeds.imp ?_ ?_
  · exact Set.Nonempty.mono (Set.inter_subset_inter (h.writes i hi) (h.actionReads j hj))
  · exact Set.Nonempty.mono (Set.inter_subset_inter (h.actionReads i hi) (h.writes j hj))

variable (hv : input.Valid)

include hv

/-- All guards of a group can still hold together with a guard. -/
theorem coenabled_guardsOf (hg : g < input.guards.length) (ht : t < input.groups.length)
    (hco : ∀ k ∈ input.guardsOf t, input.Coenabled g k) : ∀ k ∈ input'.guardsOf t, input'.Coenabled g k := by
  rw [h.guardsOf_eq t ht]
  exact fun k hk => h.coenabled g hg k (hv.guardsOf_lt ht hk) (hco k hk)

theorem nds (hg : g < input.guards.length) (ht : t < input.groups.length) (hnds : input.Nds g t) : input'.Nds g t :=
  ⟨h.writesTested hg ht hnds.1, h.coenabled_guardsOf hv hg ht hnds.2⟩

theorem mayDisable (hi : i < input.groups.length) (hj : j < input.groups.length) (hdisable : input.MayDisable i j) :
    input'.MayDisable i j := by
  unfold MayDisable at hdisable ⊢
  rw [h.guardsOf_eq i hi, h.guardsOf_eq j hj]
  refine hdisable.imp ?_ ?_
  · rintro ⟨g, hg, hnds⟩
    exact ⟨g, hg, h.nds hv (hv.guardsOf_lt hi hg) hj hnds⟩
  · rintro ⟨g, hg, hnds⟩
    exact ⟨g, hg, h.nds hv (hv.guardsOf_lt hj hg) hi hnds⟩

theorem dnaRaw (hi : i < input.groups.length) (hj : j < input.groups.length) (hraw : input.DnaRaw i j) :
    input'.DnaRaw i j := by
  obtain ⟨hij, hco, hconflict⟩ := hraw
  refine ⟨hij, ?_, hconflict.imp (mt (h.commutes hi hj)) (h.mayDisable hv hi hj)⟩
  rw [h.guardsOf_eq i hi]
  exact fun g hg => h.coenabled_guardsOf hv (hv.guardsOf_lt hi hg) hj (hco g hg)

theorem dna (hi : i < input.groups.length) (hj : j < input.groups.length) (hdna : input.Dna i j) : input'.Dna i j := by
  refine hdna.imp_right ?_
  rintro ⟨hraw, hconflict⟩
  exact ⟨h.dnaRaw hv hi hj hraw, hconflict.imp (h.mayDisable hv hi hj) (h.feedsActions hi hj)⟩

theorem dnb (hi : i < input.groups.length) (hj : j < input.groups.length) (hdnb : input.Dnb i j) : input'.Dnb i j := by
  obtain ⟨hdisable, hor⟩ := hdnb
  unfold Dnb
  rw [h.guardsOf_eq i hi]
  refine ⟨fun g hg hg' => ?_, hor.imp (h.dna hv hi hj) ?_⟩
  · exact hdisable g hg (h.mustDisable g (hv.guardsOf_lt hi hg) j hj hg')
  · rintro ⟨g, hg, hnes⟩
    exact ⟨g, hg, h.nes (hv.guardsOf_lt hi hg) hj hnes⟩

end ApproximatedBy

end DependencyInput

/-! ## Building -/

namespace DependencyMatrices

open DependencyInput

variable {input input' : DependencyInput}

/-- The matrices of a rougher input are those of its relations on the indices of the sharper one. -/
theorem Describes.subset {m m' : DependencyMatrices} (hd : m.Describes input) (hd' : m'.Describes input')
    (hv : input.Valid) (happrox : input.ApproximatedBy input') :
    m.nes ⊆ m'.nes ∧ m.nds ⊆ m'.nds ∧ m'.commutes ⊆ m.commutes ∧ m.dnaRaw ⊆ m'.dnaRaw ∧ m.dna ⊆ m'.dna ∧
      m.dnb ⊆ m'.dnb := by
  obtain ⟨-, hnes', hnds', hcommutes', hraw', hdna', hdnb'⟩ := hd'
  rw [happrox.guards_eq, happrox.groups_eq] at hnes' hnds'
  rw [happrox.groups_eq] at hcommutes' hraw' hdna' hdnb'
  refine ⟨?_, ?_, ?_, ?_, ?_, ?_⟩
  · exact hd.nes.subset hnes' fun g hg t ht => happrox.nes hg ht
  · exact hd.nds.subset hnds' fun g hg t ht => happrox.nds hv hg ht
  · exact hcommutes'.subset hd.commutes fun i hi j hj => happrox.commutes hi hj
  · exact hd.dnaRaw.subset hraw' fun i hi j hj => happrox.dnaRaw hv hi hj
  · exact hd.dna.subset hdna' fun i hi j hj => happrox.dna hv hi hj
  · exact hd.dnb.subset hdnb' fun i hi j hj => happrox.dnb hv hi hj

/-- **Over-approximating an input loses no dependency.** Both inputs have matrices; what the sharper one's derived
relations relate is related by the rougher one's, but for commutation, where it is the other way round. -/
theorem build_mono (h : input.validate = .ok ()) (h' : input'.validate = .ok ())
    (happrox : input.ApproximatedBy input') :
    ∃ m m', build input = .ok m ∧ build input' = .ok m' ∧ m.nes ⊆ m'.nes ∧ m.nds ⊆ m'.nds ∧
      m'.commutes ⊆ m.commutes ∧ m.dnaRaw ⊆ m'.dnaRaw ∧ m.dna ⊆ m'.dna ∧ m.dnb ⊆ m'.dnb := by
  have hv := validate_eq_ok_iff.1 h
  obtain ⟨m, hm, hd⟩ := describes_of_valid hv
  obtain ⟨m', hm', hd'⟩ := describes_of_valid (validate_eq_ok_iff.1 h')
  exact ⟨m, m', hm, hm', hd.subset hd' hv happrox⟩

/-- `meter` without its tables, with groups that may write both slots, and nothing known of their actions. -/
def vagueMeter : DependencyInput :=
  { meter with
    groups := meter.groups.map fun d => { d with mayWrite := [0, 1], actionsRead := none }
    mayBeCoenabled := none
    mustDisable := none }

theorem approximatedBy_vagueMeter : meter.ApproximatedBy vagueMeter where
  slots_eq := rfl
  groups_eq := rfl
  guards_eq := rfl
  guardsOf_eq := by
    intro t ht
    change t < 3 at ht
    interval_cases t <;> rfl
  reads := by
    intro t ht
    change t < 3 at ht
    interval_cases t <;> exact Set.Subset.rfl
  writes := by
    intro t ht
    change t < 3 at ht
    interval_cases t <;> simp [DependencyInput.writes, mustWrites, group, meter, vagueMeter, Set.subset_def]
  actionReads := by
    intro t ht
    change t < 3 at ht
    interval_cases t <;>
      simp [DependencyInput.actionReads, DependencyInput.reads, group, meter, vagueMeter, Set.subset_def]
  tests := fun _ _ => Set.Subset.rfl
  coenabled := fun _ _ _ _ _ => trivial
  mustDisable := fun _ _ _ _ hdisable => hdisable.elim

/-- Of the two groups that set the alarm it is no longer known that they accord, nor that `level++` and `alarm = 0`
commute. -/
theorem build_mono_meter : meter.validate = .ok () ∧ vagueMeter.validate = .ok () ∧ meter.ApproximatedBy vagueMeter ∧
    ∃ m m', build meter = .ok m ∧ build vagueMeter = .ok m' ∧ m.dna ⊆ m'.dna ∧ m'.commutes ⊆ m.commutes ∧
      m.dna.entry 1 2 = false ∧ m'.dna.entry 1 2 = true ∧ m.commutes.entry 0 2 = true ∧
      m'.commutes.entry 0 2 = false := by
  have hmeter : meter.validate = .ok () := by decide
  have hvague : vagueMeter.validate = .ok () := by decide
  obtain ⟨m, m', hm, hm', -, -, hcommutes, -, hdna, -⟩ := build_mono hmeter hvague approximatedBy_vagueMeter
  have h12 : m.dna.entry 1 2 = false := eq_of_map_build (f := (·.dna.entry 1 2)) hm (by decide +kernel)
  have h12' : m'.dna.entry 1 2 = true := eq_of_map_build (f := (·.dna.entry 1 2)) hm' (by decide +kernel)
  have h02 : m.commutes.entry 0 2 = true := eq_of_map_build (f := (·.commutes.entry 0 2)) hm (by decide +kernel)
  have h02' : m'.commutes.entry 0 2 = false := eq_of_map_build (f := (·.commutes.entry 0 2)) hm' (by decide +kernel)
  exact ⟨hmeter, hvague, approximatedBy_vagueMeter, m, m', hm, hm', hdna, hcommutes, h12, h12', h02, h02'⟩

end DependencyMatrices

end StateSpace
