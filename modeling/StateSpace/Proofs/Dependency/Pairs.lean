import StateSpace.Proofs.Dependency.Relations

/-!
# Relations between groups

Coenabledness of guards, commutation of groups, and both forms of not according do not depend on the order of the two,
though each entry is computed on its own and from what is not symmetric: a table of one direction, the guards of one
group against the writes of the other. `PairLaws` puts this together with what holds on the diagonal and with how the
relations between groups include each other; the built matrices satisfy it (`build_pairLaws`).
-/

namespace StateSpace

namespace BitMatrix

/-- The order of the two indices does not matter. -/
def Symmetric (m : BitMatrix) : Prop := ∀ r c, m.entry r c = m.entry c r

theorem Represents.symmetric {m : BitMatrix} {n : Nat} {related : Nat → Nat → Prop} (h : m.Represents n n related)
    (hsymm : ∀ r c, related r c → related c r) : m.Symmetric := by
  intro r c
  rw [Bool.eq_iff_iff, h.entry_iff, h.entry_iff]
  exact ⟨fun ⟨hr, hc, hrel⟩ => ⟨hc, hr, hsymm r c hrel⟩, fun ⟨hc, hr, hrel⟩ => ⟨hr, hc, hsymm c r hrel⟩⟩

end BitMatrix

/-! ## The relations of an input -/

namespace DependencyInput

variable {input : DependencyInput} {g h i j : Nat}

theorem Coenabled.refl (input : DependencyInput) (g : Nat) : input.Coenabled g g := by
  unfold Coenabled
  cases input.mayBeCoenabled with
  | none => trivial
  | some table => exact .inl rfl

/-- A mark in one direction is enough, so the direction does not matter. -/
theorem Coenabled.symm (hco : input.Coenabled g h) : input.Coenabled h g := by
  unfold Coenabled at hco ⊢
  cases htable : input.mayBeCoenabled with
  | none => trivial
  | some table =>
    rw [htable] at hco
    rcases hco with rfl | hmark | hmark
    · exact .inl rfl
    · exact .inr (.inr hmark)
    · exact .inr (.inl hmark)

theorem Commutes.symm (hcommutes : input.Commutes i j) : input.Commutes j i := by
  obtain ⟨hwr, hrw, hww⟩ := hcommutes
  rw [Set.inter_comm] at hwr hrw hww
  exact ⟨hrw, hwr, hww⟩

/-- A group commutes with itself if it writes nothing: what it writes it writes twice. -/
theorem commutes_self_iff : input.Commutes i i ↔ input.writes i = ∅ := by
  constructor
  · rintro ⟨-, -, hww⟩
    rwa [Set.inter_self] at hww
  · intro hw
    simp [Commutes, hw]

theorem MayDisable.symm (hdisable : input.MayDisable i j) : input.MayDisable j i := Or.symm hdisable

theorem not_dnaRaw_self : ¬ input.DnaRaw i i := fun hraw => hraw.1 rfl

theorem DnaRaw.symm (hraw : input.DnaRaw i j) : input.DnaRaw j i := by
  obtain ⟨hij, hco, hconflict⟩ := hraw
  exact ⟨hij.symm, fun g hg h hh => (hco h hh g hg).symm, hconflict.imp (mt Commutes.symm) MayDisable.symm⟩

theorem Dna.dnaRaw (hdna : input.Dna i j) (hij : i ≠ j) : input.DnaRaw i j := (hdna.resolve_left hij).1

theorem Dna.symm (hdna : input.Dna i j) : input.Dna j i := by
  rcases hdna with rfl | ⟨hraw, hconflict⟩
  · exact .inl rfl
  · refine .inr ⟨hraw.symm, hconflict.imp MayDisable.symm fun hfeeds => ?_⟩
    rw [Set.inter_comm (input.writes j), Set.inter_comm (input.actionReads j)]
    exact hfeeds.symm

/-- Of groups that do not accord, the first does not accord to its left either, unless the second always falsifies one
of its guards. -/
theorem Dna.dnb_iff (hdna : input.Dna i j) : input.Dnb i j ↔ ∀ g ∈ input.guardsOf i, ¬ input.MustDisable g j :=
  ⟨And.left, fun hnot => ⟨hnot, .inl hdna⟩⟩

end DependencyInput

/-! ## The matrices -/

namespace DependencyMatrices

open DependencyInput

/-- How the relations between two guards and between two groups of an input are made up. -/
structure PairLaws (m : DependencyMatrices) (input : DependencyInput) : Prop where
  coenabled_symmetric : m.coenabled.Symmetric
  commutes_symmetric : m.commutes.Symmetric
  dnaRaw_symmetric : m.dnaRaw.Symmetric
  dna_symmetric : m.dna.Symmetric
  coenabled_self : ∀ g < input.guards.length, m.coenabled.entry g g = true
  dna_self : ∀ i < input.groups.length, m.dna.entry i i = true
  dnaRaw_self : ∀ i, m.dnaRaw.entry i i = false
  /-- A group commutes with itself exactly if it writes nothing. -/
  commutes_self : ∀ i < input.groups.length, (m.commutes.entry i i = true ↔ input.writes i = ∅)
  /-- Refining leaves out pairs of different groups only. -/
  dnaRaw_of_dna : ∀ i j, i ≠ j → m.dna.entry i j = true → m.dnaRaw.entry i j = true
  /-- Groups of which two guards never hold together accord. -/
  of_never_coenabled : ∀ i < input.groups.length, ∀ j < input.groups.length, ∀ g ∈ input.guardsOf i,
    ∀ h ∈ input.guardsOf j, m.coenabled.entry g h = false →
      m.dnaRaw.entry i j = false ∧ (i ≠ j → m.dna.entry i j = false)
  /-- Groups that do not accord do not accord to the left either, unless the second always falsifies a guard of the
  first. -/
  dnb_of_dna : ∀ i j, m.dna.entry i j = true →
    (m.dnb.entry i j = false ↔ ∃ g ∈ input.guardsOf i, m.mustDisable.entry g j = true)

variable {input : DependencyInput} {m : DependencyMatrices}

theorem Describes.of_never_coenabled (hd : m.Describes input) (hv : input.Valid) {g h i j : Nat}
    (hi : i < input.groups.length) (hj : j < input.groups.length) (hg : g ∈ input.guardsOf i)
    (hh : h ∈ input.guardsOf j) (hnever : m.coenabled.entry g h = false) :
    m.dnaRaw.entry i j = false ∧ (i ≠ j → m.dna.entry i j = false) := by
  have hnot : ¬ input.Coenabled g h :=
    (hd.given.coenabled.entry_eq_false_iff (hv.guardsOf_lt hi hg) (hv.guardsOf_lt hj hh)).1 hnever
  have hraw : ¬ input.DnaRaw i j := fun hraw => hnot (hraw.2.1 g hg h hh)
  refine ⟨(hd.dnaRaw.entry_eq_false_iff hi hj).2 hraw, fun hij => ?_⟩
  exact (hd.dna.entry_eq_false_iff hi hj).2 fun hdna => hraw (hdna.dnaRaw hij)

theorem Describes.dnb_eq_false_iff (hd : m.Describes input) (hv : input.Valid) {i j : Nat}
    (hdna : m.dna.entry i j = true) :
    m.dnb.entry i j = false ↔ ∃ g ∈ input.guardsOf i, m.mustDisable.entry g j = true := by
  obtain ⟨hi, hj, hdna⟩ := (hd.dna.entry_iff i j).1 hdna
  rw [hd.dnb.entry_eq_false_iff hi hj, hdna.dnb_iff]
  push Not
  refine exists_congr fun g => and_congr_right fun hg => ?_
  exact (hd.given.mustDisable.entry_iff_of_lt (hv.guardsOf_lt hi hg) hj).symm

theorem Describes.pairLaws (hd : m.Describes input) (hv : input.Valid) : m.PairLaws input where
  coenabled_symmetric := hd.given.coenabled.symmetric fun _ _ => Coenabled.symm
  commutes_symmetric := hd.commutes.symmetric fun _ _ => Commutes.symm
  dnaRaw_symmetric := hd.dnaRaw.symmetric fun _ _ => DnaRaw.symm
  dna_symmetric := hd.dna.symmetric fun _ _ => Dna.symm
  coenabled_self := fun g hg => (hd.given.coenabled.entry_iff_of_lt hg hg).2 (Coenabled.refl input g)
  dna_self := fun _ hi => (hd.dna.entry_iff_of_lt hi hi).2 (.inl rfl)
  dnaRaw_self := fun i => by
    rw [← Bool.not_eq_true, hd.dnaRaw.entry_iff]
    exact fun hraw => not_dnaRaw_self hraw.2.2
  commutes_self := fun _ hi => (hd.commutes.entry_iff_of_lt hi hi).trans commutes_self_iff
  dnaRaw_of_dna := fun i j hij hdna => by
    obtain ⟨hi, hj, hdna⟩ := (hd.dna.entry_iff i j).1 hdna
    exact (hd.dnaRaw.entry_iff_of_lt hi hj).2 (hdna.dnaRaw hij)
  of_never_coenabled := fun _ hi _ hj _ hg _ hh => hd.of_never_coenabled hv hi hj hg hh
  dnb_of_dna := fun _ _ => hd.dnb_eq_false_iff hv

/-- **The matrices of a valid input satisfy the laws of pairs.** -/
theorem build_pairLaws (h : input.validate = .ok ()) : ∃ m, build input = .ok m ∧ m.PairLaws input := by
  have hv := validate_eq_ok_iff.1 h
  obtain ⟨m, hm, hd⟩ := describes_of_valid hv
  exact ⟨m, hm, hd.pairLaws hv⟩

/-- The table of `meter` marks guards 0 and 1 in one direction only, guards 1 and 2 in neither, and `alarm = 0` always
falsifies its own guard. -/
theorem build_pairLaws_meter : meter.validate = .ok () ∧ ∃ m, build meter = .ok m ∧ m.PairLaws meter ∧
    m.coenabled.entry 1 0 = true ∧ m.coenabled.entry 1 2 = false ∧ m.dna.entry 1 2 = false ∧
    m.dna.entry 2 2 = true ∧ m.dnb.entry 2 2 = false := by
  have hv : meter.validate = .ok () := by decide
  obtain ⟨m, hm, hlaws⟩ := build_pairLaws hv
  have h10 : m.coenabled.entry 1 0 = true := eq_of_map_build (f := (·.coenabled.entry 1 0)) hm (by decide +kernel)
  have h12 : m.coenabled.entry 1 2 = false := eq_of_map_build (f := (·.coenabled.entry 1 2)) hm (by decide +kernel)
  have hdna : m.dna.entry 1 2 = false :=
    (hlaws.of_never_coenabled 1 (by decide) 2 (by decide) 1 (by simp [guardsOf, group, meter]) 2
      (by simp [guardsOf, group, meter]) h12).2 (by decide)
  have h22 : m.mustDisable.entry 2 2 = true := eq_of_map_build (f := (·.mustDisable.entry 2 2)) hm (by decide +kernel)
  have hself : m.dna.entry 2 2 = true := hlaws.dna_self 2 (by decide)
  refine ⟨hv, m, hm, hlaws, h10, h12, hdna, hself, ?_⟩
  exact (hlaws.dnb_of_dna 2 2 hself).2 ⟨2, by simp [guardsOf, group, meter], h22⟩

end DependencyMatrices

end StateSpace
