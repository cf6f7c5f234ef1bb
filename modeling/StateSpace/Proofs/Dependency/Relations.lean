import Mathlib.Data.Set.Basic
import StateSpace.Dependency.Matrices
import StateSpace.Proofs.Dependency.BitMatrix
import StateSpace.Proofs.Dependency.Validity

/-!
# What the dependency matrices say

The relations of an input are defined on the sets of slots and guards that it gives (`reads`, `writes`, `actionReads`,
`tests`, `guardsOf`) and its explicit tables (`Coenabled`, `MustDisable`): `Nes`, `Nds`, `Commutes`, `DnaRaw`, `Dna` and
`Dnb`.

The matrices that are built of a valid input are those of these relations, entry by entry, and so they do not depend on
how the sets are listed (`build_exact`).
-/

namespace StateSpace

namespace DependencyInput

/-! ## What an input gives -/

section

variable (input : DependencyInput)

def group (t : Nat) : GroupDependencies := input.groups.getD t {}

def guard (g : Nat) : GuardDependencies := input.guards.getD g {}

/-- The guards that enable a group. -/
def guardsOf (t : Nat) : Set Nat := {g | g ∈ (input.group t).guards}

/-- The slots that a group reads. -/
def reads (t : Nat) : Set Nat := {x | x ∈ (input.group t).read}

def mustWrites (t : Nat) : Set Nat := {x | x ∈ (input.group t).mustWrite}

/-- The slots that a group may or must write. -/
def writes (t : Nat) : Set Nat := {x | x ∈ (input.group t).mayWrite} ∪ input.mustWrites t

/-- The slots that the actions of a group read: all that it reads, if the input does not tell. -/
def actionReads (t : Nat) : Set Nat :=
  match (input.group t).actionsRead with
  | none => input.reads t
  | some slots => {x | x ∈ slots}

/-- The slots that a guard tests. -/
def tests (g : Nat) : Set Nat := {x | x ∈ (input.guard g).tests}

/-- The table has a mark in row `r` and column `c`. -/
def Marked (table : List (List Bool)) (r c : Nat) : Prop := ∃ row, table[r]? = some row ∧ row[c]? = some true

/-- Both guards can hold in one state: they are the same, or the table marks them in one direction. Without a table, all
guards can. -/
def Coenabled (g h : Nat) : Prop :=
  match input.mayBeCoenabled with
  | none => True
  | some table => g = h ∨ Marked table g h ∨ Marked table h g

/-- The group always falsifies the guard. Without a table, none does. -/
def MustDisable (g t : Nat) : Prop :=
  match input.mustDisable with
  | none => False
  | some table => Marked table g t

/-! ## What is derived -/

/-- The group may make the guard true. -/
def Nes (g t : Nat) : Prop := (input.writes t ∩ input.tests g).Nonempty ∧ ¬ input.MustDisable g t

/-- The group may make the guard false. -/
def Nds (g t : Nat) : Prop :=
  (input.writes t ∩ input.tests g).Nonempty ∧ ∀ h ∈ input.guardsOf t, input.Coenabled g h

/-- Neither group writes what the other reads or writes. -/
def Commutes (i j : Nat) : Prop :=
  input.writes i ∩ input.reads j = ∅ ∧ input.reads i ∩ input.writes j = ∅ ∧ input.writes i ∩ input.writes j = ∅

/-- One of the groups may disable a guard of the other. -/
def MayDisable (i j : Nat) : Prop :=
  (∃ g ∈ input.guardsOf i, input.Nds g j) ∨ ∃ g ∈ input.guardsOf j, input.Nds g i

def DnaRaw (i j : Nat) : Prop :=
  i ≠ j ∧ (∀ g ∈ input.guardsOf i, ∀ h ∈ input.guardsOf j, input.Coenabled g h) ∧
    (¬ input.Commutes i j ∨ input.MayDisable i j)

def Dna (i j : Nat) : Prop :=
  i = j ∨ input.DnaRaw i j ∧ (input.MayDisable i j ∨ (input.writes i ∩ input.actionReads j).Nonempty ∨
    (input.actionReads i ∩ input.writes j).Nonempty)

def Dnb (i j : Nat) : Prop :=
  (∀ g ∈ input.guardsOf i, ¬ input.MustDisable g j) ∧ (input.Dna i j ∨ ∃ g ∈ input.guardsOf i, input.Nes g j)

end

/-! ## Positions -/

section

variable {input : DependencyInput}

theorem group_mem {t : Nat} (ht : t < input.groups.length) : input.group t ∈ input.groups := by
  unfold group
  rw [List.getD_eq_getElem _ _ ht]
  exact List.getElem_mem ht

theorem Valid.reads_lt (h : input.Valid) {t x : Nat} (ht : t < input.groups.length) (hx : x ∈ input.reads t) :
    x < input.slots.length :=
  h.read_lt _ (group_mem ht) x hx

theorem Valid.writes_lt (h : input.Valid) {t x : Nat} (ht : t < input.groups.length) (hx : x ∈ input.writes t) :
    x < input.slots.length :=
  hx.elim (h.mayWrite_lt _ (group_mem ht) x) (h.mustWrite_lt _ (group_mem ht) x)

theorem Valid.guardsOf_lt (h : input.Valid) {t g : Nat} (ht : t < input.groups.length) (hg : g ∈ input.guardsOf t) :
    g < input.guards.length :=
  h.guards_lt _ (group_mem ht) g hg

theorem actionReads_eq (t : Nat) : input.actionReads t = {x | x ∈ (input.group t).actionSlots} := by
  unfold actionReads GroupDependencies.actionSlots
  cases (input.group t).actionsRead <;> rfl

theorem Valid.actionSlots_lt (h : input.Valid) {d : GroupDependencies} (hd : d ∈ input.groups) :
    ∀ s ∈ d.actionSlots, s < input.slots.length := by
  have hactions := h.actionsRead_lt d hd
  unfold GroupDependencies.actionSlots
  cases ha : d.actionsRead with
  | none => exact h.read_lt d hd
  | some slots => simpa [ha] using hactions

theorem Valid.written_lt (h : input.Valid) {d : GroupDependencies} (hd : d ∈ input.groups) :
    ∀ s ∈ d.written, s < input.slots.length := fun s hs =>
  (List.mem_append.1 hs).elim (h.mayWrite_lt d hd s) (h.mustWrite_lt d hd s)

theorem mem_writes {t x : Nat} : x ∈ input.writes t ↔ x ∈ (input.group t).written := by
  unfold GroupDependencies.written
  rw [List.mem_append]
  exact Iff.rfl

/-! ## Tables -/

theorem tableEntry_iff {table : List (List Bool)} {r c : Nat} : tableEntry table r c = true ↔ Marked table r c := by
  unfold tableEntry Marked
  cases hrow : table[r]? with
  | none => simp
  | some row => cases hentry : row[c]? <;> simp [hentry]

theorem coenabled_iff {g h : Nat} : input.coenabled g h = true ↔ input.Coenabled g h := by
  unfold coenabled Coenabled
  cases input.mayBeCoenabled with
  | none => simp
  | some table => simp only [Bool.or_eq_true, beq_iff_eq, tableEntry_iff, or_assoc]

theorem mustDisables_iff {g t : Nat} : input.mustDisables g t = true ↔ input.MustDisable g t := by
  unfold mustDisables MustDisable
  cases input.mustDisable with
  | none => simp [tableEntry]
  | some table => exact tableEntry_iff

end

/-! ## The given matrices -/

/-- The matrices of what an input gives. -/
def given (input : DependencyInput) : GivenRelations :=
  let slots := input.slots.length
  let groups := input.groups.length
  let guards := input.guards.length
  { guardsOf := .ofFn groups guards fun t g => (input.group t).guards.contains g
    read := .ofFn groups slots fun t x => (input.group t).read.contains x
    mayWrite := .ofFn groups slots fun t x => (input.group t).written.contains x
    mustWrite := .ofFn groups slots fun t x => (input.group t).mustWrite.contains x
    actionsRead := .ofFn groups slots fun t x => (input.group t).actionSlots.contains x
    tests := .ofFn guards slots fun g x => (input.guard g).tests.contains x
    coenabled := .ofFn guards guards input.coenabled
    mustDisable := .ofFn guards groups input.mustDisables }

/-- No position of a valid input is outside a matrix. -/
theorem Valid.relations_eq {input : DependencyInput} (h : input.Valid) : input.relations = .ok input.given := by
  unfold relations
  simp only [BitMatrix.ofSets_map ({} : GroupDependencies) (·.guards) input.groups h.guards_lt,
    BitMatrix.ofSets_map ({} : GroupDependencies) (·.read) input.groups h.read_lt,
    BitMatrix.ofSets_map ({} : GroupDependencies) (·.written) input.groups fun _ => h.written_lt,
    BitMatrix.ofSets_map ({} : GroupDependencies) (·.mustWrite) input.groups h.mustWrite_lt,
    BitMatrix.ofSets_map ({} : GroupDependencies) (·.actionSlots) input.groups fun _ => h.actionSlots_lt,
    BitMatrix.ofSets_map ({} : GuardDependencies) (·.tests) input.guards h.tests_lt, bind, Except.bind, pure,
    Except.pure]
  rfl

end DependencyInput

/-! ## The matrices and the relations -/

/-- The given matrices are those of what the input gives. -/
structure GivenRelations.Describes (r : GivenRelations) (input : DependencyInput) : Prop where
  guardsOf : r.guardsOf.Represents input.groups.length input.guards.length fun t g => g ∈ input.guardsOf t
  read : r.read.Represents input.groups.length input.slots.length fun t x => x ∈ input.reads t
  mayWrite : r.mayWrite.Represents input.groups.length input.slots.length fun t x => x ∈ input.writes t
  mustWrite : r.mustWrite.Represents input.groups.length input.slots.length fun t x => x ∈ input.mustWrites t
  actionsRead : r.actionsRead.Represents input.groups.length input.slots.length fun t x => x ∈ input.actionReads t
  tests : r.tests.Represents input.guards.length input.slots.length fun g x => x ∈ input.tests g
  coenabled : r.coenabled.Represents input.guards.length input.guards.length input.Coenabled
  mustDisable : r.mustDisable.Represents input.guards.length input.groups.length input.MustDisable

/-- All matrices are those of the relations of the input. -/
structure DependencyMatrices.Describes (m : DependencyMatrices) (input : DependencyInput) : Prop where
  given : m.toGivenRelations.Describes input
  nes : m.nes.Represents input.guards.length input.groups.length input.Nes
  nds : m.nds.Represents input.guards.length input.groups.length input.Nds
  commutes : m.commutes.Represents input.groups.length input.groups.length input.Commutes
  dnaRaw : m.dnaRaw.Represents input.groups.length input.groups.length input.DnaRaw
  dna : m.dna.Represents input.groups.length input.groups.length input.Dna
  dnb : m.dnb.Represents input.groups.length input.groups.length input.Dnb

theorem represents_contains {rows cols : Nat} {lists : Nat → List Nat} {sets : Nat → Set Nat}
    (h : ∀ r c, c ∈ lists r ↔ c ∈ sets r) :
    (BitMatrix.ofFn rows cols fun r c => (lists r).contains c).Represents rows cols fun r c => c ∈ sets r :=
  BitMatrix.represents_ofFn fun r _ c _ => List.contains_iff_mem.trans (h r c)

open DependencyInput in
theorem GivenRelations.describes_given (input : DependencyInput) : input.given.Describes input := by
  constructor <;> dsimp only [given]
  · exact represents_contains fun _ _ => Iff.rfl
  · exact represents_contains fun _ _ => Iff.rfl
  · exact represents_contains fun _ _ => mem_writes.symm
  · exact represents_contains fun _ _ => Iff.rfl
  · refine represents_contains fun t _ => ?_
    rw [actionReads_eq]
    exact Iff.rfl
  · exact represents_contains fun _ _ => Iff.rfl
  · exact BitMatrix.represents_ofFn fun _ _ _ _ => coenabled_iff
  · exact BitMatrix.represents_ofFn fun _ _ _ _ => mustDisables_iff

namespace GivenRelations

variable {r : GivenRelations} {input : DependencyInput}

theorem getD_guardLists {t : Nat} (ht : t < r.groups) : r.guardLists.getD t [] = r.guardsOf.rowList t := by
  unfold guardLists
  rw [Array.getD_eq_getD_getElem?, Array.getElem?_ofFn, dif_pos ht, Option.getD_some]

/-- Two rows of slots overlap if their sets do. -/
theorem meets_iff {m m' : BitMatrix} {rows rows' cols : Nat} {sets sets' : Nat → Set Nat}
    (h : m.Represents rows cols fun i x => x ∈ sets i) (h' : m'.Represents rows' cols fun j x => x ∈ sets' j)
    {i j : Nat} (hi : i < rows) (hj : j < rows') (hlt : ∀ x ∈ sets i ∩ sets' j, x < cols) :
    m.meets i m' j = true ↔ (sets i ∩ sets' j).Nonempty := by
  rw [h.meets_iff h' hi hj]
  constructor
  · rintro ⟨x, -, hx⟩
    exact ⟨x, hx⟩
  · rintro ⟨x, hx⟩
    exact ⟨x, hlt x hx, hx⟩

section

variable (h : r.Describes input) (hv : input.Valid)

include h

theorem Describes.groups_eq : r.groups = input.groups.length := h.read.rows_eq

theorem Describes.guards_eq : r.guards = input.guards.length := h.tests.rows_eq

include hv

theorem Describes.mem_guardLists {t g : Nat} (ht : t < input.groups.length) :
    g ∈ r.guardLists.getD t [] ↔ g ∈ input.guardsOf t := by
  rw [getD_guardLists (h.groups_eq.symm ▸ ht), h.guardsOf.mem_rowList ht]
  exact ⟨And.right, fun hg => ⟨hv.guardsOf_lt ht hg, hg⟩⟩

theorem Describes.writesTested_iff {g t : Nat} (hg : g < input.guards.length) (ht : t < input.groups.length) :
    r.writesTested g t = true ↔ (input.writes t ∩ input.tests g).Nonempty := by
  rw [writesTested, meets_iff h.tests h.mayWrite hg ht fun x hx => hv.writes_lt ht hx.2, Set.inter_comm]

theorem Describes.represents_nes : r.nes.Represents input.guards.length input.groups.length input.Nes := by
  unfold GivenRelations.nes
  rw [h.guards_eq, h.groups_eq]
  refine BitMatrix.represents_ofFn fun g hg t ht => ?_
  rw [Bool.and_eq_true, h.writesTested_iff hv hg ht, Bool.not_eq_true', h.mustDisable.entry_eq_false_iff hg ht]
  exact Iff.rfl

theorem Describes.represents_commutes :
    r.commutes.Represents input.groups.length input.groups.length input.Commutes := by
  unfold GivenRelations.commutes
  rw [h.groups_eq]
  refine BitMatrix.represents_ofFn fun i hi j hj => ?_
  have hwr := meets_iff h.mayWrite h.read hi hj fun x hx => hv.writes_lt hi hx.1
  have hrw := meets_iff h.read h.mayWrite hi hj fun x hx => hv.reads_lt hi hx.1
  have hww := meets_iff h.mayWrite h.mayWrite hi hj fun x hx => hv.writes_lt hi hx.1
  rw [Bool.not_eq_true', ← Bool.not_eq_true, Bool.or_eq_true, Bool.or_eq_true, hwr, hrw, hww]
  simp only [DependencyInput.Commutes, Set.nonempty_iff_ne_empty, not_or, not_not, and_assoc]

theorem Describes.feedsActions_iff {i j : Nat} (hi : i < input.groups.length) (hj : j < input.groups.length) :
    r.feedsActions i j = true ↔
      (input.writes i ∩ input.actionReads j).Nonempty ∨ (input.actionReads i ∩ input.writes j).Nonempty := by
  rw [feedsActions, Bool.or_eq_true, meets_iff h.mayWrite h.actionsRead hi hj fun x hx => hv.writes_lt hi hx.1,
    meets_iff h.actionsRead h.mayWrite hi hj fun x hx => hv.writes_lt hj hx.2]

end

/-! With `enabling` for the guards that enable each group: -/

section

variable (h : r.Describes input) (hv : input.Valid) {enabling : Nat → List Nat}
  (he : ∀ t g, t < input.groups.length → (g ∈ enabling t ↔ g ∈ input.guardsOf t))

include h hv he

theorem Describes.represents_nds :
    (r.nds enabling).Represents input.guards.length input.groups.length input.Nds := by
  unfold GivenRelations.nds
  rw [h.guards_eq, h.groups_eq]
  refine BitMatrix.represents_ofFn fun g hg t ht => ?_
  rw [Bool.and_eq_true, h.writesTested_iff hv hg ht, List.all_eq_true]
  refine and_congr_right fun _ => forall_congr' fun k => ?_
  rw [he t k ht]
  exact forall_congr' fun hk => h.coenabled.entry_iff_of_lt hg (hv.guardsOf_lt ht hk)

theorem Describes.neverCoenabled_iff {i j : Nat} (hi : i < input.groups.length) (hj : j < input.groups.length) :
    r.neverCoenabled enabling i j = false ↔
      ∀ g ∈ input.guardsOf i, ∀ k ∈ input.guardsOf j, input.Coenabled g k := by
  unfold neverCoenabled
  rw [List.any_eq_false]
  refine forall_congr' fun g => ?_
  rw [he i g hi]
  refine forall_congr' fun hg => ?_
  rw [Bool.not_eq_true, List.any_eq_false]
  refine forall_congr' fun k => ?_
  rw [he j k hj]
  refine forall_congr' fun hk => ?_
  rw [Bool.not_eq_true, Bool.not_eq_false']
  exact h.coenabled.entry_iff_of_lt (hv.guardsOf_lt hi hg) (hv.guardsOf_lt hj hk)

omit h in
theorem mayDisable_iff {nds : BitMatrix}
    (hnds : nds.Represents input.guards.length input.groups.length input.Nds) {i j : Nat}
    (hi : i < input.groups.length) (hj : j < input.groups.length) :
    mayDisable enabling nds i j = true ↔ input.MayDisable i j := by
  have hside {i j : Nat} (hi : i < input.groups.length) (hj : j < input.groups.length) :
      (enabling i).any (nds.entry · j) = true ↔ ∃ g ∈ input.guardsOf i, input.Nds g j := by
    rw [List.any_eq_true]
    refine exists_congr fun g => ?_
    rw [he i g hi]
    exact and_congr_right fun hg => hnds.entry_iff_of_lt (hv.guardsOf_lt hi hg) hj
  rw [mayDisable, Bool.or_eq_true, hside hi hj, hside hj hi]
  exact Iff.rfl

variable {nes nds commutes dnaRaw dna : BitMatrix}

theorem Describes.represents_dnaRaw
    (hnds : nds.Represents input.guards.length input.groups.length input.Nds)
    (hcommutes : commutes.Represents input.groups.length input.groups.length input.Commutes) :
    (r.dnaRaw enabling nds commutes).Represents input.groups.length input.groups.length input.DnaRaw := by
  unfold GivenRelations.dnaRaw
  rw [h.groups_eq]
  refine BitMatrix.represents_ofFn fun i hi j hj => ?_
  rw [Bool.and_eq_true, Bool.and_eq_true, bne_iff_ne, Bool.not_eq_true', h.neverCoenabled_iff hv he hi hj,
    Bool.or_eq_true, mayDisable_iff hv he hnds hi hj, Bool.not_eq_true', hcommutes.entry_eq_false_iff hi hj, and_assoc]
  exact Iff.rfl

theorem Describes.represents_dna
    (hnds : nds.Represents input.guards.length input.groups.length input.Nds)
    (hraw : dnaRaw.Represents input.groups.length input.groups.length input.DnaRaw) :
    (r.dna enabling nds dnaRaw).Represents input.groups.length input.groups.length input.Dna := by
  unfold GivenRelations.dna
  rw [h.groups_eq]
  refine BitMatrix.represents_ofFn fun i hi j hj => ?_
  rw [Bool.or_eq_true, beq_iff_eq, Bool.and_eq_true, Bool.and_eq_true, Bool.not_eq_true',
    h.neverCoenabled_iff hv he hi hj, hraw.entry_iff_of_lt hi hj, Bool.or_eq_true, mayDisable_iff hv he hnds hi hj,
    h.feedsActions_iff hv hi hj]
  -- the unrefined relation holds only of groups whose guards can hold together
  refine or_congr_right (and_congr_left fun _ => ?_)
  exact ⟨And.right, fun hraw => ⟨hraw.2.1, hraw⟩⟩

theorem Describes.represents_dnb
    (hnes : nes.Represents input.guards.length input.groups.length input.Nes)
    (hdna : dna.Represents input.groups.length input.groups.length input.Dna) :
    (r.dnb enabling nes dna).Represents input.groups.length input.groups.length input.Dnb := by
  unfold GivenRelations.dnb
  rw [h.groups_eq]
  refine BitMatrix.represents_ofFn fun i hi j hj => ?_
  rw [Bool.and_eq_true, Bool.not_eq_true', Bool.or_eq_true, hdna.entry_iff_of_lt hi hj, List.any_eq_false,
    List.any_eq_true]
  refine and_congr (forall_congr' fun g => ?_) (or_congr_right (exists_congr fun g => ?_))
  · rw [he i g hi]
    exact forall_congr' fun hg => not_congr (h.mustDisable.entry_iff_of_lt (hv.guardsOf_lt hi hg) hj)
  · rw [he i g hi]
    exact and_congr_right fun hg => hnes.entry_iff_of_lt (hv.guardsOf_lt hi hg) hj

end

/-- The derived matrices are those of the derived relations. -/
theorem Describes.derive (h : r.Describes input) (hv : input.Valid) : r.derive.Describes input := by
  have he : ∀ t g, t < input.groups.length → (g ∈ r.guardLists.getD t [] ↔ g ∈ input.guardsOf t) :=
    fun t g ht => h.mem_guardLists hv ht
  have hnes := h.represents_nes hv
  have hnds := h.represents_nds hv he
  have hcommutes := h.represents_commutes hv
  have hraw := h.represents_dnaRaw hv he hnds hcommutes
  have hdna := h.represents_dna hv he hnds hraw
  exact ⟨h, hnes, hnds, hcommutes, hraw, hdna, h.represents_dnb hv he hnes hdna⟩

end GivenRelations

/-! ## Building -/

/-- The inputs give the same sets and the same tables, in whatever order and however often they list a member. -/
structure DependencyInput.SameSets (input input' : DependencyInput) : Prop where
  slots_eq : input'.slots.length = input.slots.length
  groups_eq : input'.groups.length = input.groups.length
  guards_eq : input'.guards.length = input.guards.length
  guardsOf_eq : input'.guardsOf = input.guardsOf
  reads_eq : input'.reads = input.reads
  mustWrites_eq : input'.mustWrites = input.mustWrites
  writes_eq : input'.writes = input.writes
  actionReads_eq : input'.actionReads = input.actionReads
  tests_eq : input'.tests = input.tests
  coenabled_iff : ∀ g h, input'.Coenabled g h ↔ input.Coenabled g h
  mustDisable_iff : ∀ g t, input'.MustDisable g t ↔ input.MustDisable g t

open DependencyInput in
theorem DependencyInput.given_eq_of_sameSets {input input' : DependencyInput} (h : input.SameSets input') :
    input'.given = input.given := by
  have hcontains {l l' : List Nat} (h : ∀ x, x ∈ l' ↔ x ∈ l) (x : Nat) : l'.contains x = l.contains x := by
    rw [Bool.eq_iff_iff, List.contains_iff_mem, List.contains_iff_mem, h]
  simp only [given, h.slots_eq, h.groups_eq, h.guards_eq, GivenRelations.mk.injEq]
  refine ⟨?_, ?_, ?_, ?_, ?_, ?_, ?_, ?_⟩
  · exact BitMatrix.ofFn_congr fun t _ g _ => hcontains (fun g => Set.ext_iff.1 (congrFun h.guardsOf_eq t) g) g
  · exact BitMatrix.ofFn_congr fun t _ x _ => hcontains (fun x => Set.ext_iff.1 (congrFun h.reads_eq t) x) x
  · refine BitMatrix.ofFn_congr fun t _ x _ => hcontains (fun x => ?_) x
    rw [← mem_writes, ← mem_writes, h.writes_eq]
  · exact BitMatrix.ofFn_congr fun t _ x _ => hcontains (fun x => Set.ext_iff.1 (congrFun h.mustWrites_eq t) x) x
  · refine BitMatrix.ofFn_congr fun t _ x _ => hcontains (fun x => ?_) x
    have hactions := congrFun h.actionReads_eq t
    rw [actionReads_eq, actionReads_eq] at hactions
    exact Set.ext_iff.1 hactions x
  · exact BitMatrix.ofFn_congr fun g _ x _ => hcontains (fun x => Set.ext_iff.1 (congrFun h.tests_eq g) x) x
  · refine BitMatrix.ofFn_congr fun g _ k _ => ?_
    rw [Bool.eq_iff_iff, coenabled_iff, coenabled_iff, h.coenabled_iff]
  · refine BitMatrix.ofFn_congr fun g _ t _ => ?_
    rw [Bool.eq_iff_iff, mustDisables_iff, mustDisables_iff, h.mustDisable_iff]

namespace DependencyMatrices

open DependencyInput

/-- A valid input has matrices, which are those of its relations. -/
theorem describes_of_valid {input : DependencyInput} (h : input.Valid) :
    ∃ m, build input = .ok m ∧ m.Describes input := by
  refine ⟨input.given.derive, ?_, (GivenRelations.describes_given input).derive h⟩
  simp only [build, validate_eq_ok_iff.2 h, h.relations_eq]

/-- What is computed of the result of building is true of the matrices. -/
theorem eq_of_map_build {input : DependencyInput} {m : DependencyMatrices} (hm : build input = .ok m) {α : Type}
    {f : DependencyMatrices → α} {a : α} (h : (build input).map f = .ok a) : f m = a := by
  rw [hm] at h
  exact Except.ok.inj h

/-- **Every matrix is that of its relation.** A valid input has matrices. Their dimensions are the numbers of groups,
guards and slots, and each of their entries is set exactly if its relation holds. They depend on the sets that the input
gives, and not on how it lists them. -/
theorem build_exact {input : DependencyInput} (h : input.validate = .ok ()) :
    (∃ m, build input = .ok m ∧ m.Describes input) ∧
      ∀ input' : DependencyInput, input'.validate = .ok () → input.SameSets input' → build input' = build input := by
  have hv := validate_eq_ok_iff.1 h
  refine ⟨describes_of_valid hv, fun input' h' hsame => ?_⟩
  simp only [build, h, h', hv.relations_eq, (validate_eq_ok_iff.1 h').relations_eq, given_eq_of_sameSets hsame]

/-- A level that rises up to three, and an alarm that takes the level and is switched off again. -/
def meter : DependencyInput where
  slots := ["level", "alarm"]
  groups := [
    { name := "level++", read := [0], mustWrite := [0], guards := [0] },
    { name := "alarm = level", read := [1, 0], mayWrite := [1], actionsRead := some [0], guards := [1] },
    { name := "alarm = 0", read := [1], mustWrite := [1], actionsRead := some [], guards := [2] }]
  guards := [
    { name := "level < 3", tests := [0] },
    { name := "alarm == 0", tests := [1] },
    { name := "alarm != 0", tests := [1] }]
  mayBeCoenabled := some [[true, true, true], [false, true, false], [false, false, true]]
  mustDisable := some [[false, false, false], [false, false, false], [false, false, true]]

/-- The same input with all reads listed twice, forwards and backwards. -/
def relisted : DependencyInput :=
  { meter with groups := meter.groups.map fun d => { d with read := d.read ++ d.read.reverse } }

theorem sameSets_relisted : meter.SameSets relisted := by
  have hgroup (t : Nat) : relisted.group t =
      { meter.group t with read := (meter.group t).read ++ (meter.group t).read.reverse } := by
    rcases t with _ | _ | _ | t <;> rfl
  have hreads : relisted.reads = meter.reads := by
    funext t
    ext x
    simp [reads, hgroup]
  refine ⟨rfl, rfl, rfl, ?_, hreads, ?_, ?_, ?_, rfl, fun _ _ => Iff.rfl, fun _ _ => Iff.rfl⟩
  · funext t
    simp only [guardsOf, hgroup]
  · funext t
    simp only [mustWrites, hgroup]
  · funext t
    simp only [writes, mustWrites, hgroup]
  · funext t
    simp only [actionReads, hgroup, hreads]

theorem build_exact_meter : meter.validate = .ok () ∧ relisted.validate = .ok () ∧ meter.SameSets relisted ∧
    (∃ m, build meter = .ok m ∧ m.Describes meter ∧ m.dna.entry 0 1 = true ∧ m.dna.entry 1 2 = false) ∧
    build relisted = build meter := by
  have hmeter : meter.validate = .ok () := by decide
  have hrelisted : relisted.validate = .ok () := by decide
  obtain ⟨⟨m, hm, hdescribes⟩, hsame⟩ := build_exact hmeter
  have h01 : m.dna.entry 0 1 = true := eq_of_map_build (f := (·.dna.entry 0 1)) hm (by decide +kernel)
  have h12 : m.dna.entry 1 2 = false := eq_of_map_build (f := (·.dna.entry 1 2)) hm (by decide +kernel)
  exact ⟨hmeter, hrelisted, sameSets_relisted, ⟨m, hm, hdescribes, h01, h12⟩, hsame _ hrelisted sameSets_relisted⟩

end DependencyMatrices

end StateSpace
