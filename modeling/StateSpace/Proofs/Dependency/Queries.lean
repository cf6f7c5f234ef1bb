import StateSpace.Dependency.Query
import StateSpace.Proofs.Dependency.Relations

/-!
# Queries are relational images

Rows are read word by word and columns entry by entry, but through a view both are the same: the image of an index is
the ascending list of the indices that it is related to (`View.image_eq`), the image of a list is that of all its
members together (`View.imageOfSet_eq`), and turning a view round turns its relation round (`View.relates_converse`).
Views that follow one another lead from an index to those that a path through their relations leads to (`View.Path`,
`View.mem_chain`).

Each character names the matrix of one relation of the input (`DependencyInput.Related`), and what is read through its
views is what this relation says (`View.Shows`, `queries_exact`).
-/

namespace StateSpace

namespace View

/-! ## One view -/

section

variable {v : View} {i j : Nat}

/-- The same matrix, read in the other direction. -/
def converse (v : View) : View := { v with inverted := !v.inverted }

theorem inDim_converse (v : View) : v.converse.inDim = v.outDim := by
  unfold inDim outDim converse
  cases v.inverted <;> rfl

theorem outDim_converse (v : View) : v.converse.outDim = v.inDim := by
  unfold inDim outDim converse
  cases v.inverted <;> rfl

/-- Indices that do not exist are not related in either direction. -/
theorem relates_converse (v : View) (i j : Nat) : v.converse.relates j i = v.relates i j := by
  unfold relates
  rw [inDim_converse, outDim_converse, Bool.and_comm (decide (j < v.outDim))]
  unfold converse
  cases v.inverted <;> rfl

theorem lt_of_relates (h : v.relates i j = true) : i < v.inDim ∧ j < v.outDim := by
  unfold relates at h
  rw [Bool.and_eq_true, Bool.and_eq_true, decide_eq_true_iff, decide_eq_true_iff] at h
  exact h.1

theorem relates_of_lt (hi : i < v.inDim) (hj : j < v.outDim) :
    v.relates i j = if v.inverted then v.matrix.entry j i else v.matrix.entry i j := by
  rw [relates, decide_eq_true hi, decide_eq_true hj, Bool.and_self, Bool.true_and]

/-- Reading a row and reading a column both list what an index is related to. -/
theorem image_eq (v : View) (i : Nat) :
    v.image i = if i < v.inDim then some ((List.range v.outDim).filter (v.relates i)) else none := by
  unfold image
  by_cases hi : i < v.inDim
  · rw [if_pos hi, if_pos hi]
    have hfilter := List.filter_congr fun j hj => relates_of_lt hi (List.mem_range.1 hj)
    rw [hfilter]
    unfold outDim
    cases v.inverted with
    | false => exact congrArg some (v.matrix.rowList_eq i)
    | true => rfl
  · rw [if_neg hi, if_neg hi]

theorem image_eq_none_iff : v.image i = none ↔ v.inDim ≤ i := by
  rw [image_eq]
  split <;> simp <;> omega

theorem pairwise_of_image {targets : List Nat} (h : v.image i = some targets) : targets.Pairwise (· < ·) := by
  rw [image_eq] at h
  split at h
  · obtain rfl := Option.some.inj h
    exact List.pairwise_lt_range.filter _
  · contradiction

theorem mem_of_image {targets : List Nat} (h : v.image i = some targets) : j ∈ targets ↔ v.relates i j = true := by
  rw [image_eq] at h
  split at h
  · obtain rfl := Option.some.inj h
    rw [List.mem_filter, List.mem_range]
    exact ⟨And.right, fun hij => ⟨(lt_of_relates hij).2, hij⟩⟩
  · contradiction

/-- An index that is related to another one has an image. -/
theorem relates_iff_image : v.relates i j = true ↔ ∃ targets, v.image i = some targets ∧ j ∈ targets := by
  constructor
  · intro hij
    refine ⟨_, (image_eq v i).trans (if_pos (lt_of_relates hij).1), ?_⟩
    exact List.mem_filter.2 ⟨List.mem_range.2 (lt_of_relates hij).2, hij⟩
  · rintro ⟨targets, himage, hj⟩
    exact (mem_of_image himage).1 hj

/-! ## Sets of indices -/

/-- The image of a list asks of each index only whether some member is related to it. -/
theorem imageOfSet_eq (v : View) (indices : List Nat) :
    v.imageOfSet indices = (List.range v.outDim).filter fun j => indices.any (v.relates · j) := by
  unfold imageOfSet
  refine List.filter_congr fun j _ => ?_
  rw [Bool.eq_iff_iff, List.any_eq_true, List.any_eq_true]
  simp only [List.mem_filterMap, List.contains_iff_mem, relates_iff_image]
  constructor
  · rintro ⟨targets, ⟨i, hi, himage⟩, hj⟩
    exact ⟨i, hi, targets, himage, hj⟩
  · rintro ⟨i, hi, targets, himage, hj⟩
    exact ⟨targets, ⟨i, hi, himage⟩, hj⟩

theorem pairwise_imageOfSet (v : View) (indices : List Nat) : (v.imageOfSet indices).Pairwise (· < ·) := by
  rw [imageOfSet_eq]
  exact List.pairwise_lt_range.filter _

theorem mem_imageOfSet {indices : List Nat} : j ∈ v.imageOfSet indices ↔ ∃ i ∈ indices, v.relates i j = true := by
  rw [imageOfSet_eq, List.mem_filter, List.mem_range, List.any_eq_true]
  exact ⟨And.right, fun ⟨i, hi, hij⟩ => ⟨(lt_of_relates hij).2, i, hi, hij⟩⟩

/-- Neither order nor repetition matters, nor do indices that do not exist. -/
theorem imageOfSet_congr {indices indices' : List Nat} (h : ∀ i < v.inDim, i ∈ indices ↔ i ∈ indices') :
    v.imageOfSet indices = v.imageOfSet indices' := by
  rw [imageOfSet_eq, imageOfSet_eq]
  refine List.filter_congr fun j _ => ?_
  rw [Bool.eq_iff_iff, List.any_eq_true, List.any_eq_true]
  refine exists_congr fun i => and_congr_left fun hij => ?_
  exact h i (lt_of_relates hij).1

/-! ## Views one after another -/

/-- A path from one index to another: each view on the way relates an index to the next one. -/
inductive Path : List View → Nat → Nat → Prop
  | nil (i : Nat) : Path [] i i
  | cons {v : View} {rest : List View} {i j k : Nat} : v.relates i j = true → Path rest j k → Path (v :: rest) i k

theorem path_singleton : Path [v] i j ↔ v.relates i j = true := by
  constructor
  · rintro (_ | ⟨hij, hrest⟩)
    cases hrest
    exact hij
  · intro hij
    exact .cons hij (.nil j)

theorem length_chain (views : List View) (start : List Nat) : (chain views start).length = views.length := by
  induction views generalizing start with
  | nil => rfl
  | cons v rest ih => exact congrArg (· + 1) (ih _)

/-- Each stage of a chain is the ascending list of what the paths up to it lead to. -/
theorem mem_chain (views : List View) (start : List Nat) {n : Nat} (hn : n < views.length) :
    ∃ stage, (chain views start)[n]? = some stage ∧ stage.Pairwise (· < ·) ∧
      ∀ j, j ∈ stage ↔ ∃ i ∈ start, Path (views.take (n + 1)) i j := by
  induction views generalizing start n with
  | nil => exact absurd hn (Nat.not_lt_zero n)
  | cons v rest ih =>
    cases n with
    | zero =>
      refine ⟨v.imageOfSet start, rfl, pairwise_imageOfSet v start, fun j => ?_⟩
      rw [mem_imageOfSet]
      exact exists_congr fun i => and_congr_right fun _ => path_singleton.symm
    | succ n =>
      obtain ⟨stage, hstage, hsorted, hmem⟩ := ih (v.imageOfSet start) (Nat.lt_of_succ_lt_succ hn)
      refine ⟨stage, hstage, hsorted, fun k => ?_⟩
      rw [hmem, List.take_succ_cons]
      constructor
      · rintro ⟨j, hj, hpath⟩
        obtain ⟨i, hi, hij⟩ := mem_imageOfSet.1 hj
        exact ⟨i, hi, .cons hij hpath⟩
      · rintro ⟨i, hi, hpath⟩
        cases hpath with
        | cons hij hpath => exact ⟨_, mem_imageOfSet.2 ⟨i, hi, hij⟩, hpath⟩

end

/-! ## Relations -/

/-- What is read through a view is what a relation between two index ranges says. -/
structure Shows (v : View) (sources targets : Nat) (related : Nat → Nat → Prop) : Prop where
  inDim_eq : v.inDim = sources
  outDim_eq : v.outDim = targets
  relates_iff : ∀ i j, v.relates i j = true ↔ i < sources ∧ j < targets ∧ related i j
  image_none_iff : ∀ i, v.image i = none ↔ sources ≤ i
  /-- The image of an index is the ascending list of those that it is related to. -/
  image_some : ∀ i image, v.image i = some image →
    image.Pairwise (· < ·) ∧ ∀ j, j ∈ image ↔ v.relates i j = true
  /-- The image of a list is the ascending union of the images that its members have. -/
  set_ascending : ∀ indices, (v.imageOfSet indices).Pairwise (· < ·)
  set_union : ∀ indices j,
    j ∈ v.imageOfSet indices ↔ ∃ i ∈ indices, ∃ image, v.image i = some image ∧ j ∈ image
  /-- It does not depend on how the members are listed. -/
  set_congr : ∀ indices indices', (∀ i < sources, i ∈ indices ↔ i ∈ indices') →
    v.imageOfSet indices = v.imageOfSet indices'
  set_append : ∀ indices indices' j,
    j ∈ v.imageOfSet (indices ++ indices') ↔ j ∈ v.imageOfSet indices ∨ j ∈ v.imageOfSet indices'

/-- A view shows the relation that its matrix is of, or the converse relation if it is inverted. -/
theorem shows_of_represents {v : View} {rows cols : Nat} {related : Nat → Nat → Prop}
    (h : v.matrix.Represents rows cols related) :
    v.Shows (if v.inverted then cols else rows) (if v.inverted then rows else cols)
      fun i j => if v.inverted then related j i else related i j := by
  have hin : v.inDim = if v.inverted then cols else rows := by rw [inDim, h.rows_eq, h.cols_eq]
  have hout : v.outDim = if v.inverted then rows else cols := by rw [outDim, h.rows_eq, h.cols_eq]
  refine ⟨hin, hout, fun i j => ?_, fun i => ?_, fun i image himage => ?_, pairwise_imageOfSet v,
    fun indices j => ?_, fun indices indices' hsame => ?_, fun indices indices' j => ?_⟩
  · unfold relates
    rw [hin, hout]
    cases v.inverted <;> simp [h.entry_iff] <;> tauto
  · rw [← hin]
    exact image_eq_none_iff
  · exact ⟨pairwise_of_image himage, fun j => mem_of_image himage⟩
  · rw [mem_imageOfSet]
    exact exists_congr fun i => and_congr_right fun _ => relates_iff_image
  · exact imageOfSet_congr (hin ▸ hsame)
  · simp only [mem_imageOfSet, List.mem_append, or_and_right, exists_or]

end View

/-! ## The relations of an input -/

namespace DependencyInput

variable (input : DependencyInput)

/-- How many there are of what an index ranges over. -/
def extent : Dimension → Nat
  | .transitions => input.groups.length
  | .guards => input.guards.length
  | .slots => input.slots.length

/-- The relation that the matrices of a kind are of, from rows to columns. -/
def Related : MatrixKind → Nat → Nat → Prop
  | .guardsOf => fun t g => g ∈ input.guardsOf t
  | .read => fun t x => x ∈ input.reads t
  | .write => fun t x => x ∈ input.writes t
  | .actionsRead => fun t x => x ∈ input.actionReads t
  | .guardTests => fun g x => x ∈ input.tests g
  | .coenabled => input.Coenabled
  | .mustDisable => input.MustDisable
  | .nes => input.Nes
  | .nds => input.Nds
  | .commutes => input.Commutes
  | .dnaRaw => input.DnaRaw
  | .dna => input.Dna
  | .dnb => input.Dnb

end DependencyInput

namespace DependencyMatrices

variable {input : DependencyInput} {m : DependencyMatrices}

theorem Describes.represents_matrix (h : m.Describes input) (kind : MatrixKind) :
    (m.matrix kind).Represents (input.extent kind.dimensions.1) (input.extent kind.dimensions.2)
      (input.Related kind) := by
  cases kind with
  | guardsOf => exact h.given.guardsOf
  | read => exact h.given.read
  | write => exact h.given.mayWrite
  | actionsRead => exact h.given.actionsRead
  | guardTests => exact h.given.tests
  | coenabled => exact h.given.coenabled
  | mustDisable => exact h.given.mustDisable
  | nes => exact h.nes
  | nds => exact h.nds
  | commutes => exact h.commutes
  | dnaRaw => exact h.dnaRaw
  | dna => exact h.dna
  | dnb => exact h.dnb

theorem view?_char (m : DependencyMatrices) (kind : MatrixKind) (inverted : Bool) :
    m.view? kind.char inverted = some ⟨kind, m.matrix kind, inverted⟩ := by
  rw [view?, MatrixKind.ofChar?_char]
  rfl

/-- A view is that of the relation which its character names. -/
theorem view?_eq_some {c : Char} {inverted : Bool} {v : View} (h : m.view? c inverted = some v) :
    v.kind.char = c ∧ v = ⟨v.kind, m.matrix v.kind, inverted⟩ := by
  obtain ⟨kind, hkind, rfl⟩ := Option.map_eq_some_iff.1 h
  have hfind : MatrixKind.all.find? (fun k => decide (k.char = c)) = some kind := hkind
  have hchar := List.find?_some hfind
  exact ⟨of_decide_eq_true hchar, rfl⟩

/-- The matrices that were built describe their input. -/
theorem describes_of_build (hm : build input = .ok m) : m.Describes input := by
  cases hvalidate : input.validate with
  | error e => simp [build, hvalidate] at hm
  | ok =>
    obtain ⟨m', hm', hdescribes⟩ := describes_of_valid (DependencyInput.validate_eq_ok_iff.1 hvalidate)
    rw [hm] at hm'
    exact Except.ok.inj hm' ▸ hdescribes

/-- **Queries are relational images.** The characters that have a view are those of the relations, and each has one view
for each direction. What is read through a view is what the relation of the input says, or its converse: which indices
there are, what is related, and the images of indices and of sets. The other view has the two sides swapped and relates
all pairs the other way round, also pairs that are out of range. A set that is fed through views in a row comes at each
of them to the indices that a path through the relations so far leads to from some member of the set. -/
theorem queries_exact (hm : build input = .ok m) :
    (∀ (kind : MatrixKind) (inverted : Bool), ∃ v, m.view? kind.char inverted = some v ∧ v.kind = kind) ∧
    (∀ (c : Char) (inverted : Bool) (v : View), m.view? c inverted = some v →
      v.kind.char = c ∧
        v.Shows (input.extent v.dimensions.1) (input.extent v.dimensions.2)
          (fun i j => if inverted then input.Related v.kind j i else input.Related v.kind i j) ∧
        ∃ w, m.view? c (!inverted) = some w ∧ w.inDim = v.outDim ∧ w.outDim = v.inDim ∧
          ∀ i j, w.relates j i = v.relates i j) ∧
    ∀ (views : List View), (∀ v ∈ views, ∃ c inverted, m.view? c inverted = some v) → ∀ start : List Nat,
      (View.chain views start).length = views.length ∧
        ∀ n < views.length, ∃ stage, (View.chain views start)[n]? = some stage ∧ stage.Pairwise (· < ·) ∧
          ∀ j, j ∈ stage ↔ ∃ i ∈ start, View.Path (views.take (n + 1)) i j := by
  refine ⟨fun kind inverted => ⟨_, view?_char m kind inverted, rfl⟩, fun c inverted v hv => ?_,
    fun views _ start => ⟨View.length_chain views start, fun n hn => View.mem_chain views start hn⟩⟩
  obtain ⟨hchar, heq⟩ := view?_eq_some hv
  refine ⟨hchar, ?_, v.converse, ?_, v.inDim_converse, v.outDim_converse, v.relates_converse⟩
  · rw [heq]
    have hshows := View.shows_of_represents (v := ⟨v.kind, m.matrix v.kind, inverted⟩)
      ((describes_of_build hm).represents_matrix v.kind)
    cases inverted <;> exact hshows
  · rw [← hchar, view?_char, heq]
    rfl

/-- The guard of the third group, and the only group that may make it true. -/
theorem queries_exact_meter : ∃ m guards enabling, build meter = .ok m ∧ m.view? 'g' false = some guards ∧
    m.view? 'e' false = some enabling ∧ View.chain [guards, enabling] [7, 2, 2] = [[2], [1]] ∧
    View.Path [guards, enabling] 2 1 ∧ guards.image 7 = none := by
  obtain ⟨m, hm, -⟩ := describes_of_valid (DependencyInput.validate_eq_ok_iff.1 (by decide : meter.validate = .ok ()))
  obtain ⟨hkinds, hviews, hchains⟩ := queries_exact hm
  obtain ⟨guards, hguards, -⟩ := hkinds .guardsOf false
  obtain ⟨enabling, henabling, -⟩ := hkinds .nes false
  obtain ⟨-, hshows, -⟩ := hviews 'g' false guards hguards
  have hfound : ∀ v ∈ [guards, enabling], ∃ c inverted, m.view? c inverted = some v :=
    List.forall_mem_cons.2 ⟨⟨'g', false, hguards⟩, List.forall_mem_singleton.2 ⟨'e', false, henabling⟩⟩
  obtain ⟨-, hstages⟩ := hchains _ hfound [7, 2, 2]
  obtain ⟨stage, hstage, -, hmem⟩ := hstages 1 Nat.one_lt_two
  have hchain : View.chain [guards, enabling] [7, 2, 2] = [[2], [1]] := by
    obtain rfl := Option.some.inj ((view?_char m .guardsOf false).symm.trans hguards)
    obtain rfl := Option.some.inj ((view?_char m .nes false).symm.trans henabling)
    exact eq_of_map_build hm (f := fun m => View.chain [⟨.guardsOf, m.guardsOf, false⟩, ⟨.nes, m.nes, false⟩] [7, 2, 2])
      (by decide +kernel)
  rw [hchain] at hstage
  obtain rfl := Option.some.inj hstage
  obtain ⟨i, hi, hpath⟩ := (hmem 1).1 (List.mem_singleton.2 rfl)
  have hdims : guards.dimensions = (.transitions, .guards) := by
    obtain rfl := Option.some.inj ((view?_char m .guardsOf false).symm.trans hguards)
    rfl
  have hnone : guards.image 7 = none := (hshows.image_none_iff 7).2 (by rw [hdims]; decide)
  refine ⟨m, guards, enabling, hm, hguards, henabling, hchain, ?_, hnone⟩
  rcases List.mem_cons.1 hi with rfl | hi
  · -- there is no eighth group, so no path begins with it
    cases hpath with
    | cons hfirst _ =>
      obtain ⟨_, himage, -⟩ := View.relates_iff_image.1 hfirst
      rw [hnone] at himage
      contradiction
  · obtain rfl : i = 2 := by simpa using hi
    exact hpath

end DependencyMatrices

end StateSpace
