import StateSpace.Proofs.Dependency.Accesses
import StateSpace.Proofs.Dependency.Relations
import StateSpace.Proofs.Dependency.Violations

/-!
# Building is total

The outcome of building is known for every input (`build_total`): a valid one has matrices, and any other fails with its
first violation. No access fails on the way, also of an input without slots, groups or guards.

That the positions of a valid input exist is needed once, for the given relations (`Valid.yields_relations`). What is
derived of them reads the given matrices at guards that are members of their rows, and so it is enough that their
dimensions agree (`Shaped.yields_derive`).
-/

namespace StateSpace

/-! ## Given relations -/

namespace BitMatrix

open Fault

variable {rows cols : Nat}

/-- Adding the rows of one matrix to another of the same dimensions. -/
theorem foldlM_addRows (added related : Nat → Nat → Bool) (indices : List Nat) (h : ∀ r ∈ indices, r < rows) :
    indices.foldlM (fun m r => do m.setAll r (← (ofFn rows cols added).row r)) (ofFn rows cols related) =
      (.ok (ofFn rows cols fun r c => related r c || (decide (r ∈ indices) && added r c)) :
        Except Fault BitMatrix) := by
  induction indices generalizing related with
  | nil => simp [pure, Except.pure]
  | cons r rest ih =>
    have hr : r < rows := h r List.mem_cons_self
    have ih := ih (fun i j => related i j || (decide (i = r) && ((ofFn rows cols added).rowList r).contains j))
      fun i hi => h i (List.mem_cons_of_mem r hi)
    have hlt : ∀ c ∈ (ofFn rows cols added).rowList r, c < cols := fun c hc => lt_of_mem_rowList hc
    rw [List.foldlM_cons, lift_row hr, ok_bind, setAll_ofFn _ related hr hlt]
    refine ih.trans (congrArg Except.ok (ofFn_congr fun i _ j hj => ?_))
    rw [rowList_ofFn added hr]
    by_cases hi : i = r
    · subst hi
      cases hadded : added i j <;> simp [hj, hadded]
    · simp [hi]

theorem mem_tableWrites {table : List (List Bool)} {r c : Nat} {value : Bool} :
    ⟨r, c, value⟩ ∈ tableWrites table ↔ ∃ row, table[r]? = some row ∧ row[c]? = some value := by
  unfold tableWrites
  simp only [List.mem_flatMap, List.mem_map, Prod.exists, List.mk_mem_zipIdx_iff_getElem?, Write.mk.injEq]
  constructor
  · rintro ⟨row, _, hrow, value, _, hvalue, rfl, rfl, rfl⟩
    exact ⟨row, hrow, hvalue⟩
  · rintro ⟨row, hrow, hvalue⟩
    exact ⟨row, r, hrow, value, c, hvalue, rfl, rfl, rfl⟩

/-- Writing a table entry by entry makes its matrix. -/
theorem lastWritten_tableWrites (table : List (List Bool)) (r c : Nat) :
    (lastWritten (tableWrites table) r c).getD false = tableEntry table r c := by
  unfold tableEntry
  cases hlast : lastWritten (tableWrites table) r c with
  | some value =>
    obtain ⟨row, hrow, hvalue⟩ := mem_tableWrites.1 (lastWritten_eq_some hlast)
    simp [hrow, hvalue]
  | none =>
    cases hentry : (table[r]?).bind (·[c]?) with
    | none => rfl
    | some value =>
      obtain ⟨row, hrow, hvalue⟩ := Option.bind_eq_some_iff.1 hentry
      exact absurd (mem_tableWrites.2 ⟨row, hrow, hvalue⟩) (lastWritten_eq_none hlast value)

end BitMatrix

namespace DependencyInput

open Fault BitMatrix

variable {input : DependencyInput}

/-- The entry of a table that has the place. -/
theorem placeAt_placeAt {table : List (List Bool)} {rows cols r c : Nat} (h : HasShape table rows cols) (hr : r < rows)
    (hc : c < cols) : (placeAt table r >>= (placeAt · c)) = .ok (tableEntry table r c) := by
  obtain ⟨rfl, hrows⟩ := h
  have hc : c < table[r].length := hrows _ (List.getElem_mem hr) ▸ hc
  rw [placeAt_eq_ok hr, ok_bind, placeAt_eq_ok hc, tableEntry, List.getElem?_eq_getElem hr, Option.bind_some,
    List.getElem?_eq_getElem hc, Option.getD_some]

theorem Valid.readCoenabled_eq (h : input.Valid) {g k : Nat} (hg : g < input.guards.length)
    (hk : k < input.guards.length) : input.readCoenabled g k = .ok (input.coenabled g k) := by
  unfold readCoenabled coenabled
  cases htable : input.mayBeCoenabled with
  | none => rfl
  | some table =>
    have hshape := h.mayBeCoenabled_shape table htable
    dsimp only
    rw [placeAt_placeAt hshape hg hk, placeAt_placeAt hshape hk hg, ok_or]
    by_cases hgk : g = k
    · rw [if_pos hgk, beq_iff_eq.2 hgk]
      rfl
    · rw [if_neg hgk, beq_false_of_ne hgk, Bool.false_or]

/-- The actions of the groups, one place after another. -/
theorem mapM_actionSlots :
    ((List.range input.groups.length).mapM fun t => return (← placeAt input.groups t).actionSlots) =
      .ok (input.groups.map (·.actionSlots)) := by
  have hplaces : ∀ t ∈ List.range input.groups.length,
      (placeAt input.groups t >>= fun d => pure d.actionSlots) = .ok (input.group t).actionSlots := by
    intro t ht
    rw [group, placeAt_eq_ok (List.mem_range.1 ht), List.getD_eq_getElem _ _ (List.mem_range.1 ht)]
    rfl
  rw [mapM_eq_ok hplaces]
  refine congrArg Except.ok (List.ext_getElem (by simp) fun t ht _ => ?_)
  have ht : t < input.groups.length := by simpa using ht
  simp [group, List.getElem?_eq_getElem ht]

/-- The table has no entries outside of its matrix. -/
theorem Valid.mustDisable_writes_lt (h : input.Valid) :
    ∀ w ∈ tableWrites (input.mustDisable.getD []), w.row < input.guards.length ∧ w.col < input.groups.length := by
  intro w hw
  obtain ⟨row, hrow, hvalue⟩ := mem_tableWrites.1 hw
  cases htable : input.mustDisable with
  | none => simp [htable] at hrow
  | some table =>
    obtain ⟨hlength, hrows⟩ := h.mustDisable_shape table htable
    rw [htable, Option.getD_some] at hrow
    have hcols := hrows row (List.mem_of_getElem? hrow)
    exact ⟨hlength ▸ (List.getElem?_eq_some_iff.1 hrow).1, hcols ▸ (List.getElem?_eq_some_iff.1 hvalue).1⟩

theorem Valid.yields_relations (h : input.Valid) {n : Nat} (hslots : input.slots.length ≤ n)
    (hgroups : input.groups.length ≤ n) (hguards : input.guards.length ≤ n) :
    Yields n input.relationsByAccess input.given := by
  unfold relationsByAccess
  have hguardsOf := yields_createFrom ({} : GroupDependencies) (·.guards) h.guards_lt hgroups hguards
  have hread := yields_createFrom ({} : GroupDependencies) (·.read) h.read_lt hgroups hslots
  have hmustWrite := yields_createFrom ({} : GroupDependencies) (·.mustWrite) h.mustWrite_lt hgroups hslots
  have hmayWrite := yields_createFrom ({} : GroupDependencies) (·.mayWrite) h.mayWrite_lt hgroups hslots
  have hactions := yields_createFrom ({} : GroupDependencies) (·.actionSlots) (fun _ => h.actionSlots_lt) hgroups hslots
  have htests := yields_createFrom ({} : GuardDependencies) (·.tests) h.tests_lt hguards hslots
  refine hguardsOf.bind (hread.bind (hmustWrite.bind (hmayWrite.bind ?_)))
  refine (Yields.of_ok (foldlM_addRows _ _ _ fun t ht => List.mem_range.1 ht)).bind ?_
  refine (Yields.of_ok mapM_actionSlots).bind ?_
  refine hactions.bind (htests.bind ?_)
  refine (yields_fill hguards hguards fun g hg k hk => ⟨_, congrArg (· >>= _) (h.readCoenabled_eq hg hk), rfl⟩).bind ?_
  refine (yields_create hguards hgroups).bind ?_
  rw [writeAll_ofFn _ _ h.mustDisable_writes_lt]
  refine .of_ok (congrArg Except.ok ?_)
  unfold given
  rw [GivenRelations.mk.injEq]
  refine ⟨rfl, rfl, ofFn_congr fun t ht x _ => ?_, rfl, rfl, rfl, rfl, ofFn_congr fun g _ t _ => ?_⟩
  · rw [decide_eq_true (List.mem_range.2 ht), Bool.true_and]
    exact (List.contains_append ..).symm
  · exact lastWritten_tableWrites _ g t

end DependencyInput

/-! ## Derived relations -/

namespace GivenRelations

open Fault BitMatrix

/-- The given matrices have the dimensions that they are read in, whatever their entries. -/
structure Shaped (r : GivenRelations) : Prop where
  guardsOf_rows : r.guardsOf.rows = r.groups
  guardsOf_cols : r.guardsOf.cols = r.guards
  mayWrite_rows : r.mayWrite.rows = r.groups
  mayWrite_cols : r.mayWrite.cols = r.slots
  actionsRead_rows : r.actionsRead.rows = r.groups
  actionsRead_cols : r.actionsRead.cols = r.slots
  tests_cols : r.tests.cols = r.slots
  coenabled_rows : r.coenabled.rows = r.guards
  coenabled_cols : r.coenabled.cols = r.guards
  mustDisable_rows : r.mustDisable.rows = r.guards
  mustDisable_cols : r.mustDisable.cols = r.groups

namespace Shaped

variable {r : GivenRelations} (h : r.Shaped) {g i j t : Nat}

include h

theorem lt_of_mem (hg : g ∈ r.guardsOf.rowList t) : g < r.guards := h.guardsOf_cols ▸ lt_of_mem_rowList hg

theorem lift_guards (ht : t < r.groups) :
    (liftM (r.guardsOf.row t) : Except Fault (List Nat)) = .ok (r.guardsOf.rowList t) :=
  lift_row (h.guardsOf_rows ▸ ht)

theorem lift_coenabled {k : Nat} (hg : g < r.guards) (hk : k < r.guards) :
    (liftM (r.coenabled.get g k) : Except Fault Bool) = .ok (r.coenabled.entry g k) :=
  lift_get (h.coenabled_rows ▸ hg) (h.coenabled_cols ▸ hk)

theorem lift_mustDisable (hg : g < r.guards) (ht : t < r.groups) :
    (liftM (r.mustDisable.get g t) : Except Fault Bool) = .ok (r.mustDisable.entry g t) :=
  lift_get (h.mustDisable_rows ▸ hg) (h.mustDisable_cols ▸ ht)

theorem lift_writesTested (hg : g < r.guards) (ht : t < r.groups) :
    (liftM (r.tests.overlap g r.mayWrite t) : Except Fault Bool) = .ok (r.writesTested g t) :=
  lift_overlap (h.tests_cols.trans h.mayWrite_cols.symm) hg (h.mayWrite_rows ▸ ht)

theorem answers_nes (hg : g < r.guards) (ht : t < r.groups) :
    Answers (r.readNes g t) (r.writesTested g t && !r.mustDisable.entry g t) := by
  unfold readNes
  rw [h.lift_writesTested hg ht, ok_bind, h.lift_mustDisable hg ht]
  cases r.writesTested g t with
  | false => exact ⟨none, rfl, rfl⟩
  | true => exact ⟨some _, rfl, rfl⟩

theorem answers_commutes (hi : i < r.groups) (hj : j < r.groups) :
    Answers (r.readCommutes i j)
      (!(r.mayWrite.meets i r.read j || r.read.meets i r.mayWrite j || r.mayWrite.meets i r.mayWrite j)) := by
  unfold readCommutes
  rw [lift_overlap h.mayWrite_cols (h.mayWrite_rows ▸ hi) hj,
    lift_overlap h.mayWrite_cols.symm hi (h.mayWrite_rows ▸ hj),
    lift_overlap rfl (h.mayWrite_rows ▸ hi) (h.mayWrite_rows ▸ hj), ok_or, ok_or, Bool.or_assoc]
  exact ⟨some _, rfl, rfl⟩

/-! With `enabling` for the guards that enable each group: -/

variable {enabling : Nat → List Nat} (he : ∀ t < r.groups, enabling t = r.guardsOf.rowList t)
  {nes nds commutes dnaRaw dna : BitMatrix}

include he

theorem readNeverCoenabled_eq (hi : i < r.groups) (hj : j < r.groups) :
    r.readNeverCoenabled i j = .ok (r.neverCoenabled enabling i j) := by
  unfold readNeverCoenabled neverCoenabled
  rw [he i hi, he j hj, h.lift_guards hi, ok_bind]
  refine anyM_eq_ok fun g hg => ?_
  rw [h.lift_guards hj, ok_bind]
  refine anyM_eq_ok fun k hk => ?_
  rw [h.lift_coenabled (h.lt_of_mem hg) (h.lt_of_mem hk)]
  rfl

/-- Whether a guard of one group is related to another group. -/
theorem anyM_guards {m : BitMatrix} (hm : m.rows = r.guards ∧ m.cols = r.groups) (hi : i < r.groups)
    (hj : j < r.groups) : ((r.guardsOf.rowList i).anyM fun g => liftM (m.get g j) : Except Fault Bool) =
      .ok ((enabling i).any (m.entry · j)) := by
  rw [he i hi]
  exact anyM_eq_ok fun g hg => lift_get (hm.1 ▸ h.lt_of_mem hg) (hm.2 ▸ hj)

theorem answers_nds (hg : g < r.guards) (ht : t < r.groups) :
    Answers (r.readNds g t) (r.writesTested g t && (enabling t).all (r.coenabled.entry g)) := by
  unfold readNds
  rw [h.lift_writesTested hg ht, ok_bind, h.lift_guards ht, ok_bind, he t ht,
    allM_eq_ok fun k hk => h.lift_coenabled hg (h.lt_of_mem hk)]
  cases r.writesTested g t with
  | false => exact ⟨none, rfl, rfl⟩
  | true => exact ⟨some _, rfl, rfl⟩

theorem readMayDisable_eq (hnds : nds.rows = r.guards ∧ nds.cols = r.groups) (hi : i < r.groups)
    (hj : j < r.groups) : r.readMayDisable nds i j = .ok (mayDisable enabling nds i j) := by
  unfold readMayDisable
  rw [h.lift_guards hi, h.lift_guards hj, ok_bind, ok_bind, h.anyM_guards he hnds hi hj, h.anyM_guards he hnds hj hi,
    ok_or]
  rfl

theorem answers_dnaRaw (hnds : nds.rows = r.guards ∧ nds.cols = r.groups)
    (hcommutes : commutes.rows = r.groups ∧ commutes.cols = r.groups) (hi : i < r.groups) (hj : j < r.groups) :
    Answers (r.readDnaRaw nds commutes i j) (i != j && !r.neverCoenabled enabling i j &&
      (!commutes.entry i j || mayDisable enabling nds i j)) := by
  unfold readDnaRaw
  split
  · rename_i hij
    exact ⟨none, rfl, by simp [hij]⟩
  · rename_i hij
    rw [h.readNeverCoenabled_eq he hi hj, ok_bind, lift_get (hcommutes.1 ▸ hi) (hcommutes.2 ▸ hj),
      h.readMayDisable_eq he hnds hi hj]
    cases r.neverCoenabled enabling i j with
    | true => exact ⟨none, rfl, by simp⟩
    | false => exact ⟨some _, congrArg (· >>= _) (ok_or _ _), by simp [hij]⟩

theorem answers_dna (hnds : nds.rows = r.guards ∧ nds.cols = r.groups)
    (hraw : dnaRaw.rows = r.groups ∧ dnaRaw.cols = r.groups) (hi : i < r.groups) (hj : j < r.groups) :
    Answers (r.readDna nds dnaRaw i j) (i == j || (!r.neverCoenabled enabling i j && dnaRaw.entry i j &&
      (mayDisable enabling nds i j || r.feedsActions i j))) := by
  unfold readDna
  split
  · rename_i hij
    exact ⟨some true, rfl, by simp [hij]⟩
  · rename_i hij
    rw [h.readNeverCoenabled_eq he hi hj, lift_get (hraw.1 ▸ hi) (hraw.2 ▸ hj),
      h.readMayDisable_eq he hnds hi hj,
      lift_overlap (h.mayWrite_cols.trans h.actionsRead_cols.symm) (h.mayWrite_rows ▸ hi) (h.actionsRead_rows ▸ hj),
      lift_overlap (h.actionsRead_cols.trans h.mayWrite_cols.symm) (h.actionsRead_rows ▸ hi) (h.mayWrite_rows ▸ hj),
      ok_or, ok_or, ok_bind]
    change Answers ((.ok (r.neverCoenabled enabling i j) <||> .ok !dnaRaw.entry i j) >>= _) _
    rw [ok_or, ok_bind, beq_false_of_ne hij]
    cases r.neverCoenabled enabling i j <;> cases dnaRaw.entry i j <;> exact ⟨some _, rfl, by simp [feedsActions]⟩

theorem answers_dnb (hnes : nes.rows = r.guards ∧ nes.cols = r.groups)
    (hdna : dna.rows = r.groups ∧ dna.cols = r.groups) (hi : i < r.groups) (hj : j < r.groups) :
    Answers (r.readDnb nes dna i j) (!(enabling i).any (r.mustDisable.entry · j) &&
      (dna.entry i j || (enabling i).any (nes.entry · j))) := by
  unfold readDnb
  rw [h.lift_guards hi, ok_bind, ok_bind, h.anyM_guards he ⟨h.mustDisable_rows, h.mustDisable_cols⟩ hi hj,
    h.anyM_guards he hnes hi hj, lift_get (hdna.1 ▸ hi) (hdna.2 ▸ hj), ok_or, ok_bind]
  cases (enabling i).any (r.mustDisable.entry · j) <;> exact ⟨some _, rfl, by simp⟩

end Shaped

theorem Shaped.yields_derive {r : GivenRelations} (h : r.Shaped) {n : Nat} (hgroups : r.groups ≤ n)
    (hguards : r.guards ≤ n) : Yields n r.deriveByAccess r.derive := by
  let enabling (t : Nat) : List Nat := r.guardLists.getD t []
  have he (t : Nat) (ht : t < r.groups) : enabling t = r.guardsOf.rowList t := getD_guardLists ht
  let nds := r.nds enabling
  let dnaRaw := r.dnaRaw enabling nds r.commutes
  let dna := r.dna enabling nds dnaRaw
  have hnes : r.nes.rows = r.guards ∧ r.nes.cols = r.groups := ⟨rfl, rfl⟩
  have hnds : nds.rows = r.guards ∧ nds.cols = r.groups := ⟨rfl, rfl⟩
  have hcommutes : r.commutes.rows = r.groups ∧ r.commutes.cols = r.groups := ⟨rfl, rfl⟩
  have hraw : dnaRaw.rows = r.groups ∧ dnaRaw.cols = r.groups := ⟨rfl, rfl⟩
  have hdna : dna.rows = r.groups ∧ dna.cols = r.groups := ⟨rfl, rfl⟩
  unfold deriveByAccess
  refine (yields_fill hguards hgroups fun g hg t ht => h.answers_nes hg ht).bind ?_
  refine (yields_fill hguards hgroups fun g hg t ht => h.answers_nds he hg ht).bind ?_
  refine (yields_fill hgroups hgroups fun i hi j hj => h.answers_commutes hi hj).bind ?_
  refine (yields_fill hgroups hgroups fun i hi j hj => h.answers_dnaRaw he hnds hcommutes hi hj).bind ?_
  refine (yields_fill hgroups hgroups fun i hi j hj => h.answers_dna he hnds hraw hi hj).bind ?_
  refine (yields_fill hgroups hgroups fun i hi j hj => h.answers_dnb he hnes hdna hi hj).bind ?_
  exact .of_ok rfl

end GivenRelations

/-! ## Building -/

namespace DependencyInput

theorem given_shaped (input : DependencyInput) : input.given.Shaped := by constructor <;> rfl

/-- The greatest of the numbers of slots, groups and guards. -/
def size (input : DependencyInput) : Nat := max input.slots.length (max input.groups.length input.guards.length)

end DependencyInput

namespace DependencyMatrices

open DependencyInput Fault

/-- A valid input has the matrices of what it gives. -/
theorem build_eq (input : DependencyInput) :
    build input = (input.validate.map fun _ => input.given.derive).mapError .malformed := by
  unfold build
  cases hvalidate : input.validate with
  | error e => rfl
  | ok =>
    dsimp only
    rw [(validate_eq_ok_iff.1 hvalidate).relations_eq]
    rfl

/-- Access by access, building comes to the same, unless there is no storage. -/
theorem yields_build (input : DependencyInput) :
    Yields input.size (buildByAccess input) (input.validate.map fun _ => input.given.derive) := by
  unfold buildByAccess
  cases hvalidate : input.validate with
  | error e => exact .of_ok rfl
  | ok =>
    have hslots : input.slots.length ≤ input.size := by simp [size]
    have hgroups : input.groups.length ≤ input.size := by simp [size]
    have hguards : input.guards.length ≤ input.size := by simp [size]
    refine ((validate_eq_ok_iff.1 hvalidate).yields_relations hslots hgroups hguards).bind ?_
    exact ((given_shaped input).yields_derive hgroups hguards).bind (.of_ok rfl)

/-- **Building is total.** There are matrices exactly for the valid inputs, and for all others building fails with the
first violation. On no input does an access fail: built access by access, the outcome is the same, unless a matrix has
more words than can be addressed. That takes `2 ^ 33` slots, groups or guards. -/
theorem build_total (input : DependencyInput) :
    ((∃ m, build input = .ok m) ↔ input.Valid) ∧
      (∀ e, build input = .error e ↔ ∃ v, input.violations.head? = some v ∧ e = .malformed v) ∧
      (∀ outcome, buildByAccess input = .ok outcome → outcome.mapError .malformed = build input) ∧
      (∀ fault, buildByAccess input = .error fault →
        ∃ rows ≤ input.size, ∃ cols ≤ input.size, fault = .storage rows cols ∧ 1 <<< 60 ≤ BitMatrix.words rows cols) ∧
      (input.size < 1 <<< 33 → ∃ outcome, buildByAccess input = .ok outcome) := by
  have hyields := yields_build input
  refine ⟨?_, ?_, ?_, ?_, fun hsize => ⟨_, hyields.eq_ok hsize⟩⟩
  · rw [build_eq, ← validate_eq_ok_iff]
    cases input.validate <;> simp [Except.map, Except.mapError]
  · intro e
    simp only [build_eq, ← validate_eq_error_iff]
    cases input.validate <;> simp [Except.map, Except.mapError, eq_comm]
  · intro outcome houtcome
    rcases hyields with hok | ⟨_, _, _, _, herror, -⟩
    · obtain rfl := Except.ok.inj (houtcome.symm.trans hok)
      exact (build_eq input).symm
    · exact absurd (houtcome.symm.trans herror) nofun
  · intro fault hfault
    rcases hyields with hok | ⟨rows, hrows, cols, hcols, herror, hwords⟩
    · exact absurd (hok.symm.trans hfault) nofun
    · exact ⟨rows, hrows, cols, hcols, Except.error.inj (hfault.symm.trans herror), hwords⟩

/-- Without validation, a slot that does not exist is outside of a matrix. -/
example : DependencyInput.relationsByAccess { slots := ["x"], groups := [{ read := [1] }] } =
    .error (.outOfRange (.entry 0 1 1 1)) := by decide +kernel

/-- Without validation, a row that is too short has no place for a guard. -/
example : DependencyInput.relationsByAccess
    { slots := [], groups := [], guards := [{}, {}], mayBeCoenabled := some [[true], [true, true]] } =
    .error (.place 1 1) := by decide +kernel

end DependencyMatrices

end StateSpace
