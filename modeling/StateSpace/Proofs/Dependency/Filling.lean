import Mathlib.Algebra.BigOperators.Fin
import Mathlib.Data.Finset.Prod
import StateSpace.Proofs.Dependency.BitMatrix

/-!
# Filling a bit matrix

A matrix is made without relations or from sets of columns (`Origin`), and then entries of it are written one after
another (`Filling`). An entry then has the last value that was written to it, or its first value if none was
(`Filling.value`). All that can be read of the matrix says the same (`Reads`): entries, rows, columns and the number of
pairs; the rows of two matrices overlap if they have a column in common, and the matrices are equal if they agree on
every pair (`filled_eq_relation`).

A write changes one bit of one word; that it leaves the neighbours in the word and in the words beside it alone is
`entry_put`, and that all bits are those of some column, so that they can be counted word by word, is `count_eq`.
-/

namespace StateSpace.BitMatrix

/-! ## Reading inside a matrix -/

theorem get_eq_ok {m : BitMatrix} {r c : Nat} (hr : r < m.rows) (hc : c < m.cols) : m.get r c = .ok (m.entry r c) := by
  simp [get, checkEntry, hr, hc, bind, Except.bind, pure, Except.pure]

theorem row_eq_ok {m : BitMatrix} {r : Nat} (hr : r < m.rows) : m.row r = .ok (m.rowList r) := if_pos hr

theorem col_eq_ok {m : BitMatrix} {c : Nat} (hc : c < m.cols) : m.col c = .ok (m.colList c) := if_pos hc

theorem overlap_eq_ok {m m' : BitMatrix} {i j : Nat} (hcols : m.cols = m'.cols) (hi : i < m.rows) (hj : j < m'.rows) :
    m.overlap i m' j = .ok (m.meets i m' j) := by
  have hwords : m.checkWords i = .ok () := if_pos (.inl hi)
  have hwords' : m'.checkWords j = .ok () := if_pos (.inl hj)
  simp [overlap, hcols, hwords, hwords', bind, Except.bind, pure, Except.pure]

/-! ## Counting -/

/-- A sum over all places is one over the words of each row. -/
theorem sum_places (f : Nat → Nat) (rows n : Nat) :
    ∑ k ∈ Finset.range (rows * n), f k = ∑ r ∈ Finset.range rows, ∑ w ∈ Finset.range n, f (r * n + w) := by
  induction rows with
  | zero => simp
  | succ rows ih => rw [Nat.succ_mul, Finset.sum_range_add, ih, Finset.sum_range_succ]

theorem sum_words (bits : Array UInt64) (f : UInt64 → Nat) :
    (bits.toList.map f).sum = ∑ k ∈ Finset.range bits.size, f (bits.getD k 0) := by
  rw [Finset.sum_range, ← List.sum_ofFn]
  congr 1
  refine List.ext_getElem (by simp) fun k hk hk' => ?_
  simp

theorem foldl_count (words : List UInt64) (n : Nat) :
    words.foldl (fun n word => n + Bits.count word) n = n + (words.map Bits.count).sum := by
  induction words generalizing n with
  | nil => rfl
  | cons word rest ih => rw [List.foldl_cons, ih, List.map_cons, List.sum_cons, Nat.add_assoc]

/-- The bits of all words are the columns of all rows. -/
theorem count_eq (m : BitMatrix) : m.count = ∑ r ∈ Finset.range m.rows, (m.rowList r).length := by
  rw [count, ← Array.foldl_toList, foldl_count, Nat.zero_add, sum_words, m.size_eq, sum_places]
  refine Finset.sum_congr rfl fun r _ => ?_
  rw [rowList, List.length_flatMap]
  simp only [List.length_map]
  rfl

/-! ## The matrix of a relation -/

section

variable {rows cols : Nat} (related : Nat → Nat → Bool)

theorem rowList_ofFn {r : Nat} (hr : r < rows) :
    (ofFn rows cols related).rowList r = (List.range cols).filter (related r) := by
  rw [rowList_eq]
  exact List.filter_congr fun c hc => entry_ofFn_of_lt related hr (List.mem_range.1 hc)

theorem colList_ofFn {c : Nat} (hc : c < cols) :
    (ofFn rows cols related).colList c = (List.range rows).filter (related · c) :=
  List.filter_congr fun _ hr => entry_ofFn_of_lt related (List.mem_range.1 hr) hc

/-- Two relations have the same matrix exactly if they agree inside it. -/
theorem ofFn_eq_iff {related related' : Nat → Nat → Bool} : ofFn rows cols related = ofFn rows cols related' ↔
    ∀ r < rows, ∀ c < cols, related r c = related' r c := by
  refine ⟨fun heq r hr c hc => ?_, ofFn_congr⟩
  rw [← entry_ofFn_of_lt related hr hc, heq, entry_ofFn_of_lt related' hr hc]

/-- Counting pairs row by row. -/
theorem card_pairs : ((Finset.range rows ×ˢ Finset.range cols).filter fun p => related p.1 p.2 = true).card =
    ∑ r ∈ Finset.range rows, ((List.range cols).filter (related r)).length := by
  rw [Finset.card_filter, Finset.sum_product]
  refine Finset.sum_congr rfl fun r _ => ?_
  rw [← Finset.card_filter, ← List.toFinset_card_of_nodup (List.nodup_range.filter _), List.toFinset_filter,
    List.toFinset_range]

theorem count_ofFn : (ofFn rows cols related).count =
    ((Finset.range rows ×ˢ Finset.range cols).filter fun p => related p.1 p.2 = true).card := by
  rw [count_eq, card_pairs]
  refine Finset.sum_congr rfl fun r hr => ?_
  rw [rowList_ofFn related (Finset.mem_range.1 hr)]

/-- What is read inside a matrix is what a relation says. -/
structure Reads (m : BitMatrix) (rows cols : Nat) (value : Nat → Nat → Bool) : Prop where
  rows_eq : m.rows = rows
  cols_eq : m.cols = cols
  /-- No bit is set from the last column on. -/
  packed : Packed m.cols m.bits
  get_eq : ∀ r < rows, ∀ c < cols, m.get r c = .ok (value r c)
  /-- A row is the ascending list of its columns. -/
  row_eq : ∀ r < rows, ∃ columns, m.row r = .ok columns ∧ columns.Pairwise (· < ·) ∧
    ∀ c, c ∈ columns ↔ c < cols ∧ value r c = true
  /-- A column is the ascending list of its rows. -/
  col_eq : ∀ c < cols, ∃ members, m.col c = .ok members ∧ members.Pairwise (· < ·) ∧
    ∀ r, r ∈ members ↔ r < rows ∧ value r c = true
  count_eq : m.count = ((Finset.range rows ×ˢ Finset.range cols).filter fun p => value p.1 p.2 = true).card

theorem reads_ofFn : (ofFn rows cols related).Reads rows cols related where
  rows_eq := rfl
  cols_eq := rfl
  packed := (ofFn rows cols related).packed
  get_eq := fun r hr c hc => by
    have hget : (ofFn rows cols related).get r c = .ok ((ofFn rows cols related).entry r c) := get_eq_ok hr hc
    rw [hget, entry_ofFn_of_lt related hr hc]
  row_eq := fun r hr => by
    refine ⟨_, row_eq_ok hr, ?_, fun c => ?_⟩
    · rw [rowList_ofFn related hr]
      exact List.pairwise_lt_range.filter _
    · rw [rowList_ofFn related hr, List.mem_filter, List.mem_range]
  col_eq := fun c hc => by
    refine ⟨_, col_eq_ok hc, ?_, fun r => ?_⟩
    · rw [colList_ofFn related hc]
      exact List.pairwise_lt_range.filter _
    · rw [colList_ofFn related hc, List.mem_filter, List.mem_range]
  count_eq := count_ofFn related

end

/-! ## Two matrices -/

/-- Rows overlap if they have a column in common. -/
theorem exists_overlap {m m' : BitMatrix} (hcols : m.cols = m'.cols) {i j : Nat} (hi : i < m.rows) (hj : j < m'.rows) :
    ∃ overlaps, m.overlap i m' j = .ok overlaps ∧
      (overlaps = true ↔ ∃ c < m.cols, m.get i c = .ok true ∧ m'.get j c = .ok true) := by
  refine ⟨_, overlap_eq_ok hcols hi hj, (meets_iff hcols).trans (exists_congr fun c => ?_)⟩
  by_cases hc : c < m.cols
  · rw [get_eq_ok hi hc, get_eq_ok hj (hcols ▸ hc)]
    simp [hc]
  · simp [hc, entry]

theorem ofFn_eq_iff_get {rows cols rows' cols' : Nat} (value value' : Nat → Nat → Bool) (hrows : rows = rows')
    (hcols : cols = cols') : ofFn rows cols value = ofFn rows' cols' value' ↔
      ∀ r < rows, ∀ c < cols, (ofFn rows cols value).get r c = (ofFn rows' cols' value').get r c := by
  subst hrows hcols
  rw [ofFn_eq_iff]
  refine forall_congr' fun r => forall_congr' fun hr => forall_congr' fun c => forall_congr' fun hc => ?_
  rw [(reads_ofFn value).get_eq r hr c hc, (reads_ofFn value').get_eq r hr c hc, Except.ok.injEq]

/-! ## Making and writing -/

/-- A value for an entry. -/
structure Write where
  row : Nat
  col : Nat
  value : Bool
  deriving DecidableEq, Repr

/-- How a matrix is made. -/
inductive Origin where
  /-- Without relations. -/
  | blank (rows cols : Nat)
  /-- Each row from a set of columns. -/
  | fromSets (cols : Nat) (sets : List (List Nat))
  deriving DecidableEq, Repr

namespace Origin

def rows : Origin → Nat
  | .blank rows _ => rows
  | .fromSets _ sets => sets.length

def cols : Origin → Nat
  | .blank _ cols => cols
  | .fromSets cols _ => cols

/-- The columns that are listed for a row. -/
def listed : Origin → Nat → List Nat
  | .blank _ _, _ => []
  | .fromSets _ sets, r => sets.getD r []

def make : Origin → Except MakeError BitMatrix
  | .blank rows cols => create rows cols
  | .fromSets cols sets => createFrom cols sets

end Origin

/-- Writes values one after another. -/
def writeAll (m : BitMatrix) (writes : List Write) : Except OutOfRange BitMatrix :=
  writes.foldlM (fun m w => m.set w.row w.col w.value) m

/-- The last value that is written to an entry. -/
def lastWritten (writes : List Write) (r c : Nat) : Option Bool :=
  (writes.reverse.find? fun w => w.row = r ∧ w.col = c).map (·.value)

/-- A matrix and what is written to it. -/
structure Filling where
  origin : Origin
  writes : List Write
  deriving DecidableEq, Repr

namespace Filling

/-- The matrix after all writes. -/
def run (f : Filling) : Except MakeError BitMatrix := do
  let m ← f.origin.make
  (m.writeAll f.writes).mapError .outOfRange

/-- The last value of an entry; if none was written, whether its column was listed for its row. -/
def value (f : Filling) (r c : Nat) : Bool := (lastWritten f.writes r c).getD ((f.origin.listed r).contains c)

/-- The words of the matrix can be addressed, and everything that is listed or written is inside. -/
structure InRange (f : Filling) : Prop where
  words_lt : words f.origin.rows f.origin.cols < 1 <<< 60
  listed_lt : ∀ r < f.origin.rows, ∀ c ∈ f.origin.listed r, c < f.origin.cols
  writes_lt : ∀ w ∈ f.writes, w.row < f.origin.rows ∧ w.col < f.origin.cols

end Filling

theorem lastWritten_cons (w : Write) (rest : List Write) (r c : Nat) : lastWritten (w :: rest) r c =
    (lastWritten rest r c).or (if w.row = r ∧ w.col = c then some w.value else none) := by
  unfold lastWritten
  rw [List.reverse_cons, List.find?_append, Option.map_or]
  congr 1
  by_cases hw : w.row = r ∧ w.col = c <;> simp [hw]

theorem lastWritten_eq_some {writes : List Write} {r c : Nat} {value : Bool} (h : lastWritten writes r c = some value) :
    ⟨r, c, value⟩ ∈ writes := by
  obtain ⟨w, hw, rfl⟩ := Option.map_eq_some_iff.1 h
  have hplace := List.find?_some hw
  have hmem := List.mem_reverse.1 (List.mem_of_find?_eq_some hw)
  obtain ⟨rfl, rfl⟩ := of_decide_eq_true hplace
  exact hmem

theorem lastWritten_eq_none {writes : List Write} {r c : Nat} (h : lastWritten writes r c = none) (value : Bool) :
    ⟨r, c, value⟩ ∉ writes := by
  intro hmem
  have hall := List.find?_eq_none.1 (Option.map_eq_none_iff.1 h) _ (List.mem_reverse.2 hmem)
  simp at hall

/-- Writes change the entries that they are about, to the last value for each. -/
theorem writeAll_ofFn {rows cols : Nat} (writes : List Write) (related : Nat → Nat → Bool)
    (h : ∀ w ∈ writes, w.row < rows ∧ w.col < cols) : (ofFn rows cols related).writeAll writes =
      .ok (ofFn rows cols fun r c => (lastWritten writes r c).getD (related r c)) := by
  induction writes generalizing related with
  | nil => rfl
  | cons w rest ih =>
    obtain ⟨hr, hc⟩ := h w List.mem_cons_self
    have ih := ih (fun r c => if r = w.row ∧ c = w.col then w.value else related r c)
      fun w' hw' => h w' (List.mem_cons_of_mem w hw')
    unfold writeAll at ih ⊢
    rw [List.foldlM_cons, set_ofFn related hr hc]
    refine ih.trans (congrArg Except.ok (ofFn_congr fun r _ c _ => ?_))
    rw [lastWritten_cons]
    cases lastWritten rest r c with
    | some value => simp
    | none =>
      simp only [Option.getD_none, Option.none_or, eq_comm (a := r), eq_comm (a := c)]
      split <;> rfl

theorem reserve_eq_ok_iff {rows cols : Nat} : reserve rows cols = .ok () ↔ words rows cols < 1 <<< 60 := by
  unfold reserve
  split
  · rename_i h
    exact iff_of_true rfl h
  · rename_i h
    exact iff_of_false nofun h

/-- A matrix is made as the one of what is listed. -/
theorem Origin.make_eq {origin : Origin} (hwords : words origin.rows origin.cols < 1 <<< 60)
    (hlisted : ∀ r < origin.rows, ∀ c ∈ origin.listed r, c < origin.cols) :
    origin.make = .ok (ofFn origin.rows origin.cols fun r c => (origin.listed r).contains c) := by
  have hreserve := reserve_eq_ok_iff.2 hwords
  cases origin with
  | blank rows cols =>
    dsimp only [Origin.rows, Origin.cols] at hreserve
    simp only [make, create, hreserve, zero_eq_ofFn, bind, Except.bind, pure, Except.pure]
    rfl
  | fromSets cols sets =>
    dsimp only [Origin.rows, Origin.cols] at hreserve
    have hsets : ∀ set ∈ sets, ∀ c ∈ id set, c < cols := by
      intro set hset
      obtain ⟨r, hr, rfl⟩ := List.getElem_of_mem hset
      have hlisted := hlisted r hr
      rwa [Origin.listed, List.getD_eq_getElem _ _ hr] at hlisted
    have hofSets := ofSets_map [] id sets hsets
    rw [List.map_id] at hofSets
    simp only [make, createFrom, hreserve, hofSets, bind, Except.bind, Except.mapError]
    rfl

/-- A filled matrix is that of the last values. -/
theorem Filling.InRange.run_eq {f : Filling} (h : f.InRange) :
    f.run = .ok (ofFn f.origin.rows f.origin.cols f.value) := by
  have hwrites := writeAll_ofFn f.writes (fun r c => (f.origin.listed r).contains c) h.writes_lt
  simp only [run, Origin.make_eq h.words_lt h.listed_lt, hwrites, bind, Except.bind, Except.mapError]
  rfl

/-- **A filled matrix is a relation.** Two matrices that are made and written in range exist, and what is read of them
is the last value of each entry. If they have as many columns, a row of one and a row of the other overlap exactly if
some column is set in both; if they have the same dimensions, they are equal exactly if all their entries are. -/
theorem filled_eq_relation {f f' : Filling} (h : f.InRange) (h' : f'.InRange) :
    ∃ m m', f.run = .ok m ∧ f'.run = .ok m' ∧ m.Reads f.origin.rows f.origin.cols f.value ∧
      m'.Reads f'.origin.rows f'.origin.cols f'.value ∧
      (m.cols = m'.cols → ∀ i < m.rows, ∀ j < m'.rows, ∃ overlaps, m.overlap i m' j = .ok overlaps ∧
        (overlaps = true ↔ ∃ c < m.cols, m.get i c = .ok true ∧ m'.get j c = .ok true)) ∧
      (m.rows = m'.rows → m.cols = m'.cols → (m = m' ↔ ∀ r < m.rows, ∀ c < m.cols, m.get r c = m'.get r c)) := by
  refine ⟨_, _, h.run_eq, h'.run_eq, reads_ofFn f.value, reads_ofFn f'.value, fun hcols i hi j hj => ?_,
    fun hrows hcols => ?_⟩
  · exact exists_overlap hcols hi hj
  · exact ofFn_eq_iff_get f.value f'.value hrows hcols

/-- Entries on both sides of a word boundary, one of them taken back, and one in the last column. -/
def boundary : Filling :=
  ⟨.blank 3 130, [⟨1, 0, true⟩, ⟨1, 63, true⟩, ⟨1, 64, true⟩, ⟨2, 129, true⟩, ⟨1, 63, false⟩]⟩

/-- Columns that are listed twice and out of order. -/
def unordered : Filling := ⟨.fromSets 130 [[64, 5, 64]], []⟩

theorem filled_eq_relation_boundary : boundary.InRange ∧ unordered.InRange ∧
    ∃ m m', boundary.run = .ok m ∧ unordered.run = .ok m' ∧ m.get 1 63 = .ok false ∧ m.get 1 64 = .ok true ∧
      m.count = 3 ∧ m.overlap 1 m' 0 = .ok true := by
  have hboundary : boundary.InRange := ⟨by decide, by decide, by decide⟩
  have hunordered : unordered.InRange := ⟨by decide, by decide, by decide⟩
  obtain ⟨m, m', hm, hm', hreads, hreads', hoverlap, -⟩ := filled_eq_relation hboundary hunordered
  have h63 : m.get 1 63 = .ok false := hreads.get_eq 1 (by decide) 63 (by decide)
  have h64 : m.get 1 64 = .ok true := hreads.get_eq 1 (by decide) 64 (by decide)
  have h64' : m'.get 0 64 = .ok true := hreads'.get_eq 0 (by decide) 64 (by decide)
  have hcount : m.count = 3 := hreads.count_eq.trans (by decide +kernel)
  have hcols : m.cols = m'.cols := hreads.cols_eq.trans hreads'.cols_eq.symm
  have hrow : 1 < m.rows := by
    rw [hreads.rows_eq]
    decide
  have hrow' : 0 < m'.rows := by
    rw [hreads'.rows_eq]
    decide
  have hcol : 64 < m.cols := by
    rw [hreads.cols_eq]
    decide
  obtain ⟨overlaps, hoverlaps, hiff⟩ := hoverlap hcols 1 hrow 0 hrow'
  obtain rfl := hiff.2 ⟨64, hcol, h64, h64'⟩
  exact ⟨hboundary, hunordered, m, m', hm, hm', h63, h64, hcount, hoverlaps⟩

/-! ## Out of range -/

theorem bind_eq_ok_iff {ε α β : Type} {a : Except ε α} {f : α → Except ε β} {b : β} :
    (a >>= f) = .ok b ↔ ∃ x, a = .ok x ∧ f x = .ok b := by
  cases a <;> simp [bind, Except.bind]

theorem mapError_eq_ok_iff {ε ε' α : Type} {a : Except ε α} {f : ε → ε'} {b : α} :
    a.mapError f = .ok b ↔ a = .ok b := by
  cases a <;> simp [Except.mapError]

theorem set_eq_ok {m m' : BitMatrix} {r c : Nat} {value : Bool} (h : m.set r c value = .ok m') :
    r < m.rows ∧ c < m.cols ∧ m'.rows = m.rows ∧ m'.cols = m.cols := by
  unfold set checkEntry at h
  split at h
  · rename_i hlt
    refine ⟨hlt.1, hlt.2, ?_⟩
    cases h
    exact ⟨rfl, rfl⟩
  · cases h

/-- Writes that succeed are all inside the matrix. -/
theorem lt_of_writeAll_eq_ok {m m' : BitMatrix} {writes : List Write} (h : m.writeAll writes = .ok m') :
    ∀ w ∈ writes, w.row < m.rows ∧ w.col < m.cols := by
  induction writes generalizing m with
  | nil => simp
  | cons w rest ih =>
    unfold writeAll at ih h
    rw [List.foldlM_cons, bind_eq_ok_iff] at h
    obtain ⟨m₁, hset, hrest⟩ := h
    obtain ⟨hr, hc, hrows, hcols⟩ := set_eq_ok hset
    have ih := ih hrest
    rw [hrows, hcols] at ih
    exact List.forall_mem_cons.2 ⟨⟨hr, hc⟩, ih⟩

/-- A fold over lists one after another. -/
theorem foldlM_flatMap {m : Type → Type} [Monad m] [LawfulMonad m] {α β γ : Type} (f : γ → β → m γ) (g : α → List β)
    (l : List α) (init : γ) : (l.flatMap g).foldlM f init = l.foldlM (fun c a => (g a).foldlM f c) init := by
  induction l generalizing init with
  | nil => rfl
  | cons a rest ih => simp only [List.flatMap_cons, List.foldlM_append, List.foldlM_cons, ih]

/-- Filling a matrix from sets is writing what they list. -/
theorem ofSets_eq_writeAll (cols : Nat) (sets : List (List Nat)) : ofSets cols sets =
    (zero sets.length cols).writeAll (sets.zipIdx.flatMap fun (set, r) => set.map fun c => ⟨r, c, true⟩) := by
  unfold writeAll
  rw [foldlM_flatMap]
  simp only [List.foldlM_map]
  rfl

/-- A matrix that was made can be stored, and the columns that were listed exist. -/
theorem Origin.lt_of_make_eq_ok {origin : Origin} {m : BitMatrix} (h : origin.make = .ok m) :
    words origin.rows origin.cols < 1 <<< 60 ∧ ∀ r < origin.rows, ∀ c ∈ origin.listed r, c < origin.cols := by
  cases origin with
  | blank rows cols =>
    obtain ⟨⟨⟩, hreserve, -⟩ := bind_eq_ok_iff.1 h
    exact ⟨reserve_eq_ok_iff.1 hreserve, fun r _ c hc => by simp [listed] at hc⟩
  | fromSets cols sets =>
    obtain ⟨⟨⟩, hreserve, hsets⟩ := bind_eq_ok_iff.1 h
    have hfilled := lt_of_writeAll_eq_ok ((ofSets_eq_writeAll cols sets).symm.trans (mapError_eq_ok_iff.1 hsets))
    refine ⟨reserve_eq_ok_iff.1 hreserve, fun r hr c hc => ?_⟩
    have hr : r < sets.length := hr
    rw [listed, List.getD_eq_getElem _ _ hr] at hc
    have hentry : (sets[r], r) ∈ sets.zipIdx := List.mk_mem_zipIdx_iff_getElem?.2 (List.getElem?_eq_getElem hr)
    exact (hfilled ⟨r, c, true⟩ (List.mem_flatMap.2 ⟨_, hentry, List.mem_map.2 ⟨c, hc, rfl⟩⟩)).2

/-- A matrix can be filled exactly if everything is in range. -/
theorem Filling.exists_run_iff {f : Filling} : (∃ m, f.run = .ok m) ↔ f.InRange := by
  refine ⟨?_, fun h => ⟨_, h.run_eq⟩⟩
  rintro ⟨m, hrun⟩
  obtain ⟨m₀, hmake, hwrites⟩ := bind_eq_ok_iff.1 hrun
  obtain ⟨hwords, hlisted⟩ := Origin.lt_of_make_eq_ok hmake
  obtain rfl := Except.ok.inj (hmake.symm.trans (Origin.make_eq hwords hlisted))
  exact ⟨hwords, hlisted, lt_of_writeAll_eq_ok (mapError_eq_ok_iff.1 hwrites)⟩

end StateSpace.BitMatrix
