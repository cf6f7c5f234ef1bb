import StateSpace.Dependency.Listing
import StateSpace.Proofs.Dependency.Relations

/-!
# The listing and the matrices tell the same story

The listing looks for each slot in the lists of an input, in which slots can be repeated and stand in any order. The
matrices have an entry for each slot, and what a group must write it may write too. Here the listing is written down
once more, from the entries of the matrices (`GivenRelations.listing`), by way of the marks that they give a line
(`GivenRelations.lineMarks`). For a valid input both are the same (`Describes.listing_eq`), so no mark is repeated, and
the listing does not depend on how the sets are listed (`listing_exact`).
-/

namespace StateSpace

/-- What a line of the listing says of a slot. -/
inductive SlotMark where
  | read
  | mustWrite
  /-- The slot may be written, and need not be. -/
  | mayWrite
  deriving DecidableEq, Repr

def SlotMark.text (name : String) : SlotMark → String
  | .read => s!"R({name}), "
  | .mustWrite => s!"w({name}), "
  | .mayWrite => s!"W({name}), "

/-- The order of the marks on a line: the slots ascend, and a slot is read before it is written. -/
def Precedes (a b : Nat × SlotMark) : Prop := a.1 < b.1 ∨ a.1 = b.1 ∧ a.2 = .read ∧ b.2 ≠ .read

theorem not_precedes_self (a : Nat × SlotMark) : ¬ Precedes a a := by
  rintro (hlt | ⟨-, hread, hwrite⟩)
  · exact Nat.lt_irrefl a.1 hlt
  · exact hwrite hread

namespace GivenRelations

/-! ## The listing of matrices -/

section

variable (r : GivenRelations)

/-- The marks of slot `s` on the line of group `i`. -/
def marksOf (i s : Nat) : List SlotMark :=
  (if r.read.entry i s then [.read] else []) ++
    if r.mustWrite.entry i s then [.mustWrite] else if r.mayWrite.entry i s then [.mayWrite] else []

/-- The entries for which a slot has a mark: a may-write is left out beside a must-write. -/
def Warrants (i s : Nat) : SlotMark → Prop
  | .read => r.read.entry i s = true
  | .mustWrite => r.mustWrite.entry i s = true
  | .mayWrite => r.mayWrite.entry i s = true ∧ r.mustWrite.entry i s = false

/-- All marks on the line of group `i`, slot by slot. -/
def lineMarks (i : Nat) : List (Nat × SlotMark) :=
  (List.range r.slots).flatMap fun s => (r.marksOf i s).map fun mark => (s, mark)

/-- The line of group `i`, with the given names. -/
def listingLine (groupName slotName : Nat → String) (i : Nat) : String :=
  s!"{i})\t{groupName i}\t" ++ String.join ((r.lineMarks i).map fun (s, mark) => mark.text (slotName s)) ++ "\n"

/-- A line for each group. -/
def listing (groupName slotName : Nat → String) : String :=
  String.join ((List.range r.groups).map (r.listingLine groupName slotName))

end

/-! ## Marks -/

section

variable {r : GivenRelations} {i s : Nat}

theorem mem_marksOf {mark : SlotMark} : mark ∈ r.marksOf i s ↔ r.Warrants i s mark := by
  unfold marksOf Warrants
  cases r.read.entry i s <;> cases r.mustWrite.entry i s <;> cases r.mayWrite.entry i s <;> cases mark <;> simp

theorem pairwise_marksOf (r : GivenRelations) (i s : Nat) :
    (r.marksOf i s).Pairwise fun a b => a = .read ∧ b ≠ .read := by
  unfold marksOf
  cases r.read.entry i s <;> cases r.mustWrite.entry i s <;> cases r.mayWrite.entry i s <;> simp

theorem mem_lineMarks {mark : SlotMark} : (s, mark) ∈ r.lineMarks i ↔ s < r.slots ∧ mark ∈ r.marksOf i s := by
  unfold lineMarks
  simp only [List.mem_flatMap, List.mem_range, List.mem_map, Prod.mk.injEq]
  constructor
  · rintro ⟨s', hs', mark', hmark', rfl, rfl⟩
    exact ⟨hs', hmark'⟩
  · rintro ⟨hs, hmark⟩
    exact ⟨s, hs, mark, hmark, rfl, rfl⟩

theorem pairwise_lineMarks (r : GivenRelations) (i : Nat) : (r.lineMarks i).Pairwise Precedes := by
  unfold lineMarks
  rw [List.pairwise_flatMap]
  refine ⟨fun s _ => ?_, List.pairwise_lt_range.imp fun hlt a ha b hb => ?_⟩
  · exact List.pairwise_map.2 ((r.pairwise_marksOf i s).imp fun hmarks => .inr ⟨rfl, hmarks⟩)
  · obtain ⟨_, -, rfl⟩ := List.mem_map.1 ha
    obtain ⟨_, -, rfl⟩ := List.mem_map.1 hb
    exact .inl hlt

end

end GivenRelations

/-! ## The listing of an input -/

/-- Joining groups of pieces, each of them joined first. -/
theorem join_flatMap {α : Type} (l : List α) (f : α → List String) :
    String.join (l.flatMap f) = String.join (l.map fun a => String.join (f a)) := by
  induction l with
  | nil => rfl
  | cons a rest ih => rw [List.flatMap_cons, String.join_append, ih, List.map_cons, String.join_cons]

/-- A map that is given the index of each member. -/
theorem mapIdx_eq_map_range {α β : Type} (default : α) (f : Nat → α → β) (l : List α) :
    l.mapIdx f = (List.range l.length).map fun i => f i (l.getD i default) := by
  refine List.ext_getElem (by simp) fun i hi _ => ?_
  have hi : i < l.length := by simpa using hi
  simp [List.getElem?_eq_getElem hi]

namespace GivenRelations

variable {input : DependencyInput} {r : GivenRelations}

/-- A slot is marked for a group as the matrices say. -/
theorem Describes.slotMarks_eq (h : r.Describes input) {i s : Nat} (hi : i < input.groups.length)
    (hs : s < input.slots.length) (name : String) :
    (input.group i).slotMarks s name = String.join ((r.marksOf i s).map (SlotMark.text name)) := by
  have hread : (input.group i).read.contains s = r.read.entry i s := by
    rw [Bool.eq_iff_iff, List.contains_iff_mem, h.read.entry_iff_of_lt hi hs]
    exact Iff.rfl
  have hmust : (input.group i).mustWrite.contains s = r.mustWrite.entry i s := by
    rw [Bool.eq_iff_iff, List.contains_iff_mem, h.mustWrite.entry_iff_of_lt hi hs]
    exact Iff.rfl
  -- what is listed as a must-write alone is an entry of both matrices
  have hmay : r.mayWrite.entry i s = ((input.group i).mayWrite.contains s || r.mustWrite.entry i s) := by
    rw [← hmust, Bool.eq_iff_iff, Bool.or_eq_true, List.contains_iff_mem, List.contains_iff_mem,
      h.mayWrite.entry_iff_of_lt hi hs]
    exact Iff.rfl
  unfold GroupDependencies.slotMarks marksOf
  rw [hread, hmust, hmay]
  cases r.read.entry i s <;> cases r.mustWrite.entry i s <;> cases (input.group i).mayWrite.contains s <;>
    simp [SlotMark.text, String.join_cons]

/-- The listing can be read off the matrices. -/
theorem Describes.listing_eq (h : r.Describes input) :
    input.listing = r.listing (fun i => (input.group i).name) fun s => input.slots.getD s "" := by
  have hslots : r.slots = input.slots.length := h.read.cols_eq
  unfold DependencyInput.listing listing
  rw [mapIdx_eq_map_range {}, h.groups_eq]
  refine congrArg String.join (List.map_congr_left fun i hi => ?_)
  unfold DependencyInput.listingLine listingLine lineMarks
  rw [mapIdx_eq_map_range "", List.map_flatMap, join_flatMap, hslots]
  refine congrArg (fun marks => s!"{i})\t{(input.group i).name}\t" ++ String.join marks ++ "\n") ?_
  refine List.map_congr_left fun s hs => ?_
  rw [List.map_map]
  exact h.slotMarks_eq (List.mem_range.1 hi) (List.mem_range.1 hs) _

/-- Nothing outside the matrices is marked. -/
theorem Describes.mem_lineMarks_iff (h : r.Describes input) {i s : Nat} {mark : SlotMark} :
    (s, mark) ∈ r.lineMarks i ↔ r.Warrants i s mark := by
  rw [mem_lineMarks, mem_marksOf]
  refine ⟨fun hmark => hmark.2, fun hmark => ⟨?_, hmark⟩⟩
  have hslots : r.slots = input.slots.length := h.read.cols_eq
  rw [hslots]
  cases mark with
  | read => exact ((h.read.entry_iff i s).1 hmark).2.1
  | mustWrite => exact ((h.mustWrite.entry_iff i s).1 hmark).2.1
  | mayWrite => exact ((h.mayWrite.entry_iff i s).1 hmark.1).2.1

end GivenRelations

/-- The inputs name the same slots and groups, and their groups read and write the same slots, in whatever order and
however often they list them. -/
structure DependencyInput.SameLines (input input' : DependencyInput) : Prop where
  slots_eq : input'.slots = input.slots
  groups_eq : input'.groups.length = input.groups.length
  name_eq : ∀ i, (input'.group i).name = (input.group i).name
  reads_eq : input'.reads = input.reads
  mustWrites_eq : input'.mustWrites = input.mustWrites
  writes_eq : input'.writes = input.writes

theorem DependencyInput.SameLines.listing_eq {input input' : DependencyInput} (h : input.SameLines input') :
    input'.listing = input.listing := by
  have hd := GivenRelations.describes_given input
  have hd' := GivenRelations.describes_given input'
  have hsame {sets sets' : Nat → Set Nat} {m m' : BitMatrix} (heq : sets' = sets)
      (hm' : m'.Represents input'.groups.length input'.slots.length fun t x => x ∈ sets' t)
      (hm : m.Represents input.groups.length input.slots.length fun t x => x ∈ sets t) : m' = m := by
    rw [heq, h.groups_eq, h.slots_eq] at hm'
    exact hm'.unique hm
  have hread := hsame h.reads_eq hd'.read hd.read
  have hmust := hsame h.mustWrites_eq hd'.mustWrite hd.mustWrite
  have hmay := hsame h.writes_eq hd'.mayWrite hd.mayWrite
  rw [hd'.listing_eq, hd.listing_eq, h.slots_eq, funext h.name_eq]
  unfold GivenRelations.listing GivenRelations.listingLine GivenRelations.lineMarks GivenRelations.marksOf
    GivenRelations.groups GivenRelations.slots
  rw [hread, hmust, hmay]

namespace DependencyMatrices

variable {input : DependencyInput}

/-- **The listing tells what the matrices hold.** A valid input has matrices, and its listing is theirs: a line for each
group, with its number, its name and its marks. The marks of a line are those that the entries warrant, each of them
once, slot by slot and what is read before what is written. The listing depends on the slots that the groups read and
write, and not on how the input lists them. -/
theorem listing_exact (h : input.validate = .ok ()) :
    (∃ m, build input = .ok m ∧
      input.listing = m.listing (fun i => (input.group i).name) (fun s => input.slots.getD s "") ∧
      ∀ i, (m.lineMarks i).Pairwise Precedes ∧ (m.lineMarks i).Nodup ∧
        ∀ s mark, (s, mark) ∈ m.lineMarks i ↔ m.Warrants i s mark) ∧
    ∀ input' : DependencyInput, input.SameLines input' → input'.listing = input.listing := by
  obtain ⟨m, hm, hdescribes⟩ := describes_of_valid (DependencyInput.validate_eq_ok_iff.1 h)
  refine ⟨⟨m, hm, hdescribes.given.listing_eq, fun i => ?_⟩, fun input' hsame => hsame.listing_eq⟩
  have hpairwise := m.pairwise_lineMarks i
  refine ⟨hpairwise, hpairwise.imp fun hlt heq => ?_, fun s mark => hdescribes.given.mem_lineMarks_iff⟩
  subst heq
  exact not_precedes_self _ hlt

/-- Slots that are listed twice have one mark, and a must-write that is not listed as a may-write is one. -/
theorem listing_exact_meter : meter.validate = .ok () ∧ meter.SameLines relisted ∧ relisted.listing = meter.listing ∧
    ∃ m, build meter = .ok m ∧ m.lineMarks 0 = [(0, .read), (0, .mustWrite)] ∧
      m.lineMarks 1 = [(0, .read), (1, .read), (1, .mayWrite)] ∧
      meter.listing = m.listing (fun i => (meter.group i).name) fun s => meter.slots.getD s "" := by
  have hvalid : meter.validate = .ok () := by decide
  have hsame : meter.SameLines relisted := {
    slots_eq := rfl
    groups_eq := rfl
    name_eq := fun i => by rcases i with _ | _ | _ | i <;> rfl
    reads_eq := sameSets_relisted.reads_eq
    mustWrites_eq := sameSets_relisted.mustWrites_eq
    writes_eq := sameSets_relisted.writes_eq }
  obtain ⟨⟨m, hm, hlisting, -⟩, hlines⟩ := listing_exact hvalid
  have hfirst : m.lineMarks 0 = [(0, .read), (0, .mustWrite)] :=
    eq_of_map_build (f := (·.lineMarks 0)) hm (by decide +kernel)
  have hsecond : m.lineMarks 1 = [(0, .read), (1, .read), (1, .mayWrite)] :=
    eq_of_map_build (f := (·.lineMarks 1)) hm (by decide +kernel)
  exact ⟨hvalid, hsame, hlines _ hsame, m, hm, hfirst, hsecond, hlisting⟩

end DependencyMatrices

end StateSpace
