import StateSpace.Proofs.Explore.Steps
import StateSpace.Proofs.Table.Accesses

/-!
# The buffers of an explorer

The pending states lie in two arrays, the top at the end: their marks, and the words of all of them in one row. The
successors of a state are collected in two more arrays before they are put on top. That a mark and some words belong
together is said nowhere, it is a matter of positions, and the number of words in a state is taken from the model.

Here a session is written down once more, access by access (`Session.explore`), on a table as it is stored. Its loop has
no bound; `Session.Head` is the storage whenever the loop begins a turn. Both pairs of arrays are rows of states
(`Row`): a state is added at the end (`Row.push`), found at its position (`Row.split`), and taken off the end
(`Row.pop`).
-/

namespace StateSpace.Explorer

open Access

/-- What a session works on: the buffers of its explorer, its table, its counters and its sink. -/
structure Storage (σ : Type) where
  /-- The marks of the pending states. -/
  marks : Array Mark
  /-- The words of the pending states. -/
  words : Array Int32
  current : State
  batch : Array Mark
  batchWords : Array Int32
  table : Table.Layout
  report : Report
  sink : σ

/-- What a session is about, and the geometry of its table. -/
structure Session (σ : Type) where
  model : Model
  notify : σ → Event → σ
  request : Request
  config : Table.Config

variable {σ : Type}

namespace Storage

/-- Works on the table alone. -/
def onTable {α : Type} (m : Access Table.Layout α) : Access (Storage σ) α :=
  ExceptT.mk fun s => (m.exec s.table).map fun r => (r.1, { s with table := r.2 })

/-- Takes a mark off, and `n` words, which become the current state. -/
def pop (n : Nat) : Access (Storage σ) (Option Mark) := do
  match (← get).marks.back? with
  | none => return none
  | some mark =>
    modify fun s => { s with marks := s.marks.pop }
    let s ← get
    let top ← subtract s.words.size n
    let state ← range s.words top (s.words.size - top)
    modify fun s => { s with current := state, words := s.words.extract 0 top }
    return some mark

/-- Puts number `k` of the collected states on top of the pending ones. -/
def restack (n k : Nat) : Access (Storage σ) Unit := do
  let s ← get
  match s.batch[k]? with
  | none => throw (.position k s.batch.size)
  | some mark =>
    modify fun s => { s with marks := s.marks.push mark }
    let state ← range s.batchWords (k * n) n
    modify fun s => { s with words := s.words ++ state }

/-- The pending states with their marks, the next one first, if each has `n` words: the words of a state stand at the
place of its mark. -/
def pending (n : Nat) (s : Storage σ) : List (Mark × State) :=
  (s.marks.toList.mapIdx fun i mark => (mark, slice s.words (i * n) n)).reverse

end Storage

namespace Session

/-- Hands the current state to the sink. -/
def tell (session : Session σ) (broken : Bool) : Access (Storage σ) Unit :=
  modify fun s =>
    { s with
      report := { s.report with visible := s.report.visible + 1, broken := s.report.broken + broken.toNat }
      sink := session.notify s.sink ⟨session.request.group, s.current, broken⟩ }

/-- Collects a successor of a state of `n` words. One of another length is left out; the first such length is kept. -/
def collect (session : Session σ) (n : Nat) (wrong : Option Nat) (successor : TransitionGroup × State) :
    Access (Storage σ) (Option Nat) := do
  if successor.2.length ≠ n then return wrong <|> some successor.2.length
  else
    let mark := if session.model.leaves successor.1 then .visible else .internal
    modify fun s => { s with batch := s.batch.push mark }
    modify fun s => { s with batchWords := s.batchWords ++ successor.2 }
    return wrong

/-- Puts the successors of the current state on top of the pending states, the last one first, and counts them. -/
def expand (session : Session σ) : Access (Storage σ) (Except ExploreError Nat) := do
  let n := (← get).current.length
  modify fun s => { s with batch := #[], batchWords := #[] }
  let s ← get
  match ← (session.model.emit s.current session.request.process).successors.foldlM (session.collect n) none with
  | some actual => return .error (.stateLength n actual)
  | none =>
    let count := (← get).batch.size
    (List.range count).reverse.forM (Storage.restack n)
    return .ok count

/-- What is done with the current state once it has been looked up. -/
def looked (session : Session σ) : Lookup → Access (Storage σ) (Option (Except ExploreError Report))
  | .found => return none
  | .full => return some (.error (.table (.full session.config.maxPow2 (← get).table.load)))
  | .inserted => do
    modify fun s => { s with report := { s.report with internal := s.report.internal + 1 } }
    match ← session.expand with
    | .error error => return some (.error error)
    | .ok 0 =>
      session.tell true
      return none
    | .ok (_ + 1) => return none

/-- One turn of the loop; a result ends it. -/
def turn (session : Session σ) : Access (Storage σ) (Option (Except ExploreError Report)) := do
  match ← Storage.pop session.model.stateSize with
  | none => return some (.ok (← get).report)
  | some .visible =>
    session.tell false
    return none
  | some .internal => session.looked (← Storage.onTable (session.config.lookupOrInsert (← get).current))

def loop (session : Session σ) : Access (Storage σ) (Except ExploreError Report) := do
  match ← session.turn with
  | some result => return result
  | none => session |>.loop
partial_fixpoint

/-- Checks the lengths, that of the starting state first. Then the table is cleared, and whatever is pending gives way
to the starting state. -/
def prepare (session : Session σ) : Access (Storage σ) (Except ExploreError Unit) := do
  let n := session.model.stateSize
  if session.request.state.length ≠ n then return .error (.stateLength n session.request.state.length)
  else if session.config.keyLength ≠ n then return .error (.stateLength n session.config.keyLength)
  else
    Storage.onTable session.config.clear
    modify fun s => { s with marks := #[.internal], words := session.request.state.toArray, report := {} }
    return .ok ()

def explore (session : Session σ) : Access (Storage σ) (Except ExploreError Report) := do
  match ← session.prepare with
  | .error error => return .error error
  | .ok () => session.loop

/-- The loop of a session that begins with storage `s` begins a turn with this storage. -/
inductive Head (session : Session σ) (s : Storage σ) : Storage σ → Prop
  | first {head : Storage σ} : session.prepare.exec s = some (.ok (.ok ()), head) → Head session s head
  | next {head next : Storage σ} : Head session s head → session.turn.exec head = some (.ok none, next) →
      Head session s next

end Session

/-! ## Rows of states -/

/-- The arrays hold the marks and the words of the given states in a row, and each state has `n` words. -/
structure Row (n : Nat) (states : List (Mark × State)) (marks : Array Mark) (words : Array Int32) : Prop where
  marks_eq : marks.toList = states.map Prod.fst
  words_eq : words.toList = states.flatMap Prod.snd
  length_eq : ∀ entry ∈ states, entry.2.length = n

section

variable {states front back : List (Mark × State)} {marks : Array Mark} {words : Array Int32} {mark : Mark}
  {state : State} {n : Nat}

theorem length_words (hlength : ∀ entry ∈ states, entry.2.length = n) :
    (states.flatMap Prod.snd).length = states.length * n := by
  induction states with
  | nil => rw [List.flatMap_nil, List.length_nil, List.length_nil, Nat.zero_mul]
  | cons entry rest ih =>
    obtain ⟨hentry, hrest⟩ := List.forall_mem_cons.1 hlength
    rw [List.flatMap_cons, List.length_append, hentry, ih hrest, List.length_cons, Nat.succ_mul, Nat.add_comm]

theorem row_nil : Row n [] #[] #[] := ⟨rfl, rfl, nofun⟩

/-- A state is added to the marks, and then to the words. -/
theorem Row.push (h : Row n states marks words) (mark : Mark) (hstate : state.length = n) :
    Row n (states ++ [(mark, state)]) (marks.push mark) (words ++ state) := by
  refine ⟨?_, ?_, fun entry hentry => ?_⟩
  · rw [Array.toList_push, h.marks_eq, List.map_append]
    rfl
  · rw [Array.toList_appendList, h.words_eq, List.flatMap_append, List.flatMap_singleton]
  · rcases List.mem_append.1 hentry with hold | hnew
    · exact h.length_eq entry hold
    · rwa [List.mem_singleton.1 hnew]

theorem Row.size_marks (h : Row n states marks words) : marks.size = states.length := by
  rw [← Array.length_toList, h.marks_eq, List.length_map]

/-- There are as many words as the marked states have together. -/
theorem Row.size_words (h : Row n states marks words) : words.size = n * marks.size := by
  rw [h.size_marks, ← Array.length_toList, h.words_eq, length_words h.length_eq, Nat.mul_comm]

/-- The words of a state begin behind those of the states in front of it. -/
theorem Row.split (h : Row n (front ++ (mark, state) :: back) marks words) :
    marks[front.length]? = some mark ∧ front.length * n + n ≤ words.size ∧
      slice words (front.length * n) n = state := by
  have hfront := length_words (List.forall_mem_append.1 h.length_eq).1
  have hstate : state.length = n := h.length_eq (mark, state) (List.mem_append_right _ List.mem_cons_self)
  have hwords := h.words_eq
  rw [List.flatMap_append, List.flatMap_cons, ← List.append_assoc] at hwords
  refine ⟨?_, ?_, ?_⟩
  · rw [← Array.getElem?_toList, h.marks_eq, List.map_append, List.map_cons, List.getElem?_append_right (by simp)]
    simp
  · rw [← Array.length_toList, hwords, List.length_append, List.length_append, hfront, hstate]
    exact Nat.le_add_right _ _
  · have hslice := slice_eq_of_toList hwords
    rwa [hfront, hstate] at hslice

/-- The last state comes off with its mark. -/
theorem Row.pop (h : Row n (states ++ [(mark, state)]) marks words) :
    marks.back? = some mark ∧ n ≤ words.size ∧ slice words (words.size - n) n = state ∧
      Row n states marks.pop (words.extract 0 (words.size - n)) := by
  obtain ⟨hmark, -, hslice⟩ := h.split
  have hlength := (List.forall_mem_append.1 h.length_eq).1
  have hmarks := h.size_marks
  rw [List.length_append, List.length_singleton] at hmarks
  have htop : words.size = states.length * n + n := by rw [h.size_words, hmarks, Nat.mul_comm, Nat.succ_mul]
  rw [htop, Nat.add_sub_cancel]
  refine ⟨?_, Nat.le_add_left _ _, hslice, ?_, ?_, hlength⟩
  · rw [Array.back?_eq_getElem?, hmarks, Nat.add_sub_cancel]
    exact hmark
  · rw [Array.toList_pop, h.marks_eq, List.map_append]
    exact List.dropLast_concat
  · rw [Array.toList_extract, List.extract_eq_take_drop, h.words_eq, List.drop_zero, Nat.sub_zero, List.flatMap_append,
      ← length_words hlength]
    exact List.take_left

/-- The states of a row are pending, the last one first. -/
theorem pending_eq_of_row {σ : Type} {s : Storage σ} (h : Row n states s.marks s.words) :
    s.pending n = states.reverse := by
  refine congrArg List.reverse (List.ext_getElem? fun i => ?_)
  rw [List.getElem?_mapIdx, h.marks_eq, List.getElem?_map, Option.map_map]
  rcases hget : states[i]? with _ | ⟨mark, state⟩
  · rfl
  · obtain ⟨hi, hentry⟩ := List.getElem?_eq_some_iff.1 hget
    have hsplit : states.take i ++ (mark, state) :: states.drop (i + 1) = states := by
      rw [← hentry, List.cons_getElem_drop_succ, List.take_append_drop]
    rw [← hsplit] at h
    obtain ⟨-, -, hslice⟩ := h.split
    rw [List.length_take_of_le (Nat.le_of_lt hi)] at hslice
    rw [Option.map_some, Function.comp_apply, hslice]

end

end StateSpace.Explorer
