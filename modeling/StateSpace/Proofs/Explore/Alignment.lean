import StateSpace.Proofs.Explore.Buffers
import StateSpace.Proofs.Explore.Termination

/-!
# The buffers of an explorer stay aligned

A storage holds a search (`Storage.Holds`) if its marks and words are the row of the states that are pending, the top at
the end, and if table, counters and sink are those of the search. There is a lemma for each access. Marks and words are
taken off in two steps, and put on in two steps, but always for the same state (`ends_pop`, `ends_restack`); the words
of the collected states are found since a successor of another length is never collected (`ends_foldlM_collect`).

So a turn of the loop does to the storage what a step does to the search (`ends_turn`). Whenever a turn begins, the
storage holds a search whose states have the length of a key (`Session.Head.follows`), and no access is a fault
(`explore_aligned`).
-/

namespace StateSpace

/-- The result, if the step was the last one. -/
def Search.Progress.result? {σ : Type} : Progress σ → Option (Except ExploreError Report)
  | .next _ => none
  | .done _ result => some result

namespace Explorer

open Access Search

variable {σ : Type} {n : Nat} {work : List (Mark × State)} {q : Search σ}

/-- The storage holds a search of which these states are pending, all of `n` words. -/
structure Storage.Holds (s : Storage σ) (n : Nat) (work : List (Mark × State)) (q : Search σ) : Prop where
  row : Row n work.reverse s.marks s.words
  current_eq : s.current = q.current
  table : s.table.Holds q.table
  report_eq : s.report = q.report
  sink_eq : s.sink = q.sink

/-- How the search itself packs its states does not matter. -/
theorem Storage.Holds.with_buffers {s : Storage σ} (h : s.Holds n work q) (pending batch : Pending) :
    s.Holds n work { q with pending, batch } :=
  ⟨h.row, h.current_eq, h.table, h.report_eq, h.sink_eq⟩

theorem Storage.Holds.pending_eq {s : Storage σ} (h : s.Holds n work q) : s.pending n = work :=
  (pending_eq_of_row h.row).trans work.reverse_reverse

/-! ## Single accesses -/

theorem exec_onTable {α : Type} {m : Access Table.Layout α} {s : Storage σ} {r : Except Access.Fault α}
    {l : Table.Layout} (h : m.exec s.table = some (r, l)) :
    (Storage.onTable m).exec s = some (r, { s with table := l }) := by
  show (m.exec s.table).map _ = _
  rw [h]
  rfl

/-- What is done to a table is done to the table of the search. -/
theorem ends_onTable {α : Type} {m : Access Table.Layout α} {a : α} {t : Table} (h : Table.Performs q.table m a t) :
    Ends (Storage.Holds · n work q) (Storage.onTable m) a (Storage.Holds · n work { q with table := t }) := by
  intro s hs
  obtain ⟨l, hexec, hl⟩ := h s.table hs.table
  exact ⟨{ s with table := l }, exec_onTable hexec, hs.row, hs.current_eq, hl, hs.report_eq, hs.sink_eq⟩

theorem ends_pop_nil : Ends (Storage.Holds · n [] q) (Storage.pop n) none (Storage.Holds · n [] q) := by
  refine ends_get fun s hs => ?_
  have hmarks : s.marks = #[] := Array.toList_eq_nil_iff.1 hs.row.marks_eq
  rw [hmarks]
  exact ends_pure fun _ => id

/-- The mark and the words that are taken off belong to one state. -/
theorem ends_pop {mark : Mark} {state : State} :
    Ends (Storage.Holds · n ((mark, state) :: work) q) (Storage.pop n) (some mark)
      (Storage.Holds · n work { q with pending := .ofList work, current := state }) := by
  intro s hs
  have hrow : Row n (work.reverse ++ [(mark, state)]) s.marks s.words := List.reverse_cons ▸ hs.row
  obtain ⟨hback, hle, hslice, hrest⟩ := hrow.pop
  refine ⟨{ s with marks := s.marks.pop, words := s.words.extract 0 (s.words.size - n), current := state }, ?_, hrest,
    rfl, hs.table, hs.report_eq, hs.sink_eq⟩
  have hsubtract : (subtract s.words.size n : Access (Storage σ) Nat) = pure (s.words.size - n) := if_pos hle
  have hrange : (range s.words (s.words.size - n) n : Access (Storage σ) State) = pure state := by
    rw [range, if_pos (by omega), hslice]
  unfold Storage.pop
  rw [exec_bind_of_ok (exec_get s), hback]
  show exec (do
    let top ← subtract s.words.size n
    let state ← range s.words top (s.words.size - top)
    modify fun s => { s with current := state, words := s.words.extract 0 top }
    return some mark) { s with marks := s.marks.pop } = _
  rw [hsubtract, pure_bind, Nat.sub_sub_self hle, hrange, pure_bind]
  rfl

/-- The current state is told to the sink. -/
theorem ends_tell (session : Session σ) (broken : Bool) :
    Ends (Storage.Holds · n work q) (session.tell broken) ()
      (Storage.Holds · n work (q.tell session.notify session.request q.current broken)) := by
  refine ends_modify fun s hs => ⟨hs.row, hs.current_eq, hs.table, ?_, ?_⟩
  · dsimp only
    rw [hs.report_eq]
    rfl
  · dsimp only
    rw [hs.sink_eq, hs.current_eq]
    rfl

/-! ## Expansion -/

/-- The successors of the right length, with their marks. -/
def Session.collected (session : Session σ) (n : Nat) (successors : List (TransitionGroup × State)) :
    List (Mark × State) :=
  (successors.filter fun successor => successor.2.length = n).map session.model.pend

/-- The first length that is not the right one. -/
def firstWrong (n : Nat) (successors : List (TransitionGroup × State)) : Option Nat :=
  (successors.find? fun successor => successor.2.length ≠ n).map fun successor => successor.2.length

/-- The storage holds the search, and these states are collected. -/
def Storage.Collects (s : Storage σ) (n : Nat) (work : List (Mark × State)) (q : Search σ)
    (states : List (Mark × State)) : Prop :=
  s.Holds n work q ∧ Row n states s.batch s.batchWords

section

variable (session : Session σ)

/-- A successor joins those that were collected, or has a length to be remembered. -/
theorem ends_collect (front : List (TransitionGroup × State)) (successor : TransitionGroup × State) :
    Ends (Storage.Collects · n work q (session.collected n front))
      (session.collect n (firstWrong n front) successor) (firstWrong n (front ++ [successor]))
      (Storage.Collects · n work q (session.collected n (front ++ [successor]))) := by
  rintro s ⟨hs, hrow⟩
  unfold Session.collect
  by_cases hlength : successor.2.length = n
  · have hwrong : firstWrong n (front ++ [successor]) = firstWrong n front := by
      simp [firstWrong, List.find?_append, hlength]
    have hcollected : session.collected n (front ++ [successor]) =
        session.collected n front ++ [session.model.pend successor] := by
      simp [Session.collected, hlength]
    rw [if_neg (not_not.2 hlength), hwrong, hcollected]
    exact ⟨_, rfl, ⟨hs.row, hs.current_eq, hs.table, hs.report_eq, hs.sink_eq⟩, hrow.push _ hlength⟩
  · have hwrong : firstWrong n (front ++ [successor]) = (firstWrong n front <|> some successor.2.length) := by
      simp [firstWrong, List.find?_append, hlength]
    have hcollected : session.collected n (front ++ [successor]) = session.collected n front := by
      simp [Session.collected, hlength]
    rw [if_pos hlength, hwrong, hcollected]
    exact ⟨s, rfl, hs, hrow⟩

/-- The successors are collected in their order; of the wrong lengths, the first one is remembered. -/
theorem ends_foldlM_collect (n : Nat) (work : List (Mark × State)) (q : Search σ)
    (front successors : List (TransitionGroup × State)) :
    Ends (Storage.Collects · n work q (session.collected n front))
      (successors.foldlM (session.collect n) (firstWrong n front)) (firstWrong n (front ++ successors))
      (Storage.Collects · n work q (session.collected n (front ++ successors))) := by
  induction successors generalizing front with
  | nil =>
    rw [List.append_nil]
    exact ends_pure fun _ => id
  | cons successor rest ih =>
    have hrest := ih (front ++ [successor])
    rw [List.append_assoc, List.singleton_append] at hrest
    rw [List.foldlM_cons]
    exact (ends_collect session front successor).bind hrest

/-- The state at the end of the first part goes on top; the states behind it went before. -/
theorem ends_restack {front back : List (Mark × State)} {mark : Mark} {state : State} :
    Ends (fun s : Storage σ => s.Collects n (back ++ work) q (front ++ (mark, state) :: back))
      (Storage.restack n front.length) ()
      (fun s => s.Collects n ((mark, state) :: back ++ work) q (front ++ (mark, state) :: back)) := by
  rintro s ⟨hs, hrow⟩
  obtain ⟨hmark, hle, hslice⟩ := hrow.split
  have hrange : (range s.batchWords (front.length * n) n : Access (Storage σ) State) = pure state := by
    rw [range, if_pos hle, hslice]
  refine ⟨{ s with marks := s.marks.push mark, words := s.words ++ state }, ?_, ⟨?_, hs.current_eq,
    hs.table, hs.report_eq, hs.sink_eq⟩, hrow⟩
  · unfold Storage.restack
    rw [exec_bind_of_ok (exec_get s), hmark]
    show exec (do
      let state ← range s.batchWords (front.length * n) n
      modify fun s => { s with words := s.words ++ state }) { s with marks := s.marks.push mark } = _
    rw [hrange, pure_bind]
    rfl
  · rw [List.cons_append, List.reverse_cons]
    exact hs.row.push mark (hrow.length_eq (mark, state) (List.mem_append_right _ List.mem_cons_self))

/-- The collected states go on top one by one, the last one first. -/
theorem ends_forM_restack (n : Nat) (work : List (Mark × State)) (q : Search σ) {states : List (Mark × State)}
    (front back : List (Mark × State)) (hstates : states = front ++ back) :
    Ends (fun s : Storage σ => s.Collects n (back ++ work) q states)
      ((List.range front.length).reverse.forM (Storage.restack n)) ()
      (fun s => s.Collects n (states ++ work) q states) := by
  induction front using List.reverseRecOn generalizing back with
  | nil =>
    rw [hstates, List.nil_append]
    exact ends_pure fun _ => id
  | append_singleton front entry ih =>
    rw [List.append_assoc, List.singleton_append] at hstates
    have hfirst : Ends (fun s : Storage σ => s.Collects n (back ++ work) q states) (Storage.restack n front.length) ()
        (fun s => s.Collects n (entry :: back ++ work) q states) := hstates ▸ ends_restack
    rw [List.length_append, List.length_singleton, List.range_succ, List.reverse_append, List.reverse_singleton,
      List.singleton_append]
    exact hfirst.bind (ih (entry :: back) hstates)

variable (hcurrent : q.current.length = session.model.stateSize) (work : List (Mark × State))

include hcurrent

/-- An expansion collects the successors, and then looks at the first length that was not the right one. -/
theorem ends_expand_of_collected {a : Except ExploreError Nat} {r : Storage σ → Prop}
    (h : Ends
      (Storage.Collects · session.model.stateSize work q
        (session.collected session.model.stateSize (session.model.successors session.request q.current)))
      (match firstWrong session.model.stateSize (session.model.successors session.request q.current) with
        | some actual => return .error (.stateLength session.model.stateSize actual)
        | none => do
          let count := (← get).batch.size
          (List.range count).reverse.forM (Storage.restack session.model.stateSize)
          return .ok count) a r) :
    Ends (Storage.Holds · session.model.stateSize work q) session.expand a r := by
  have hempty : Ends (Storage.Holds · session.model.stateSize work q)
      (modify fun s => { s with batch := #[], batchWords := #[] }) ()
      (Storage.Collects · session.model.stateSize work q []) := ends_modify fun s hs =>
    ⟨⟨hs.row, hs.current_eq, hs.table, hs.report_eq, hs.sink_eq⟩, row_nil⟩
  have hcollect := ends_foldlM_collect session session.model.stateSize work q []
    (session.model.successors session.request q.current)
  unfold Session.expand
  refine ends_get fun s hs => ?_
  rw [hs.current_eq, hcurrent]
  refine hempty.bind (ends_get fun s ⟨hs, _⟩ => ?_)
  rw [hs.current_eq]
  exact hcollect.bind h

/-- A successor of another length leaves the pending states as they are. -/
theorem ends_expand_of_illSized {successor : TransitionGroup × State}
    (hill : session.model.illSized? session.request q.current = some successor) :
    Ends (Storage.Holds · session.model.stateSize work q) session.expand
      (.error (.stateLength session.model.stateSize successor.2.length))
      (Storage.Holds · session.model.stateSize work
        { q with batch := session.model.batch session.request q.current }) := by
  have hwrong : firstWrong session.model.stateSize (session.model.successors session.request q.current) =
      some successor.2.length := congrArg (Option.map _) hill
  refine ends_expand_of_collected session hcurrent work ?_
  rw [hwrong]
  exact ends_pure fun _ hs => hs.1.with_buffers _ _

/-- If no successor has another length, all of them go on top, in their order. -/
theorem ends_expand (hill : session.model.illSized? session.request q.current = none) :
    Ends (Storage.Holds · session.model.stateSize work q) session.expand
      (.ok (session.model.successors session.request q.current).length)
      (Storage.Holds · session.model.stateSize
        ((session.model.successors session.request q.current).map session.model.pend ++ work)
        { q with
          pending := .ofList ((session.model.successors session.request q.current).map session.model.pend ++ work)
          batch := session.model.batch session.request q.current }) := by
  have hwrong : firstWrong session.model.stateSize (session.model.successors session.request q.current) = none :=
    congrArg (Option.map _) hill
  have hcollected : session.collected session.model.stateSize (session.model.successors session.request q.current) =
      (session.model.successors session.request q.current).map session.model.pend := by
    unfold Session.collected
    rw [List.filter_eq_self.2 fun successor hmem => decide_eq_true (Model.illSized?_eq_none.1 hill successor hmem)]
  refine ends_expand_of_collected session hcurrent work ?_
  rw [hwrong, hcollected]
  refine ends_get fun s ⟨_, hrow⟩ => ?_
  rw [hrow.size_marks, List.length_map]
  have hrestack := ends_forM_restack session.model.stateSize work q
    ((session.model.successors session.request q.current).map session.model.pend) [] (List.append_nil _).symm
  rw [List.length_map] at hrestack
  exact hrestack.bind (ends_pure fun _ hs => hs.1.with_buffers _ _)

end

/-! ## Turns -/

/-- What a turn that does not end the loop does to the pending states: the next one becomes the current state, and if it
was to be expanded, its successors may come in its place. -/
def Session.Turned (session : Session σ) (state : State) (work work' : List (Mark × State)) : Prop :=
  ∃ mark rest, work = (mark, state) :: rest ∧
    (work' = rest ∨ mark = .internal ∧
      work' = (session.model.successors session.request state).map session.model.pend ++ rest)

section

variable (session : Session σ)

/-- A new state is counted and expanded. -/
theorem ends_looked_of_inserted {a : Option (Except ExploreError Report)} {r : Storage σ → Prop}
    (h : Ends (Storage.Holds · n work { q with report := q.report.entered }) (do
      match ← session.expand with
      | .error error => return some (.error error)
      | .ok 0 =>
        session.tell true
        return none
      | .ok (_ + 1) => return none) a r) :
    Ends (Storage.Holds · n work q) (session.looked .inserted) a r := by
  have hcount : Ends (Storage.Holds · n work q)
      (modify fun s => { s with report := { s.report with internal := s.report.internal + 1 } }) ()
      (Storage.Holds · n work { q with report := q.report.entered }) := ends_modify fun s hs =>
    ⟨hs.row, hs.current_eq, hs.table, congrArg Report.entered hs.report_eq, hs.sink_eq⟩
  exact hcount.bind h

variable (h : Packed session.model work q) (hc : q.table.config = session.config)

include h hc

/-- A turn takes a state off, and looks it up if it is internal. -/
theorem ends_turn_of_internal {state : State} {rest : List (Mark × State)} (hwork : work = (.internal, state) :: rest)
    {answer : Lookup} {t : Table} (hlook : q.table.lookupKey state = (answer, t))
    {a : Option (Except ExploreError Report)} {r : Storage σ → Prop}
    (hlooked : Ends (Storage.Holds · session.model.stateSize rest ⟨⟨.ofList rest, state, q.batch⟩, t, q.report, q.sink⟩)
      (session.looked answer) a r) :
    Ends (Storage.Holds · session.model.stateSize work q) session.turn a r := by
  have hlength : state.length = session.config.keyLength := by
    rw [← hc, h.keyLength_eq]
    exact h.length_eq _ (hwork ▸ List.mem_cons_self)
  have hperforms := Table.performs_lookupOrInsert hc h.wellFormed hlength
  rw [hlook] at hperforms
  have htable : Ends
      (Storage.Holds · session.model.stateSize rest ⟨⟨.ofList rest, state, q.batch⟩, q.table, q.report, q.sink⟩)
      (Storage.onTable (session.config.lookupOrInsert state)) answer
      (Storage.Holds · session.model.stateSize rest ⟨⟨.ofList rest, state, q.batch⟩, t, q.report, q.sink⟩) :=
    ends_onTable hperforms
  subst hwork
  refine ends_pop.bind (ends_get fun s hs => ?_)
  rw [hs.current_eq]
  exact htable.bind hlooked

/-- A turn ends without a fault, and does what a step of the search does. -/
theorem ends_turn : ∃ work',
    Ends (Storage.Holds · session.model.stateSize work q) session.turn
      (step session.model session.notify session.request q).result?
      (Storage.Holds · session.model.stateSize work' (step session.model session.notify session.request q).search) ∧
    ∀ q', step session.model session.notify session.request q = .next q' →
      Packed session.model work' q' ∧ session.Turned q'.current work work' := by
  have hcase := step_cases session.notify session.request h
  have hnext : ∀ work' q', step session.model session.notify session.request q = .next q' →
      q'.pending = .ofList work' → (∀ entry ∈ work', entry.2.length = session.model.stateSize) →
      Packed session.model work' q' := fun _ _ => h.of_step
  have hrest : ∀ entry rest, work = entry :: rest → ∀ entry ∈ rest, entry.2.length = session.model.stateSize :=
    fun entry rest hwork entry' hentry' => h.length_eq entry' (hwork ▸ List.mem_cons_of_mem _ hentry')
  have hcurrent : ∀ state rest (t : Table), work = (.internal, state) :: rest →
      (⟨⟨.ofList rest, state, q.batch⟩, t, q.report.entered, q.sink⟩ : Search σ).current.length =
        session.model.stateSize := fun state rest _ hwork => h.length_eq _ (hwork ▸ List.mem_cons_self)
  generalize step session.model session.notify session.request q = p at hcase hnext ⊢
  generalize q.lookup? session.model = l at hcase
  cases hcase with
  | nil =>
    refine ⟨[], ends_pop_nil.bind (ends_get fun s hs => ?_), nofun⟩
    rw [hs.report_eq]
    exact ends_pure fun _ => id
  | @visible state rest =>
    refine ⟨rest, ends_pop.bind ((ends_tell session false).bind (ends_pure fun _ => id)), ?_⟩
    rintro q' ⟨⟩
    exact ⟨hnext rest _ rfl rfl (hrest _ rest rfl), _, rest, rfl, .inl rfl⟩
  | @found state rest t hlook =>
    refine ⟨rest, ends_turn_of_internal session h hc rfl hlook (ends_pure fun _ => id), ?_⟩
    rintro q' ⟨⟩
    exact ⟨hnext rest _ rfl rfl (hrest _ rest rfl), _, rest, rfl, .inl rfl⟩
  | @full state rest t hlook =>
    have hlength : state.length = q.table.config.keyLength :=
      (h.length_eq _ List.mem_cons_self).trans h.keyLength_eq.symm
    have hconfig := (Table.looked_lookupKey h.wellFormed hlength).extends_.config_eq
    rw [hlook] at hconfig
    refine ⟨rest, ends_turn_of_internal session h hc rfl hlook (ends_get fun s hs => ?_), nofun⟩
    rw [hs.table.load_eq, ← hc, ← hconfig]
    exact ends_pure fun _ => id
  | @illSized state rest t successor hlook hill =>
    refine ⟨rest, ends_turn_of_internal session h hc rfl hlook (ends_looked_of_inserted session ?_), nofun⟩
    have hexpand := ends_expand_of_illSized session (hcurrent state rest t rfl) rest hill
    exact hexpand.bind (ends_pure fun _ => id)
  | @broken state rest t hlook hill hempty =>
    refine ⟨rest, ends_turn_of_internal session h hc rfl hlook (ends_looked_of_inserted session ?_), ?_⟩
    · have hexpand := ends_expand session (hcurrent state rest t rfl) rest hill
      rw [hempty] at hexpand
      exact hexpand.bind ((ends_tell session true).bind (ends_pure fun _ => id))
    · rintro q' ⟨⟩
      exact ⟨hnext rest _ rfl rfl (hrest _ rest rfl), _, rest, rfl, .inl rfl⟩
  | @expanded state rest t hlook hill hne =>
    refine ⟨(session.model.successors session.request state).map session.model.pend ++ rest,
      ends_turn_of_internal session h hc rfl hlook (ends_looked_of_inserted session ?_), ?_⟩
    · have hexpand := ends_expand session (hcurrent state rest t rfl) rest hill
      obtain ⟨count, hcount⟩ : ∃ count, (session.model.successors session.request state).length = count + 1 :=
        Nat.exists_eq_add_one.2 (List.length_pos_iff.2 hne)
      rw [hcount] at hexpand
      exact hexpand.bind (ends_pure fun _ => id)
    · rintro q' ⟨⟩
      exact ⟨hnext _ _ rfl rfl (h.length_expanded rfl hill), _, rest, rfl, .inr ⟨rfl, rfl⟩⟩

end

/-! ## Sessions -/

/-- The storage is that of a session whose search has come so far. -/
structure Session.Follows (session : Session σ) (work : List (Mark × State)) (q : Search σ) (s : Storage σ) : Prop where
  packed : Packed session.model work q
  config_eq : q.table.config = session.config
  holds : s.Holds session.model.stateSize work q

section

variable {session : Session σ} {s : Storage σ}

/-- A turn ends without a fault, and the search has come one step further. -/
theorem Session.Follows.turn (h : session.Follows work q s) : ∃ next work',
    session.turn.exec s = some (.ok (step session.model session.notify session.request q).result?, next) ∧
    next.Holds session.model.stateSize work' (step session.model session.notify session.request q).search ∧
    ∀ q', step session.model session.notify session.request q = .next q' →
      session.Follows work' q' next ∧ session.Turned next.current work work' := by
  obtain ⟨work', hturn, hnext⟩ := ends_turn session h.packed h.config_eq
  obtain ⟨next, hexec, hholds⟩ := hturn s h.holds
  refine ⟨next, work', hexec, hholds, fun q' hs => ?_⟩
  obtain ⟨keys, hext⟩ := extends_step session.notify session.request h.packed
  obtain ⟨hpacked, hturned⟩ := hnext q' hs
  rw [hs] at hext hholds
  exact ⟨⟨hpacked, hext.config_eq.trans h.config_eq, hholds⟩, hholds.current_eq ▸ hturned⟩

/-- Also a turn that is not the last one leaves the states aligned. -/
theorem Session.Follows.turned (h : session.Follows work q s) : ∃ answer next,
    session.turn.exec s = some (.ok answer, next) ∧
    (answer = none → session.Turned next.current work (next.pending session.model.stateSize)) := by
  obtain ⟨next, work', hexec, hholds, hnext⟩ := h.turn
  refine ⟨_, next, hexec, fun hnone => ?_⟩
  rw [hholds.pending_eq]
  cases hs : step session.model session.notify session.request q with
  | done q' result =>
    rw [hs] at hnone
    cases hnone
  | next q' => exact (hnext q' hs).2

/-- The mark that is taken off is that of the state. -/
theorem Session.Follows.popped (h : session.Follows work q s) {mark : Mark} {state : State}
    {rest : List (Mark × State)} (hwork : work = (mark, state) :: rest) : ∃ popped,
    (Storage.pop session.model.stateSize).exec s = some (.ok (some mark), popped) ∧ popped.current = state ∧
      popped.pending session.model.stateSize = rest := by
  subst hwork
  obtain ⟨popped, hexec, hholds⟩ := ends_pop s h.holds
  exact ⟨popped, hexec, hholds.current_eq, hholds.pending_eq⟩

/-- The loop ends without a fault, with the result of the search. -/
theorem Session.Follows.loop (h : session.Follows work q s) : ∃ last work',
    session.loop.exec s = some (.ok (run session.model session.notify session.request q).2, last) ∧
    last.Holds session.model.stateSize work' (run session.model session.notify session.request q).1 := by
  induction q using run.induct session.model session.notify session.request generalizing work s with
  | case1 q q' result hs =>
    obtain ⟨next, work', hexec, hholds, -⟩ := h.turn
    rw [hs] at hexec hholds
    rw [run_of_done hs, Session.loop, exec_bind_of_ok hexec]
    exact ⟨next, work', rfl, hholds⟩
  | case2 q q' hs ih =>
    obtain ⟨next, work', hexec, -, hnext⟩ := h.turn
    rw [hs] at hexec
    rw [run_of_next hs, Session.loop, exec_bind_of_ok hexec]
    exact ih (hnext q' hs).1

end

section

variable {session : Session σ} {t : Table} {s : Storage σ} (hc : t.config = session.config)

include hc

/-- A session of the wrong geometry does nothing. -/
theorem exec_prepare_of_error {error : ExploreError}
    (hg : checkGeometry session.model t session.request = .error error) :
    session.prepare.exec s = some (.ok (.error error), s) := by
  unfold checkGeometry at hg
  unfold Session.prepare
  rw [hc] at hg
  dsimp only
  split at hg
  · rename_i hroot
    cases hg
    rw [if_pos hroot]
    rfl
  · rename_i hroot
    rw [if_neg hroot]
    split at hg
    · rename_i hkey
      cases hg
      rw [if_pos hkey]
      rfl
    · cases hg

variable (ht : t.WellFormed) (hs : s.table.Holds t)

include ht hs

/-- Before the first turn the table is clear, and the starting state is pending alone. -/
theorem exec_prepare (hg : checkGeometry session.model t session.request = .ok ()) : ∃ head,
    session.prepare.exec s = some (.ok (.ok ()), head) ∧
    session.Follows [(.internal, session.request.state)]
      ⟨{ pending := .push .internal session.request.state {}, current := s.current }, t.clear, {}, s.sink⟩ head := by
  obtain ⟨hroot, hkey⟩ := checkGeometry_eq_ok.1 hg
  obtain ⟨-, hlength, hclear, hkeys⟩ := packed_start ht.toGeometry hg s.sink
  obtain ⟨l, hexec, hl⟩ := Table.performs_clear hc (hc ▸ ht.valid) s.table hs
  refine ⟨{ s with
    table := l, marks := #[.internal], words := session.request.state.toArray, report := {} }, ?_,
    ⟨rfl, hlength, hclear, hkeys⟩, hc, ⟨rfl, ?_, hlength⟩, rfl, hl, rfl, rfl⟩
  · unfold Session.prepare
    dsimp only
    rw [if_neg (not_not.2 hroot), if_neg (not_not.2 (hc ▸ hkey)), exec_bind_of_ok (exec_onTable hexec)]
    rfl
  · rw [List.reverse_singleton, List.flatMap_singleton]

/-- Whenever the loop begins a turn, a search has come so far. -/
theorem Session.Head.follows {head : Storage σ} (h : session.Head s head) : ∃ work q, session.Follows work q head := by
  induction h with
  | first hprepare =>
    cases hg : checkGeometry session.model t session.request with
    | error error =>
      rw [exec_prepare_of_error hc hg] at hprepare
      simp at hprepare
    | ok u =>
      obtain ⟨head, hexec, hfollows⟩ := exec_prepare hc ht hs hg
      rw [hprepare] at hexec
      obtain ⟨-, rfl⟩ := Prod.mk.inj (Option.some.inj hexec)
      exact ⟨_, _, hfollows⟩
  | next _ hexec ih =>
    obtain ⟨work, q, hfollows⟩ := ih
    obtain ⟨next, work', hturn, -, hnext⟩ := hfollows.turn
    rw [hexec] at hturn
    obtain ⟨hresult, rfl⟩ := Prod.mk.inj (Option.some.inj hturn)
    cases hstep : step session.model session.notify session.request q with
    | done q' result =>
      rw [hstep] at hresult
      cases hresult
    | next q' => exact ⟨work', q', (hnext q' hstep).1⟩

/-- A session ends without a fault, and comes to what it should. -/
theorem exec_explore (e : Explorer) :
    let o := e.explore t session.model session.notify session.request s.sink
    ∃ last, session.explore.exec s = some (.ok o.result, last) ∧ last.table.Holds o.table ∧ last.sink = o.sink := by
  dsimp only
  unfold Session.explore
  cases hg : checkGeometry session.model t session.request with
  | error error =>
    rw [e.explore_of_error hg, exec_bind_of_ok (exec_prepare_of_error hc hg)]
    exact ⟨s, rfl, hs, rfl⟩
  | ok u =>
    obtain ⟨head, hprepare, hfollows⟩ := exec_prepare hc ht hs hg
    obtain ⟨last, work', hloop, hlast⟩ := hfollows.loop
    -- the search is that of an explorer whose current state is the one that was left
    obtain ⟨htable, hsink, hresult⟩ := e.explore_run hg s.sink
    obtain ⟨htable', hsink', hresult'⟩ := Explorer.explore_run ⟨{}, s.current, {}⟩ hg s.sink
    unfold Explorer.explore at htable' hsink' hresult'
    rw [hg] at htable' hsink' hresult'
    rw [exec_bind_of_ok hprepare, htable, hsink, hresult, ← htable', ← hsink', ← hresult']
    exact ⟨last, hloop, hlast.table, hlast.sink_eq⟩

end

/-- **The buffers stay aligned, and no session faults.** Whatever the model is, whatever earlier sessions have left in
the buffers, and whatever has been done with the table: whenever the loop begins a turn, there are as many words as the
marked states have together, and every pending state has the model's number of words. The mark that comes off the stack
is that of the state that comes off, and if the turn is not the last one, it leaves the states below and at most the
successors of that state, with their marks, on top. No turn and no session faults: no difference is below zero, no range
is outside of the buffers, no key has the wrong length. A session ends with the result and the events that it should
have, and with the table that it should leave. -/
theorem explore_aligned {t : Table} (ht : t.Reachable) (model : Model) (notify : σ → Event → σ) (request : Request)
    {s : Storage σ} (hs : s.table.Holds t) (e : Explorer) :
    let session : Session σ := ⟨model, notify, request, t.config⟩
    let n := model.stateSize
    (∀ head, session.Head s head →
      head.words.size = n * head.marks.size ∧
      (∀ entry ∈ head.pending n, entry.2.length = n) ∧
      (∀ mark state rest, head.pending n = (mark, state) :: rest → ∃ popped,
        (Storage.pop n).exec head = some (.ok (some mark), popped) ∧ popped.current = state ∧
          popped.pending n = rest) ∧
      ∃ answer next, session.turn.exec head = some (.ok answer, next) ∧
        (answer = none → session.Turned next.current (head.pending n) (next.pending n))) ∧
    let o := e.explore t model notify request s.sink
    ∃ last, session.explore.exec s = some (.ok o.result, last) ∧ last.table.Holds o.table ∧ last.sink = o.sink := by
  intro session n
  have hconfig : t.config = session.config := rfl
  refine ⟨fun head hhead => ?_, exec_explore hconfig ht.wellFormed hs e⟩
  obtain ⟨work, q, hfollows⟩ := hhead.follows hconfig ht.wellFormed hs
  have hpending : head.pending n = work := hfollows.holds.pending_eq
  rw [hpending]
  exact ⟨hfollows.holds.row.size_words, hfollows.packed.length_eq, fun _ _ _ => hfollows.popped, hfollows.turned⟩

end Explorer

/-- A state without words is its own successor twice, inside the sequence and at its end; nine successors are
announced. -/
def wordless : RuleModel where
  stateSize := 0
  edges := [⟨[], ⟨0⟩, ⟨1⟩, []⟩, ⟨[], ⟨0⟩, ⟨2⟩, []⟩]
  leaving := [⟨1⟩]
  rules := []
  announced := some 9

def wordlessSession : Explorer.Session (List Event) :=
  ⟨wordless.model, fun events e => e :: events, ⟨[], ⟨0⟩, ⟨7⟩⟩, ⟨0, 1, 2⟩⟩

/-- Buffers in which nothing fits together, and a new table for keys without words. -/
def cluttered : Explorer.Storage (List Event) where
  marks := #[.visible, .internal]
  words := #[8]
  current := [5, 5]
  batch := #[.visible]
  batchWords := #[]
  table := wordlessSession.config.allocate
  report := ⟨1, 2, 3⟩
  sink := []

/-- Two states wait that have no words; one is reported, and the other one has been seen before. -/
theorem Explorer.explore_aligned_wordless :
    Table.create wordlessSession.config = .ok (Table.empty wordlessSession.config) ∧
    cluttered.table.Holds (Table.empty wordlessSession.config) ∧
    (∃ head, wordlessSession.Head cluttered head ∧ head.marks.size = 1 ∧ head.words.size = 0 * head.marks.size) ∧
    ∃ last, wordlessSession.explore.exec cluttered = some (.ok (.ok ⟨1, 0, 1⟩), last) ∧
      last.sink = [⟨⟨7⟩, [], false⟩] := by
  have hc : Table.create wordlessSession.config = .ok (Table.empty wordlessSession.config) := by decide
  have hs : cluttered.table.Holds (Table.empty wordlessSession.config) := Table.holds_allocate _
  have hconfig : (Table.empty wordlessSession.config).config = wordlessSession.config := rfl
  have hg : checkGeometry wordlessSession.model (Table.empty wordlessSession.config) wordlessSession.request = .ok () :=
    by decide
  have hrun : (Search.runFor wordlessSession.model wordlessSession.notify wordlessSession.request 4
      (Search.start (Table.empty wordlessSession.config) wordlessSession.request [])).map
        (fun r => (r.2.2, r.2.1.sink)) = some (.ok ⟨1, 0, 1⟩, [⟨⟨7⟩, [], false⟩]) := by decide +kernel
  obtain ⟨r, hr, heq⟩ := Option.map_eq_some_iff.1 hrun
  rw [Search.eq_of_runFor hr] at heq
  obtain ⟨hok, htold⟩ := Prod.mk.inj heq
  obtain ⟨hheads, last, hlast, -, hsink⟩ := Explorer.explore_aligned (.create hc) wordlessSession.model
    wordlessSession.notify wordlessSession.request hs {}
  rw [Explorer.explore_eq {} hg] at hlast hsink
  obtain ⟨head, hprepare, hfollows⟩ := Explorer.exec_prepare hconfig (Table.Reachable.create hc).wellFormed hs hg
  obtain ⟨hsize, -⟩ := hheads head (.first hprepare)
  refine ⟨hc, hs, ⟨head, .first hprepare, hfollows.holds.row.size_marks, hsize⟩, last, ?_, ?_⟩
  · rw [← hok]
    exact hlast
  · rw [← htold]
    exact hsink

end StateSpace
