import StateSpace.Proofs.Cache.Transparency

/-!
# Demands on a cache that has lent its table

While a session runs, its steps and the sinks of its explorations may make demands on the cache again (`Demand`), and
decide by the answers how to go on (`Errand`, `Guest`). What a demand would do with a table is any function, so it may
make demands of its own, at any depth. But the cache has lent its table, so it refuses every demand without running any
of that (`Demand.make_lent`), and a session comes to what it would come to by itself if it took every demand for refused
(`Guest.run_lent`).
-/

namespace StateSpace

namespace Cache

variable {γ α σ : Type}

/-! ## Demands -/

/-- A demand on a cache; its sessions and its sinks come to values of type `γ`. -/
inductive Demand (γ : Type) where
  | session (config : Table.Config) (memory : Table.Memory) (body : Table → Cache → γ × Table × Cache)
  | explore (config : Table.Config) (memory : Table.Memory) (explorer : Explorer) (model : Model)
      (notify : Cache × γ → Event → Cache × γ) (request : Request) (sink : γ)
  | release

/-- What a demand is answered. An exploration gives back its explorer and its sink. -/
inductive Answer (γ : Type) where
  | session (result : Except CacheError γ)
  | explored (result : Except CacheError Report) (explorer : Explorer) (sink : γ)
  | released (wasKept : Bool)

namespace Demand

def make : Demand γ → Cache → Answer γ × Cache
  | .session config memory body, c =>
    let (result, c) := c.withTable config memory body
    (.session result, c)
  | .explore config memory explorer model notify request sink, c =>
    let ((result, explorer, sink), c) := c.explore config memory explorer model notify request sink
    (.explored result explorer sink, c)
  | .release, c =>
    let (wasKept, c) := c.release
    (.released wasKept, c)

/-- The answer to a demand that is refused: explorer and sink come back as they were given. -/
def refusal : Demand γ → Answer γ
  | .session .. => .session (.error .inUse)
  | .explore _ _ explorer _ _ _ sink => .explored (.error .inUse) explorer sink
  | .release => .released false

/-- A cache that has lent its table refuses every demand, whatever its geometry, memory and what it would do. -/
theorem make_lent (d : Demand γ) : d.make .lent = (d.refusal, .lent) := by
  cases d with
  | session config memory body => rfl
  | explore config memory explorer model notify request sink => rfl
  | release => rfl

end Demand

/-- The demands that were made, in order, with their answers. -/
abbrev Log (γ : Type) := List (Demand γ × Answer γ)

/-- Every demand was refused. -/
def Refused (log : Log γ) : Prop := ∀ entry ∈ log, entry.2 = entry.1.refusal

theorem refused_nil : Refused ([] : Log γ) := fun _ he => by cases he

theorem Refused.append {log log' : Log γ} (h : Refused log) (h' : Refused log') : Refused (log ++ log') :=
  fun entry he => (List.mem_append.1 he).elim (h entry) (h' entry)

theorem Refused.cons {d : Demand γ} {log : Log γ} (h : Refused log) : Refused ((d, d.refusal) :: log) := by
  intro entry he
  rcases List.mem_cons.1 he with rfl | he
  · rfl
  · exact h entry he

/-! ## Sinks that make demands -/

/-- Demands that are made one after another, each decided by the answers before it, until there is a result. -/
inductive Errand (γ α : Type) where
  | done (result : α)
  | demand (d : Demand γ) (next : Answer γ → Errand γ α)

namespace Errand

def run : Errand γ α → Cache → (α × Log γ) × Cache
  | .done result, c => ((result, []), c)
  | .demand d next, c =>
    let (answer, c) := d.make c
    let ((result, log), c) := (next answer).run c
    ((result, (d, answer) :: log), c)

/-- The result without any demand, if each is taken for refused. -/
def alone : Errand γ α → α
  | .done result => result
  | .demand d next => (next d.refusal).alone

theorem run_lent (e : Errand γ α) : ∃ log, Refused log ∧ e.run .lent = ((e.alone, log), .lent) := by
  induction e with
  | done result => exact ⟨[], refused_nil, rfl⟩
  | demand d next ih =>
    obtain ⟨log, hlog, hrun⟩ := ih d.refusal
    refine ⟨(d, d.refusal) :: log, hlog.cons, ?_⟩
    simp only [run, d.make_lent, hrun, alone]

/-- Tells an event to a sink that makes demands, and puts the demands on record. -/
def notify (sink : σ → Event → Errand γ σ) : Cache × σ × Log γ → Event → Cache × σ × Log γ
  | (c, k, log), event =>
    let ((k, more), c) := (sink k event).run c
    (c, k, log ++ more)

/-- The cache has lent its table, and the sink is as if it had made no demands. -/
def Told (k : σ) (p : Cache × σ × Log γ) : Prop := p.1 = .lent ∧ p.2.1 = k ∧ Refused p.2.2

theorem keeps_told (sink : σ → Event → Errand γ σ) :
    Search.Keeps Told (fun k event => (sink k event).alone) (notify sink) := by
  rintro k ⟨c, k', log⟩ event ⟨rfl, rfl, hlog⟩
  obtain ⟨more, hmore, hrun⟩ := (sink k' event).run_lent
  simp only [notify, hrun]
  exact ⟨rfl, rfl, hlog.append hmore⟩

/-- Events may be collected first, and told to the sink without its demands afterwards. -/
theorem keeps_collected (sink : σ → Event → Errand γ σ) (k : σ) :
    Search.Keeps (fun events p => Told (events.foldl (fun k event => (sink k event).alone) k) p) Array.push
      (notify sink) := by
  intro events p event h
  have hkept := keeps_told sink _ p event h
  simpa using hkept

/-- The sink without demands may be told events beside a cache that has lent its table. -/
theorem keeps_beside (sink : σ → Event → Errand γ σ) :
    Search.Keeps (fun (p : Cache × σ) q => p.1 = .lent ∧ Told p.2 q) (fun (c, k) event => (c, (sink k event).alone))
      (notify sink) :=
  fun p q event h => ⟨h.1, keeps_told sink p.2 q event h.2⟩

end Errand

/-! ## Sessions that make demands -/

/-- A session that works on its table and makes demands on the cache, between its steps and for the events of its
explorations. It sees every reply and every answer, and the statistics after each step on the table. -/
inductive Guest (γ α : Type) : Type 1 where
  | done (result : α)
  | command (command : Table.Command) (next : Table.Reply → Table.Stats → Guest γ α)
  | explore {σ : Type} (explorer : Explorer) (model : Model) (request : Request) (sink : σ)
      (notify : σ → Event → Errand γ σ) (next : σ → Except ExploreError Report → Table.Stats → Guest γ α)
  | demand (d : Demand γ) (next : Answer γ → Guest γ α)

namespace Guest

def run : Guest γ α → Table → Cache → (α × Log γ) × Table × Cache
  | .done result, t, c => ((result, []), t, c)
  | .command op next, t, c =>
    let (reply, t) := t.perform op
    (next reply t.stats).run t c
  | .explore explorer model request sink notify next, t, c =>
    let o := explorer.explore t model (Errand.notify notify) request (c, sink, [])
    let (c, sink, log) := o.sink
    let ((result, more), t, c) := (next sink o.result o.table.stats).run o.table c
    ((result, log ++ more), t, c)
  | .demand d next, t, c =>
    let (answer, c) := d.make c
    let ((result, log), t, c) := (next answer).run t c
    ((result, (d, answer) :: log), t, c)

/-- The session without its demands, as a client of its table: where it would make one, it goes on as if refused. -/
def alone : Guest γ α → Client α
  | .done result => .done result
  | .command op next => .command op fun reply stats => (next reply stats).alone
  | .explore explorer model request sink notify next =>
    .explore explorer model request fun events result stats =>
      (next (events.foldl (fun k event => (notify k event).alone) sink) result stats).alone
  | .demand d next => (next d.refusal).alone

/-- Inside a session every demand is refused, and the session comes to what it comes to without them. -/
theorem run_lent (g : Guest γ α) (t : Table) :
    ∃ log, Refused log ∧ g.run t .lent = (((g.alone.run t).1, log), (g.alone.run t).2, .lent) := by
  induction g generalizing t with
  | done result => exact ⟨[], refused_nil, rfl⟩
  | command op next ih => exact ih _ _ _
  | demand d next ih =>
    obtain ⟨log, hlog, hrun⟩ := ih d.refusal t
    refine ⟨(d, d.refusal) :: log, hlog.cons, ?_⟩
    simp only [run, d.make_lent, hrun, alone]
  | explore explorer model request sink notify next ih =>
    -- the client of the table collects the events, and goes through them when the exploration is over
    obtain ⟨hresult, hsink, htable⟩ := explorer.explore_told (Errand.keeps_collected notify sink) t model request
      #[] (.lent, sink, []) ⟨rfl, rfl, refused_nil⟩
    generalize ho : explorer.explore t model Array.push request #[] = o at hresult hsink htable
    generalize ho' : explorer.explore t model (Errand.notify notify) request (Cache.lent, sink, []) = o'
      at hresult hsink htable
    obtain ⟨e', t', ⟨c', k', log⟩, result'⟩ := o'
    obtain ⟨hc, hk, hlog⟩ := hsink
    dsimp only at hresult htable hc hk hlog
    subst hresult htable hc hk
    obtain ⟨more, hmore, hrun⟩ := ih (o.sink.foldl (fun k event => (notify k event).alone) sink) o.result o.table.stats
      o.table
    refine ⟨log ++ more, hlog.append hmore, ?_⟩
    simp only [run, alone, Client.run, ho, ho', hrun]

end Guest

/-! ## The enclosing session -/

/-- A session gets its table from a cache that has lent it then. -/
theorem lend_eq_ok {c c' : Cache} {config : Table.Config} {memory : Table.Memory} {t : Table}
    (h : c.lend config memory = (.ok t, c')) : c' = .lent := by
  unfold lend at h
  split at h
  · simp at h
  · split at h
    · cases h
      rfl
    · split at h
      · cases h
        rfl
      · simp at h

/-- An exploration whose sink makes demands; its result, the sink after the events, and the demands on record. -/
def visitedExploration (c : Cache) (config : Table.Config) (memory : Table.Memory) (explorer : Explorer)
    (model : Model) (notify : σ → Event → Errand γ σ) (request : Request) (sink : σ) :
    (Except CacheError Report × σ × Log γ) × Cache :=
  let ((result, _, sink, log), c) := c.explore config memory explorer model (Errand.notify notify) request (sink, [])
  ((result, sink, log), c)

/-- **Demands made inside a session are harmless.** A cache that has lent its table refuses every demand, whatever it
asks for, and stays as it is. So all demands that a session makes, and all that the sinks of explorations make, are
refused, and the results, the sinks and the cache afterwards are those of the same session or exploration without its
demands. -/
theorem reentry_harmless (c : Cache) (config : Table.Config) (memory : Table.Memory) :
    (∀ d : Demand γ, d.make .lent = (d.refusal, .lent)) ∧
    (∀ {α : Type} (g : Guest γ α), ∃ log, Refused log ∧
      c.withTable config memory g.run =
        ((c.session config memory g.alone).1.map fun result => (result, log),
          (c.session config memory g.alone).2)) ∧
    ∀ {σ : Type} (explorer : Explorer) (model : Model) (notify : σ → Event → Errand γ σ) (request : Request) (sink : σ),
      ∃ log, Refused log ∧
        let ((result, sink'), c') :=
          c.exploration config memory explorer model (fun k event => (notify k event).alone) request sink
        c.visitedExploration config memory explorer model notify request sink = ((result, sink', log), c') := by
  refine ⟨Demand.make_lent, fun g => ?_, fun {σ} explorer model notify request sink => ?_⟩
  · unfold session withTable
    cases hlend : c.lend config memory with
    | mk result c' =>
      cases result with
      | error error => exact ⟨[], refused_nil, rfl⟩
      | ok t =>
        rw [lend_eq_ok hlend]
        obtain ⟨log, hlog, hrun⟩ := g.run_lent t
        exact ⟨log, hlog, by simp only [hrun]; rfl⟩
  · unfold visitedExploration exploration explore withTable
    cases hlend : c.lend config memory with
    | mk result c' =>
      cases result with
      | error error => exact ⟨[], refused_nil, rfl⟩
      | ok t =>
        rw [lend_eq_ok hlend]
        obtain ⟨hresult, ⟨hc, hc', hk, hlog⟩, htable⟩ := explorer.explore_told (Errand.keeps_beside notify) t model
          request (.lent, sink) (.lent, sink, []) ⟨rfl, rfl, rfl, refused_nil⟩
        refine ⟨_, hlog, ?_⟩
        simp only [hresult, hc, hc', hk, htable]

end Cache

end StateSpace
