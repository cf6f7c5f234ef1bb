import StateSpace.Explore.Search
import StateSpace.Table.History

/-!
# A table kept between sessions

A cache keeps at most one table and lends it to one session at a time. A session that asks for the geometry of the table
that is kept gets it cleared; for any other geometry the table is dropped and a new one is made. While the table is
lent, every further request is refused and nothing is released.

A `Call` is what a user of the cache can ask for. A session runs steps, which are commands to its table or calls again;
an exploration makes calls for each of its events, while its table is lent (`Call.run`).
-/

namespace StateSpace

inductive CacheError where
  /-- The table is lent to a session that is not over. -/
  | inUse
  /-- A table was needed and could not be made. -/
  | table (error : Table.Error)
  /-- The exploration on the table failed. -/
  | explore (error : ExploreError)
  deriving DecidableEq, Repr

def CacheError.message : CacheError → String
  | .inUse => "the thread-local state table is already in use on this thread"
  | .table e => e.message
  | .explore e => e.message

inductive Cache where
  /-- No session runs; the table of the last one may be kept. -/
  | idle (kept : Option Table)
  /-- A session has the table. -/
  | lent
  deriving DecidableEq

namespace Cache

instance : Inhabited Cache := ⟨.idle none⟩

/-- The table that is kept, cleared, if it has the given geometry. -/
def reuse? (kept : Option Table) (config : Table.Config) : Option Table :=
  (kept.filter fun t => t.config = config).map Table.clear

/-- Lends an empty table of the given geometry. If none is kept, memory is asked for a new one; if none can be made, the
table that was kept is gone. -/
def lend (c : Cache) (config : Table.Config) (memory : Table.Memory) : Except CacheError Table × Cache :=
  match c with
  | .lent => (.error .inUse, .lent)
  | .idle kept =>
    match reuse? kept config with
    | some t => (.ok t, .lent)
    | none =>
      match Table.create config memory with
      | .ok t => (.ok t, .lent)
      | .error e => (.error (.table e), .idle none)

/-- Takes back the table of a session. -/
def takeBack (c : Cache) (t : Table) : Cache :=
  match c with
  | .lent => .idle (some t)
  | .idle kept => .idle kept

/-- Drops the table that is kept; whether there was one. -/
def release : Cache → Bool × Cache
  | .idle kept => (kept.isSome, .idle none)
  | .lent => (false, .lent)

/-- Runs a session with an empty table of the given geometry. The session may use the cache too. -/
def withTable {α : Type} (c : Cache) (config : Table.Config) (memory : Table.Memory)
    (session : Table → Cache → α × Table × Cache) : Except CacheError α × Cache :=
  match c.lend config memory with
  | (.error e, c) => (.error e, c)
  | (.ok t, c) =>
    let (result, t, c) := session t c
    (.ok result, c.takeBack t)

/-- Explores with an empty table of the given geometry. What is told the events may use the cache too. -/
def explore {σ : Type} (c : Cache) (config : Table.Config) (memory : Table.Memory) (explorer : Explorer)
    (model : Model) (notify : Cache × σ → Event → Cache × σ) (request : Request) (sink : σ) :
    (Except CacheError Report × Explorer × σ) × Cache :=
  let session := fun t c =>
    let o := explorer.explore t model notify request (c, sink)
    ((o.result, o.explorer, o.sink.2), o.table, o.sink.1)
  match c.withTable config memory session with
  | (.error e, c) => ((.error e, explorer, sink), c)
  | (.ok (result, explorer, sink), c) => ((result.mapError .explore, explorer, sink), c)

/-! ## Calls -/

mutual

inductive Call where
  /-- Runs steps on a table of the given geometry. -/
  | session (config : Table.Config) (body : List Step) (memory : Table.Memory := .ordinary)
  /-- Explores with a table of the given geometry, and makes calls for each event. -/
  | explore (config : Table.Config) (model : Model) (request : Request) (sink : Event → List Call)
      (memory : Table.Memory := .ordinary)
  | release

inductive Step where
  | table (command : Table.Command)
  | call (call : Call)

end

mutual

inductive Reply where
  | refused (error : CacheError)
  | session (start : Table.Stats) (replies : List StepReply)
  /-- The events with the replies to the calls made for them, and how the exploration ended. -/
  | explored (events : Array (Event × List Reply)) (result : Except CacheError Report)
  | released (wasKept : Bool)

inductive StepReply where
  | table (reply : Table.Reply) (after : Table.Stats)
  | call (reply : Reply)

end

mutual

/-- Makes a call. -/
def Call.run : Call → Cache → Reply × Cache
  | .session config body memory, c =>
    let session := fun t c =>
      let (replies, t', c) := runSteps body t c
      ((t.stats, replies), t', c)
    match c.withTable config memory session with
    | (.error e, c) => (.refused e, c)
    | (.ok (start, replies), c) => (.session start replies, c)
  | .explore config model request sink memory, c =>
    let notify := fun (c, events) event =>
      let (replies, c) := runCalls (sink event) c
      (c, events.push (event, replies))
    let ((result, _, events), c) := c.explore config memory {} model notify request #[]
    (.explored events result, c)
  | .release, c =>
    let (wasKept, c) := c.release
    (.released wasKept, c)
termination_by structural call => call

/-- Makes calls in order. -/
def runCalls : List Call → Cache → List Reply × Cache
  | [], c => ([], c)
  | call :: rest, c =>
    let (reply, c) := call.run c
    let (replies, c) := runCalls rest c
    (reply :: replies, c)
termination_by structural calls => calls

/-- Runs the steps of a session in order. -/
def runSteps : List Step → Table → Cache → List StepReply × Table × Cache
  | [], t, c => ([], t, c)
  | step :: rest, t, c =>
    let (reply, t, c) := step.run t c
    let (replies, t, c) := runSteps rest t c
    (reply :: replies, t, c)
termination_by structural steps => steps

/-- Runs one step of a session. -/
def Step.run : Step → Table → Cache → StepReply × Table × Cache
  | .table command, t, c =>
    let (reply, t) := t.perform command
    (.table reply t.stats, t, c)
  | .call call, t, c =>
    let (reply, c) := call.run c
    (.call reply, t, c)
termination_by structural step => step

end

end Cache

end StateSpace
