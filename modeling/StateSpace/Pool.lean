import StateSpace.Explore.Search
import StateSpace.Table.History

/-!
# Tables for workers

A pool has at most one table for each worker. A worker checks its table out, which empties it, and gives it back later;
tables are made at the first checkout. A shutdown drops the tables that are not checked out, together with all that the
pool knows of their workers.

`Fleet` is a pool with the tables that its workers hold, and the steps that the workers can take.
-/

namespace StateSpace

inductive PoolError where
  /-- The worker holds its table already. -/
  | inUse (worker : WorkerId)
  /-- The geometry is bad, or the table cannot be made. -/
  | table (error : Table.Error)
  deriving DecidableEq, Repr

def PoolError.message : PoolError → String
  | .inUse worker => s!"{worker.text} already holds its state table"
  | .table e => e.message

namespace Pool

/-- What a pool knows of a worker. -/
structure Entry where
  /-- The worker's table, while it is not checked out. -/
  table : Option Table := none
  checkedOut : Bool := false
  /-- How often the table was checked out. -/
  checkouts : Nat := 0
  deriving DecidableEq, Inhabited

/-- Whether the worker has a table, here or checked out. -/
def Entry.hasTable (e : Entry) : Bool := e.table.isSome || e.checkedOut

/-- The counters of a pool at one moment. -/
structure Snapshot where
  /-- Workers with a table, here or checked out. -/
  tables : Nat
  checkedOut : Nat
  checkouts : Nat
  deriving DecidableEq, Repr, Inhabited

def Snapshot.text (s : Snapshot) : String :=
  s!"PoolSnapshot \x7b tables: {s.tables}, checked_out: {s.checkedOut}, checkouts: {s.checkouts} \x7d"

/-- A table that is checked out, with its worker. -/
structure Loan where
  worker : WorkerId
  table : Table
  deriving DecidableEq

/-- The text of a table that is checked out. -/
def loanText (w : WorkerId) (t : Table.Summary) : String :=
  s!"TableGuard \x7b worker: WorkerId({w.index}), table: {t.text} \x7d"

end Pool

/-- A pool of tables of one geometry; each worker occurs at most once. -/
structure Pool where
  config : Table.Config
  entries : List (WorkerId × Pool.Entry)
  deriving DecidableEq

namespace Pool

/-- An empty pool, if the geometry of its tables is good. -/
def create (config : Table.Config) : Except PoolError Pool :=
  match config.validate with
  | .ok () => .ok ⟨config, []⟩
  | .error e => .error (.table e)

def entry? (p : Pool) (w : WorkerId) : Option Entry := (p.entries.find? (·.1 = w)).map (·.2)

/-- Sets what the pool knows of a worker. -/
def put (p : Pool) (w : WorkerId) (e : Entry) : Pool :=
  { p with
    entries :=
      if p.entries.any (·.1 = w) then p.entries.map fun old => if old.1 = w then (w, e) else old
      else p.entries ++ [(w, e)] }

/-- Checks out the worker's table, emptied, or a new one, for which memory is asked. Even if no table can be made the
pool knows the worker from now on. -/
def checkout (p : Pool) (w : WorkerId) (memory : Table.Memory) : Except PoolError Loan × Pool :=
  let e := (p.entry? w).getD {}
  if e.checkedOut then (.error (.inUse w), p)
  else
    let lent : Entry := { table := none, checkedOut := true, checkouts := e.checkouts + 1 }
    match e.table with
    | some t =>
      let p := p.put w lent
      (.ok ⟨w, t.clear⟩, p)
    | none =>
      match Table.create p.config memory with
      | .ok t => (.ok ⟨w, t⟩, p.put w lent)
      | .error error => (.error (.table error), p.put w e)

/-- Takes a table back; a table of a worker that the pool does not know is dropped. -/
def giveBack (p : Pool) (loan : Loan) : Pool :=
  match p.entry? loan.worker with
  | some e => p.put loan.worker { e with table := some loan.table, checkedOut := false }
  | none => p

def snapshot (p : Pool) : Snapshot :=
  { tables := p.entries.countP (·.2.hasTable)
    checkedOut := p.entries.countP (·.2.checkedOut)
    checkouts := p.entries.foldr (fun (_, e) n => e.checkouts + n) 0 }

/-- Forgets every worker whose table is not checked out; how many they were. -/
def shutdown (p : Pool) : Nat × Pool :=
  let kept := p.entries.filter (·.2.checkedOut)
  (p.entries.length - kept.length, { p with entries := kept })

def text (p : Pool) : String := s!"TablePool \x7b config: {p.config.text}, snapshot: {p.snapshot.text} \x7d"

end Pool

/-! ## Workers -/

/-- A pool and the tables that its workers hold. -/
structure Fleet where
  pool : Pool
  held : List Pool.Loan
  deriving DecidableEq

namespace Fleet

inductive Step where
  /-- The worker asks for its table; memory says what it says to this request. -/
  | checkout (worker : WorkerId) (memory : Table.Memory := .ordinary)
  | giveBack (worker : WorkerId)
  /-- A command to the table that the worker holds. -/
  | table (worker : WorkerId) (command : Table.Command)
  /-- An exploration on the table that the worker holds. -/
  | explore (worker : WorkerId) (model : Model) (request : Request)
  | shutdown
  /-- Asks for the text of the pool. -/
  | describe

inductive Reply where
  | refused (error : PoolError)
  | checkedOut (worker : WorkerId) (table : Table.Summary)
  /-- Whether the worker held a table. -/
  | gaveBack (held : Bool)
  | table (reply : Table.Reply) (after : Table.Stats)
  | explored (events : Array Event) (result : Except ExploreError Report) (after : Table.Stats)
  /-- The worker holds no table. -/
  | notHeld
  | dropped (entries : Nat)
  | text (pool : String)

/-- Takes away the table that the worker holds. -/
def take? (f : Fleet) (w : WorkerId) : Option (Pool.Loan × Fleet) :=
  match f.held.find? (·.worker = w) with
  | some loan => some (loan, { f with held := f.held.filter (·.worker ≠ w) })
  | none => none

/-- Gives a worker that holds no table one to hold. -/
def hold (f : Fleet) (loan : Pool.Loan) : Fleet := { f with held := loan :: f.held }

/-- Takes one step. -/
def step (f : Fleet) : Step → Reply × Fleet
  | .checkout w memory =>
    let ⟨pool, held⟩ := f
    match pool.checkout w memory with
    | (.error e, pool) => (.refused e, ⟨pool, held⟩)
    | (.ok loan, pool) => (.checkedOut w loan.table.summary, ⟨pool, loan :: held⟩)
  | .giveBack w =>
    match f.take? w with
    | none => (.gaveBack false, f)
    | some (loan, f) => (.gaveBack true, { f with pool := f.pool.giveBack loan })
  | .table w command =>
    match f.take? w with
    | none => (.notHeld, f)
    | some (loan, f) =>
      let (reply, t) := loan.table.perform command
      (.table reply t.stats, f.hold ⟨w, t⟩)
  | .explore w model request =>
    match f.take? w with
    | none => (.notHeld, f)
    | some (loan, f) =>
      let outcome := Explorer.explore {} loan.table model Array.push request #[]
      (.explored outcome.sink outcome.result outcome.table.stats, f.hold ⟨w, outcome.table⟩)
  | .shutdown =>
    let (dropped, pool) := f.pool.shutdown
    (.dropped dropped, { f with pool })
  | .describe => (.text f.pool.text, f)

/-- Takes one step; with the reply comes the snapshot of the pool after the step. -/
def observe (f : Fleet) (s : Step) : (Reply × Pool.Snapshot) × Fleet :=
  let (reply, f) := f.step s
  ((reply, f.pool.snapshot), f)

/-- Takes steps in order. -/
def run (f : Fleet) : List Step → List (Reply × Pool.Snapshot) × Fleet
  | [] => ([], f)
  | s :: rest =>
    let (seen, f) := f.observe s
    let (others, f) := f.run rest
    (seen :: others, f)

end Fleet

end StateSpace
