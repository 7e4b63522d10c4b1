import Valuation.Engine

/-!
# Batches

A batch is a cycle on demand against a named snapshot that is filled and sealed by hand; when it
ends, the snapshot's values and the results are saved together. Running and ending take two steps
each, between which other operations may come: `readRun` and `recordCycle`, and `beginEnd` and
`finishEnd` around the saving.
-/
namespace Valuation

/-! ## Jobs and records -/

/-- What a batch runs against, and the time that it values at. -/
structure BatchJob where
  batch : BatchId
  snapshot : SnapshotId
  valuationTime : Instant
deriving DecidableEq, Inhabited

inductive BatchStatus where
  | running
  | ended
deriving DecidableEq, Inhabited

namespace BatchStatus

def all : List BatchStatus := [.running, .ended]

def display : BatchStatus → String
  | .running => "RUNNING"
  | .ended => "ENDED"

end BatchStatus

/-- What is saved of a batch. -/
structure BatchRecord where
  batch : BatchId
  attempt : Nat
  snapshot : SnapshotId
  cycle : Option CycleId
  snapshotValues : List (MarketDataKey × DataValue)
  results : List ComputedValue
  failures : List (Specification × String)
  startedAt : Instant
  endedAt : Instant
deriving Inhabited

/-- The latest record of each batch. -/
structure BatchStore where
  records : Table BatchId BatchRecord := ∅
deriving Inhabited

namespace BatchStore

def save (s : BatchStore) (r : BatchRecord) : BatchStore := ⟨s.records.insert r.batch r⟩

def load? (s : BatchStore) (b : BatchId) : Option BatchRecord := s.records.get? b

def size (s : BatchStore) : Nat := s.records.size

end BatchStore

/-! ## Batches and their snapshots -/

structure BatchRun where
  job : BatchJob
  attempt : Nat
  status : BatchStatus
  /-- Whether the record is being saved. -/
  ending : Bool
  startedAt : Instant
  cycle : Option Cycle

structure BatchManager where
  snapshots : Table SnapshotId Snapshot := ∅
  batches : Table BatchId BatchRun := ∅

namespace BatchManager

/-- A batch by its identifier. -/
def batch (m : BatchManager) (b : BatchId) : Except EngineError BatchRun :=
  match m.batches.get? b with
  | some run => .ok run
  | none => .error (.batchNotFound b)

/-- Starts a batch for the first time, or again after it has ended; answers how often it has been
started. -/
def start (m : BatchManager) (job : BatchJob) (now : Instant) : Except EngineError (Nat × BatchManager) :=
  match m.batches.get? job.batch with
  | none =>
    .ok (1, { m with batches := m.batches.insert job.batch ⟨job, 1, .running, false, now, none⟩ })
  | some run =>
    if run.status = .running then .error (.invalidStateTransition "RUNNING" "RUNNING")
    else
      let run := { run with
        attempt := run.attempt + 1, status := .running, startedAt := now, cycle := none, job }
      .ok (run.attempt, { m with batches := m.batches.insert job.batch run })

/-- A snapshot by its identifier. -/
def snapshot (m : BatchManager) (id : SnapshotId) : Except EngineError Snapshot :=
  match m.snapshots.get? id with
  | some s => .ok s
  | none => .error (.snapshotNotFound id)

/-- The snapshot of an identifier, a new one if there is none. -/
def createSnapshot (m : BatchManager) (id : SnapshotId) : Snapshot × BatchManager :=
  match m.snapshots.get? id with
  | some s => (s, m)
  | none => (Snapshot.new id, { m with snapshots := m.snapshots.insert id (Snapshot.new id) })

/-- Applies an operation to a snapshot. -/
def updateSnapshot (m : BatchManager) (id : SnapshotId) (f : Snapshot → Except EngineError Snapshot) :
    Except EngineError BatchManager := do
  let s ← m.snapshot id
  let s ← f s
  return { m with snapshots := m.snapshots.insert id s }

def fixTime (m : BatchManager) (id : SnapshotId) (asOf : Instant) : Except EngineError BatchManager :=
  m.updateSnapshot id fun s => s.fixTime asOf

def addValues (m : BatchManager) (id : SnapshotId) (values : List (MarketDataKey × DataValue)) :
    Except EngineError BatchManager :=
  m.updateSnapshot id fun s => s.addValues values

def markComplete (m : BatchManager) (id : SnapshotId) : Except EngineError BatchManager :=
  m.updateSnapshot id Snapshot.markComplete

/-! ## Running -/

/-- The job and the snapshot that a run of a batch goes by. -/
def readRun (m : BatchManager) (b : BatchId) : Except EngineError (BatchJob × Snapshot) := do
  let run ← m.batch b
  if run.status = .ended then .error (.invalidStateTransition "ENDED" "RUNNING")
  else
    let s ← m.snapshot run.job.snapshot
    return (run.job, s)

/-- The cycles of a batch belong to a process named after it. -/
def processOf (b : BatchId) : ProcessId := ⟨"Batch~" ++ b.text⟩

/-- Performs a cycle for a job. Nobody else knows of the cycle before it has ended, so nothing stops
it. -/
def performJob (e : Engine) (job : BatchJob) (s : Snapshot) (d : ViewDefinition) : Performance :=
  let (c, e) := e.newCycle (processOf job.batch) (CycleOptions.atTime job.valuationTime) d.options
  e.perform Stops.none d { c with control := { attached := false } } (.ok s)

/-- Records the cycle of a batch, if the batch is known. -/
def recordCycle (m : BatchManager) (b : BatchId) (c : Cycle) : BatchManager :=
  { m with batches := m.batches.modify b fun run => { run with cycle := some c } }

/-- Runs a batch: reads its job, performs a cycle and records it. -/
def run (m : BatchManager) (e : Engine) (b : BatchId) (d : ViewDefinition) :
    Except EngineError Cycle × BatchManager × Engine :=
  match m.readRun b with
  | .error err => (.error err, m, e)
  | .ok (job, s) =>
    let p := performJob e job s d
    match p.error with
    | some err => (.error err, m, p.engine)
    | none => (.ok p.cycle, m.recordCycle b p.cycle, p.engine)

/-! ## Ending -/

/-- What is saved of a batch as it stands. -/
def recordOf (run : BatchRun) (s : Snapshot) (now : Instant) : BatchRecord :=
  let model := run.cycle.bind (·.result)
  { batch := run.job.batch
    attempt := run.attempt
    snapshot := run.job.snapshot
    cycle := run.cycle.map (·.id)
    snapshotValues := s.values.toList
    results := match model with
      | some m => m.allValues
      | none => []
    failures := match model with
      | some m => m.failures.toList.map fun e => (e.1, e.2.message)
      | none => []
    startedAt := run.startedAt
    endedAt := now }

/-- Marks a batch as ending and takes the record to be saved. Its snapshot must be sealed. -/
def beginEnd (m : BatchManager) (b : BatchId) (now : Instant) :
    Except EngineError (BatchRecord × BatchManager) := do
  let run ← m.batch b
  if run.status = .ended ∨ run.ending then
    .error (.invalidStateTransition (if run.ending then "ENDING" else "ENDED") "ENDED")
  else
    let s ← m.snapshot run.job.snapshot
    if !s.isSealed then
      .error (.invalidSnapshotState run.job.snapshot "batch cannot end before its snapshot is sealed")
    else
      let m := { m with batches := m.batches.insert b { run with ending := true } }
      return (recordOf run s now, m)

/-- The saving is over: the batch has ended if it went well, and otherwise it can be ended again. -/
def finishEnd (m : BatchManager) (b : BatchId) (saved : Except ServiceError Unit) :
    Except EngineError Unit × BatchManager :=
  match saved with
  | .ok () =>
    (.ok (), { m with batches := m.batches.modify b fun run => { run with ending := false, status := .ended } })
  | .error err =>
    (.error (.service err), { m with batches := m.batches.modify b fun run => { run with ending := false } })

/-! ## All at once -/

/-- What a batch leaves that is taken from its start to its end at once. -/
structure Whole where
  record : BatchRecord
  cycle : Cycle
  store : BatchStore

/-- Fills and seals the snapshot of a job that starts. -/
def prepare (m : BatchManager) (job : BatchJob) (values : List (MarketDataKey × DataValue)) (now : Instant) :
    Except EngineError BatchManager := do
  let (_, m) ← m.start job now
  let (_, m) := m.createSnapshot job.snapshot
  let m ← m.addValues job.snapshot values
  m.markComplete job.snapshot

/-- Starts, fills, runs and ends a batch. -/
def runWhole (m : BatchManager) (e : Engine) (store : BatchStore) (job : BatchJob)
    (values : List (MarketDataKey × DataValue)) (d : ViewDefinition) : Except EngineError Whole × Engine :=
  match m.prepare job values e.now with
  | .error err => (.error err, e)
  | .ok m =>
    let (c, m, e) := m.run e job.batch d
    (do
      let cycle ← c
      let (record, m) ← m.beginEnd job.batch e.now
      let store := store.save record
      let _ ← (m.finishEnd job.batch (.ok ())).1
      return { record, cycle, store }, e)

end BatchManager
end Valuation
