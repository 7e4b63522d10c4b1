import Valuation.Proofs.Engine
import Valuation.Proofs.Execution.Outcome
import Valuation.Proofs.Graph.Reuse
import Valuation.Proofs.Snapshot

/-!
# Sessions with batches

Running a batch and ending it go in steps, between which other operations may come. A `Session` is what a
manager of batches has been through: snapshots are opened and changed, batches started, runs and ends taken
step by step, in any order. Every move is one of the operations of the model, under the conditions of that
operation (`step_cases`); one that is refused changes nothing. A run that nothing interrupts is three moves
(`run_eq_after`).
-/
namespace Valuation
namespace BatchManager

/-! ## Moves -/

/-- A call that runs a batch, from reading what to run to recording the cycle. -/
structure RunCall where
  batch : BatchId
  /-- How often the batch had been started when its job was read. -/
  attempt : Nat
  job : BatchJob
  definition : ViewDefinition
  /-- The cycle, once it has been performed. -/
  cycle : Option Cycle := none
  recorded : Bool := false

/-- A call that ends a batch, from taking its record on. -/
structure EndCall where
  batch : BatchId
  record : BatchRecord
  /-- The cycle that the record was taken of. -/
  cycle : Option Cycle
  /-- What saving the record has come to. -/
  saved : Option (Except ServiceError Unit) := none
  finished : Bool := false

structure Session where
  manager : BatchManager := {}
  engine : Engine
  store : BatchStore := {}
  /-- The starts that were accepted, each with its answer. -/
  starts : List (Nat × BatchJob) := []
  /-- The calls that have read what to run, whether they are over or not. -/
  runs : List RunCall := []
  /-- The calls that have taken a record, whether they are over or not. -/
  ends : List EndCall := []

/-- What can come next. Calls are taken on by their place in the session. -/
inductive Move where
  | create (id : SnapshotId)
  | change (id : SnapshotId) (call : Snapshot.Call)
  | start (job : BatchJob)
  | read (b : BatchId) (d : ViewDefinition)
  /-- The cycle of a run is performed. What it leaves to chance is part of the move. -/
  | perform (k : Nat) (x : Interleaving)
  | record (k : Nat)
  | beginEnd (b : BatchId)
  | save (k : Nat) (result : Except ServiceError Unit)
  | finishEnd (k : Nat)
  /-- Someone else uses the compiler. -/
  | compile (call : GraphCompiler.Call) (listed : call.Listed)
  | wait (now : Instant)

namespace Session

section
variable (s : Session)

def create (id : SnapshotId) : Session := { s with manager := (s.manager.createSnapshot id).2 }

def change (id : SnapshotId) (call : Snapshot.Call) : Session :=
  match s.manager.updateSnapshot id fun snapshot => call.apply snapshot with
  | .ok manager => { s with manager }
  | .error _ => s

def start (job : BatchJob) : Session :=
  match s.manager.start job s.engine.now with
  | .ok (n, manager) => { s with manager, starts := s.starts ++ [(n, job)] }
  | .error _ => s

def read (b : BatchId) (d : ViewDefinition) : Session :=
  match s.manager.batch b, s.manager.readRun b with
  | .ok run, .ok (job, _) =>
    { s with runs := s.runs ++ [{ batch := b, attempt := run.attempt, job, definition := d }] }
  | _, _ => s

/-- Performs the cycle of a run. The snapshot is taken as it is now; from `complete` on its values stay, so it
does not matter that a cycle looks at it more than once. -/
def perform (k : Nat) (x : Interleaving) : Session :=
  match s.runs[k]? with
  | none => s
  | some r =>
    match r.cycle, s.manager.snapshot r.job.snapshot with
    | none, .ok snapshot =>
      let p := performJob { s.engine with interleaving := x } r.job snapshot r.definition
      match p.error with
      | none => { s with engine := p.engine, runs := s.runs.set k { r with cycle := some p.cycle } }
      | some _ => { s with engine := p.engine }
    | _, _ => s

def record (k : Nat) : Session :=
  match s.runs[k]? with
  | none => s
  | some r =>
    match r.cycle, r.recorded with
    | some c, false =>
      { s with manager := s.manager.recordCycle r.batch c, runs := s.runs.set k { r with recorded := true } }
    | _, _ => s

def beginEnd (b : BatchId) : Session :=
  match s.manager.batch b, s.manager.beginEnd b s.engine.now with
  | .ok run, .ok (record, manager) =>
    { s with manager, ends := s.ends ++ [{ batch := b, record, cycle := run.cycle }] }
  | _, _ => s

def save (k : Nat) (result : Except ServiceError Unit) : Session :=
  match s.ends[k]? with
  | none => s
  | some e =>
    match e.saved with
    | none =>
      { s with
        ends := s.ends.set k { e with saved := some result }
        store := if result.isOk then s.store.save e.record else s.store }
    | some _ => s

def finishEnd (k : Nat) : Session :=
  match s.ends[k]? with
  | none => s
  | some e =>
    match e.saved, e.finished with
    | some result, false =>
      { s with
        ends := s.ends.set k { e with finished := true }
        manager := (s.manager.finishEnd e.batch result).2 }
    | _, _ => s

/-- The session after a move. -/
def step : Move → Session
  | .create id => s.create id
  | .change id call => s.change id call
  | .start job => s.start job
  | .read b d => s.read b d
  | .perform k x => s.perform k x
  | .record k => s.record k
  | .beginEnd b => s.beginEnd b
  | .save k result => s.save k result
  | .finishEnd k => s.finishEnd k
  | .compile call _ => { s with engine := { s.engine with compiler := call.apply s.engine.compiler } }
  | .wait now => { s with engine := { s.engine with now } }

/-- The session after some moves. -/
def after (moves : List Move) : Session := moves.foldl step s

end

theorem after_append (s : Session) (moves more : List Move) :
    s.after (moves ++ more) = (s.after moves).after more :=
  List.foldl_append

theorem after_concat (s : Session) (moves : List Move) (m : Move) :
    s.after (moves ++ [m]) = (s.after moves).step m :=
  after_append s moves [m]

/-! ## What a move does -/

/-- A move that is not refused, with what it changes. -/
inductive Takes (s : Session) : Move → Session → Prop
  | create {id} (hnone : s.manager.snapshots.get? id = none) :
    Takes s (.create id) { s with
      manager := { s.manager with snapshots := s.manager.snapshots.insert id (Snapshot.new id) } }
  | change {id call x x'} (hx : s.manager.snapshots.get? id = some x) (hcall : call.apply x = .ok x') :
    Takes s (.change id call) { s with
      manager := { s.manager with snapshots := s.manager.snapshots.insert id x' } }
  | first {job} (hnone : s.manager.batches.get? job.batch = none) :
    Takes s (.start job) { s with
      manager := { s.manager with
        batches := s.manager.batches.insert job.batch ⟨job, 1, .running, false, s.engine.now, none⟩ }
      starts := s.starts ++ [(1, job)] }
  | again {job run} (hrun : s.manager.batches.get? job.batch = some run) (hended : run.status = .ended) :
    Takes s (.start job) { s with
      manager := { s.manager with
        batches := s.manager.batches.insert job.batch { run with
          attempt := run.attempt + 1, status := .running, startedAt := s.engine.now, cycle := none, job } }
      starts := s.starts ++ [(run.attempt + 1, job)] }
  | read {b d run x} (hrun : s.manager.batches.get? b = some run) (hrunning : run.status = .running)
    (hx : s.manager.snapshots.get? run.job.snapshot = some x) :
    Takes s (.read b d) { s with
      runs := s.runs ++ [{ batch := b, attempt := run.attempt, job := run.job, definition := d }] }
  | perform {k interleaving r x c compiler} (hr : s.runs[k]? = some r) (hnone : r.cycle = none)
    (hx : s.manager.snapshots.get? r.job.snapshot = some x)
    (hc : Performed { s.engine with interleaving } r.job x r.definition c)
    (hcompiler : compiler = s.engine.compiler ∨
      compiler = (s.engine.compiler.compile r.definition x.availability).2) :
    Takes s (.perform k interleaving) { s with
      engine := { s.engine with interleaving, serial := s.engine.serial + 1, compiler }
      runs := s.runs.set k { r with cycle := some c } }
  | record {k r c} (hr : s.runs[k]? = some r) (hc : r.cycle = some c) (hnew : r.recorded = false) :
    Takes s (.record k) { s with
      manager := { s.manager with
        batches := s.manager.batches.modify r.batch fun run => { run with cycle := some c } }
      runs := s.runs.set k { r with recorded := true } }
  | beginEnd {b run x} (hrun : s.manager.batches.get? b = some run) (hrunning : run.status = .running)
    (hending : run.ending = false) (hx : s.manager.snapshots.get? run.job.snapshot = some x)
    (hsealed : x.isSealed = true) :
    Takes s (.beginEnd b) { s with
      manager := { s.manager with batches := s.manager.batches.insert b { run with ending := true } }
      ends := s.ends ++ [{ batch := b, record := recordOf run x s.engine.now, cycle := run.cycle }] }
  | save {k result e} (he : s.ends[k]? = some e) (hnone : e.saved = none) :
    Takes s (.save k result) { s with
      ends := s.ends.set k { e with saved := some result }
      store := if result.isOk then s.store.save e.record else s.store }
  | finishEnd {k e result} (he : s.ends[k]? = some e) (hsaved : e.saved = some result)
    (hunfinished : e.finished = false) :
    Takes s (.finishEnd k) { s with
      manager := { s.manager with
        batches := s.manager.batches.modify e.batch fun run => { run with
          ending := false, status := if result.isOk then .ended else run.status } }
      ends := s.ends.set k { e with finished := true } }
  | compile {call listed} :
    Takes s (.compile call listed) { s with
      engine := { s.engine with compiler := call.apply s.engine.compiler } }
  | wait {now} : Takes s (.wait now) { s with engine := { s.engine with now } }

theorem batch_eq_ok {m : BatchManager} {b : BatchId} {run : BatchRun} :
    m.batch b = .ok run ↔ m.batches.get? b = some run := by
  unfold batch
  cases m.batches.get? b <;> simp

theorem snapshot_eq_ok {m : BatchManager} {id : SnapshotId} {x : Snapshot} :
    m.snapshot id = .ok x ↔ m.snapshots.get? id = some x := by
  unfold snapshot
  cases m.snapshots.get? id <;> simp

theorem readRun_eq_ok {m : BatchManager} {b : BatchId} {job : BatchJob} {x : Snapshot}
    (h : m.readRun b = .ok (job, x)) :
    ∃ run, m.batches.get? b = some run ∧ run.status = .running ∧ run.job = job ∧
      m.snapshots.get? job.snapshot = some x := by
  obtain ⟨run, hrun, h⟩ := bind_eq_ok.1 h
  split at h
  · cases h
  next hstatus =>
  obtain ⟨y, hy, h⟩ := bind_eq_ok.1 h
  cases h
  have hrunning : run.status = .running := by
    cases hcase : run.status with
    | running => rfl
    | ended => exact absurd hcase hstatus
  exact ⟨run, batch_eq_ok.1 hrun, hrunning, rfl, snapshot_eq_ok.1 hy⟩

theorem beginEnd_eq_ok {m m' : BatchManager} {b : BatchId} {now : Instant} {record : BatchRecord}
    (h : m.beginEnd b now = .ok (record, m')) :
    ∃ run x, m.batches.get? b = some run ∧ run.status = .running ∧ run.ending = false ∧
      m.snapshots.get? run.job.snapshot = some x ∧ x.isSealed = true ∧ record = recordOf run x now ∧
      m' = { m with batches := m.batches.insert b { run with ending := true } } := by
  obtain ⟨run, hrun, h⟩ := bind_eq_ok.1 h
  split at h
  · cases h
  next hfree =>
  obtain ⟨hstatus, hending⟩ := not_or.1 hfree
  obtain ⟨x, hx, h⟩ := bind_eq_ok.1 h
  split at h
  · cases h
  next hsealed =>
  cases h
  have hrunning : run.status = .running := by
    cases hcase : run.status with
    | running => rfl
    | ended => exact absurd hcase hstatus
  exact ⟨run, x, batch_eq_ok.1 hrun, hrunning, Bool.eq_false_iff.2 hending, snapshot_eq_ok.1 hx,
    by simpa using hsealed, rfl, rfl⟩

/-- A run that has not performed its cycle performs it, if it still finds its snapshot. -/
theorem perform_eq (s : Session) {k : Nat} {r : RunCall} {x : Snapshot} (hr : s.runs[k]? = some r)
    (hnone : r.cycle = none) (hx : s.manager.snapshots.get? r.job.snapshot = some x) (interleaving : Interleaving) :
    ∃ c compiler, Performed { s.engine with interleaving } r.job x r.definition c ∧
      (compiler = s.engine.compiler ∨
        compiler = (s.engine.compiler.compile r.definition x.availability).2) ∧
      s.step (.perform k interleaving) = { s with
        engine := { s.engine with interleaving, serial := s.engine.serial + 1, compiler }
        runs := s.runs.set k { r with cycle := some c } } := by
  obtain ⟨herror, hc, compiler, hcompiler, hengine⟩ :=
    performJob_spec { s.engine with interleaving } r.job x r.definition
  refine ⟨_, compiler, hc, hcompiler, ?_⟩
  simp only [step, perform, hr, hnone, snapshot_eq_ok.2 hx, herror, hengine]

/-- A move is refused and changes nothing, or it does what `Takes` says. -/
theorem step_cases (s : Session) (m : Move) : s.step m = s ∨ s.Takes m (s.step m) := by
  cases m with
  | create id =>
    simp only [step, create, createSnapshot]
    split
    · exact .inl rfl
    · next hnone => exact .inr (.create hnone)
  | change id call =>
    simp only [step, change]
    split
    · next manager h =>
      obtain ⟨x, hx, h⟩ := bind_eq_ok.1 h
      obtain ⟨x', hcall, h⟩ := bind_eq_ok.1 h
      cases h
      exact .inr (.change (snapshot_eq_ok.1 hx) hcall)
    · exact .inl rfl
  | start job =>
    simp only [step, start]
    split
    · next n manager h =>
      unfold BatchManager.start at h
      split at h
      · next hnone =>
        cases h
        exact .inr (.first hnone)
      · next run hrun =>
        split at h
        · cases h
        next hstatus =>
        cases h
        have hended : run.status = .ended := by
          cases hcase : run.status with
          | running => exact absurd hcase hstatus
          | ended => rfl
        exact .inr (.again hrun hended)
    · exact .inl rfl
  | read b d =>
    simp only [step, read]
    split
    · next run job x hbatch hread =>
      obtain ⟨run', hrun, hrunning, rfl, hx⟩ := readRun_eq_ok hread
      obtain rfl : run = run' := Option.some.inj ((batch_eq_ok.1 hbatch).symm.trans hrun)
      exact .inr (.read hrun hrunning hx)
    · exact .inl rfl
  | perform k interleaving =>
    cases hr : s.runs[k]? with
    | none => exact .inl (by simp [step, perform, hr])
    | some r =>
      cases hcycle : r.cycle with
      | some c => exact .inl (by simp [step, perform, hr, hcycle])
      | none =>
        cases hx : s.manager.snapshot r.job.snapshot with
        | error err => exact .inl (by simp [step, perform, hr, hcycle, hx])
        | ok x =>
          obtain ⟨c, compiler, hc, hcompiler, heq⟩ := s.perform_eq hr hcycle (snapshot_eq_ok.1 hx) interleaving
          exact .inr (heq ▸ .perform hr hcycle (snapshot_eq_ok.1 hx) hc hcompiler)
  | record k =>
    simp only [step, record]
    split
    · exact .inl rfl
    next r hr =>
    split
    · next c hc hnew => exact .inr (.record hr hc hnew)
    · exact .inl rfl
  | beginEnd b =>
    simp only [step, beginEnd]
    split
    · next run record manager hbatch hend =>
      obtain ⟨run', x, hrun, hrunning, hending, hx, hsealed, rfl, rfl⟩ := beginEnd_eq_ok hend
      obtain rfl : run = run' := Option.some.inj ((batch_eq_ok.1 hbatch).symm.trans hrun)
      exact .inr (.beginEnd hrun hrunning hending hx hsealed)
    · exact .inl rfl
  | save k result =>
    simp only [step, save]
    split
    · exact .inl rfl
    next e he =>
    split
    · next hnone => exact .inr (.save he hnone)
    · exact .inl rfl
  | finishEnd k =>
    simp only [step, finishEnd]
    split
    · exact .inl rfl
    next e he =>
    split
    · next result hsaved hunfinished =>
      have hfinish : (s.manager.finishEnd e.batch result).2 = { s.manager with
          batches := s.manager.batches.modify e.batch fun run => { run with
            ending := false, status := if result.isOk then .ended else run.status } } := by
        cases result with
        | ok _ => rfl
        | error _ => rfl
      rw [hfinish]
      exact .inr (.finishEnd he hsaved hunfinished)
    · exact .inl rfl
  | compile call listed => exact .inr .compile
  | wait now => exact .inr .wait

/-! ## A run at once -/

/-- Running a batch at once is reading what to run, performing the cycle and recording it with nothing in between. -/
theorem run_eq_after (s : Session) (b : BatchId) (d : ViewDefinition) :
    (s.manager.run s.engine b d).2 =
      ((s.after [.read b d, .perform s.runs.length s.engine.interleaving, .record s.runs.length]).manager,
        (s.after [.read b d, .perform s.runs.length s.engine.interleaving, .record s.runs.length]).engine) := by
  simp only [after, List.foldl_cons, List.foldl_nil]
  cases hread : s.manager.readRun b with
  | error err =>
    have hrefused : s.step (.read b d) = s := by simp [step, read, hread]
    rw [hrefused]
    simp [step, perform, record, BatchManager.run, hread]
  | ok answer =>
    obtain ⟨job, x⟩ := answer
    obtain ⟨run, hrun, -, rfl, hx⟩ := readRun_eq_ok hread
    have hstep : s.step (.read b d) = { s with
        runs := s.runs ++ [{ batch := b, attempt := run.attempt, job := run.job, definition := d }] } := by
      simp [step, read, hread, batch_eq_ok.2 hrun]
    rw [hstep]
    obtain ⟨herror, -⟩ := performJob_spec s.engine run.job x d
    simp [step, perform, record, BatchManager.run, hread, herror, snapshot_eq_ok.2 hx]

end Session
end BatchManager
end Valuation
