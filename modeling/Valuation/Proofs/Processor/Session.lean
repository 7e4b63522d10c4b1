import Valuation.Processor
import Valuation.Proofs.Process

/-!
# Sessions with a processor

Processes run their cycles side by side with the calls of the processor, on threads of their own, and whoever holds a
process can go on with it after it has left the registry. A `Session` is what a processor has been through: calls of
the processor and of the processes it has had, the turns of their loops and cycles that are run directly, in any
order. Running a cycle goes in steps: the cycle is filed in the table, retained by its process, and taken to its end.
Deregistering goes in two: the process leaves the registry, and then it is stopped and lets its cycles go. Other moves
may come in between. Nothing in between is what the operations of the model do (`run_eq_after`, `turn_eq_after`,
`deregister_eq_after`, `stop_eq_after`).
-/
namespace Valuation

/-! ## Steps of an operation -/

/-- Files a cycle in the table. -/
def Engine.file (e : Engine) (c : Cycle) : Engine := { e with cycles := e.cycles.insert c.id c }

namespace Process

/-- A new cycle of the process. -/
def newCycle (p : Process) (e : Engine) : Cycle × Engine :=
  e.newCycle p.id (CycleOptions.atTime e.now) p.definition.options

/-- Retains a cycle that is filed; the oldest ones of the process leave the table if there are too many. -/
def keep (p : Process) (e : Engine) (id : CycleId) : Process × Engine :=
  let retained := p.retained ++ [id]
  let surplus := retained.length - e.cycleRetention
  ({ p with retained := retained.drop surplus },
    { e with cycles := (retained.take surplus).foldl Table.erase e.cycles })

/-- Takes a cycle that is retained to its end. -/
def finish (p : Process) (e : Engine) (stops : Stops) (trigger : CycleTrigger) (c : Cycle) : CycleRun :=
  let (source, e) := e.takeSnapshot p.source
  p.finishCycle e stops trigger c source

theorem runCycle_eq_finish (p : Process) (e : Engine) (stops : Stops) (trigger : CycleTrigger) :
    p.runCycle e stops trigger =
      let (c, e) := p.newCycle e
      let (p, e) := p.keep (e.file c) c.id
      p.finish e stops trigger c :=
  rfl

theorem finish_keeps (p : Process) (e : Engine) (stops : Stops) (trigger : CycleTrigger) (c : Cycle) :
    (p.finish e stops trigger c).process.id = p.id ∧ (p.finish e stops trigger c).process.retained = p.retained := by
  obtain ⟨⟨stopping, cyclesRun, notices, hprocess⟩, -⟩ := finishCycle_keeps p (e.takeSnapshot p.source).2 stops trigger c
    (e.takeSnapshot p.source).1
  rw [show (p.finish e stops trigger c).process = _ from hprocess]
  exact ⟨rfl, rfl⟩

theorem runCycle_id (p : Process) (e : Engine) (stops : Stops) (trigger : CycleTrigger) :
    (p.runCycle e stops trigger).process.id = p.id := by
  rw [runCycle_eq_finish]
  exact (finish_keeps ..).1

theorem wake_keeps (p : Process) (e : Engine) (w : Wakeup) :
    (p.wake e w).2.id = p.id ∧ (p.wake e w).2.retained = p.retained := by
  cases w <;> exact ⟨rfl, rfl⟩

theorem checkLimit_keeps (p : Process) : p.checkLimit.id = p.id ∧ p.checkLimit.retained = p.retained := by
  unfold checkLimit
  split <;> exact ⟨rfl, rfl⟩

/-- What a holder can ask of a process, apart from cycles and from letting them go. -/
inductive Call where
  | trigger
  | start (hosted : Bool)
  | stop

/-- A call that is refused changes nothing. -/
def Call.apply (call : Call) (e : Engine) (p : Process) : Process :=
  match call with
  | .trigger => p.trigger.toOption.getD p
  | .start hosted => (p.start e hosted).toOption.getD p
  | .stop => p.stop

theorem Call.keeps (call : Call) (e : Engine) (p : Process) :
    (call.apply e p).id = p.id ∧ (call.apply e p).retained = p.retained := by
  cases call with
  | trigger =>
    simp only [apply, Process.trigger]
    split <;> exact ⟨rfl, rfl⟩
  | start hosted =>
    simp only [apply, Process.start]
    split
    · exact ⟨rfl, rfl⟩
    · split <;> exact ⟨rfl, rfl⟩
  | stop =>
    obtain ⟨stopping, hstop⟩ := p.exists_stop
    rw [apply, hstop]
    exact ⟨rfl, rfl⟩

end Process

namespace Processor

/-- Takes a process out of the registry. -/
def remove (r : Processor) (id : ProcessId) : Except EngineError Processor := do
  let p ← r.process id
  return { r with processes := r.processes.erase id, formerProcesses := r.formerProcesses.insert id p }

/-- Stops a process that has left the registry, takes its cycles out of the table, and detaches its clients. -/
def letGo (r : Processor) (id : ProcessId) : Processor :=
  match r.formerProcesses.get? id with
  | none => r
  | some p =>
    let (p, engine) := p.stop.release r.engine
    { r with
      engine
      formerProcesses := r.formerProcesses.insert id p
      clients := detachAll id r.clients }.emit (.processRemoved id)

theorem putProcess_of_registered {r : Processor} {p : Process} (h : r.processes.contains p.id = true) (e : Engine) :
    r.putProcess p e = { r with processes := r.processes.insert p.id p, engine := e } :=
  if_pos h

theorem putProcess_of_former {r : Processor} {p : Process} (h : ¬r.processes.contains p.id = true) (e : Engine) :
    r.putProcess p e = { r with formerProcesses := r.formerProcesses.insert p.id p, engine := e } :=
  if_neg h

theorem engine_putProcess (r : Processor) (p : Process) (e : Engine) : (r.putProcess p e).engine = e := by
  unfold putProcess
  split <;> rfl

theorem putProcess_putProcess (r : Processor) {p p' : Process} (hid : p'.id = p.id) (e e' : Engine) :
    (r.putProcess p e).putProcess p' e' = r.putProcess p' e' := by
  by_cases h : r.processes.contains p.id = true
  · have hagain : (r.processes.insert p.id p).contains p'.id = true := by simp [Table.contains, hid]
    rw [putProcess_of_registered h, putProcess_of_registered hagain, putProcess_of_registered (hid ▸ h)]
    simp only [hid, Table.insert_insert]
  · rw [putProcess_of_former h, putProcess_of_former (hid ▸ h), putProcess_of_former (hid ▸ h)]
    simp only [hid, Table.insert_insert]

theorem heldProcess?_eq (r : Processor) (id : ProcessId) :
    r.heldProcess? id = (r.processes.get? id).or (r.formerProcesses.get? id) := by
  unfold heldProcess?
  cases r.processes.get? id <;> rfl

/-- A process that is put back is held again, and nothing else changes about what is held. -/
theorem heldProcess?_putProcess (r : Processor) (p : Process) (e : Engine) (id : ProcessId) :
    (r.putProcess p e).heldProcess? id = if p.id = id then some p else r.heldProcess? id := by
  rw [heldProcess?_eq, heldProcess?_eq]
  by_cases h : r.processes.contains p.id = true
  · rw [putProcess_of_registered h, Table.get?_insert]
    split <;> simp
  · rw [putProcess_of_former h, Table.get?_insert]
    split
    · next hid =>
      have hnone : r.processes.get? id = none := by simpa [Table.contains, hid] using h
      rw [hnone, Option.none_or]
    · rfl

/-- Putting a process back registers none, and takes none out of the registry. -/
theorem contains_putProcess (r : Processor) (p : Process) (e : Engine) (id : ProcessId) :
    (r.putProcess p e).processes.contains id = r.processes.contains id := by
  by_cases h : r.processes.contains p.id = true
  · rw [putProcess_of_registered h, Table.contains, Table.get?_insert]
    split
    · next hid => rw [← hid, h, Option.isSome_some]
    · rfl
  · rw [putProcess_of_former h]

theorem process_eq_ok {r : Processor} {id : ProcessId} {p : Process} :
    r.process id = .ok p ↔ r.processes.get? id = some p := by
  unfold process
  cases r.processes.get? id <;> simp

theorem remove_eq_ok {r r' : Processor} {id : ProcessId} (h : r.remove id = .ok r') :
    ∃ p, r.processes.get? id = some p ∧ r' = { r with
      processes := r.processes.erase id
      formerProcesses := r.formerProcesses.insert id p } := by
  obtain ⟨p, hp, h⟩ := bind_eq_ok.1 h
  cases h
  exact ⟨p, process_eq_ok.1 hp, rfl⟩

theorem deregisterProcess_eq (r : Processor) (id : ProcessId) :
    r.deregisterProcess id = (r.remove id).map fun r => r.letGo id := by
  unfold deregisterProcess remove
  cases r.process id with
  | error err => rfl
  | ok p => simp [letGo, Except.map, Table.insert_insert]

/-- What can be asked of a processor that has nothing to do with its processes, and the two ends of stopping it. -/
inductive Call where
  | start
  | halt
  | emit (event : ProcessorEvent)
  | registerClient (user : UserPrincipal)
  | deregisterClient (id : ClientId)
  | attachClient (id : ClientId) (p : ProcessId)
  | detachClient (id : ClientId)
  | heartbeat (id : ClientId)
  | removeStaleClients (maxAge : Duration)
  | subscribe
  | unsubscribe (number : Nat)
  | receive (number : Nat)

/-- A call that is refused changes nothing. -/
def Call.apply (call : Call) (r : Processor) : Processor :=
  match call with
  | .start => r.start
  | .halt => { r with running := false }
  | .emit event => r.emit event
  | .registerClient user => (r.registerClient user).2
  | .deregisterClient id => (r.deregisterClient id).toOption.getD r
  | .attachClient id p => (r.attachClient id p).toOption.getD r
  | .detachClient id => (r.detachClient id).toOption.getD r
  | .heartbeat id => (r.heartbeat id).toOption.getD r
  | .removeStaleClients maxAge => (r.removeStaleClients maxAge).2
  | .subscribe => r.subscribe.2
  | .unsubscribe number => r.unsubscribe number
  | .receive number => (r.receive number).2

/-! ## Moves -/

/-- A call that runs a cycle, from being woken or asked on. -/
structure RunCall where
  process : ProcessId
  trigger : CycleTrigger
  /-- Whether the loop of the process runs the cycle. -/
  looped : Bool
  /-- The cycle as it was filed. -/
  cycle : Option Cycle := none
  /-- Whether the process had yet to let its cycles go when it retained this one. -/
  inTime : Option Bool := none
  finished : Bool := false

/-- A process whose cycle is over. If its loop has run the cycle, it may have run enough of them. -/
def RunCall.afterCycle (r : RunCall) (p : Process) : Process := if r.looped then p.checkLimit else p

theorem RunCall.afterCycle_keeps (r : RunCall) (p : Process) :
    (r.afterCycle p).id = p.id ∧ (r.afterCycle p).retained = p.retained := by
  unfold afterCycle
  split
  · exact p.checkLimit_keeps
  · exact ⟨rfl, rfl⟩

structure Session where
  processor : Processor
  /-- The processes that have left the registry and have yet to let their cycles go. -/
  leaving : List ProcessId := []
  /-- The processes that were deregistered, in turn. -/
  deregistered : List ProcessId := []
  /-- The calls that run cycles, whether they are over or not. -/
  runs : List RunCall := []

/-- What can come next. Calls that run cycles are taken on by their place in the session. -/
inductive Move where
  | call (call : Call)
  | register (definition : ViewDefinition) (source : SnapshotSource) (options : ProcessOptions)
  | trigger (id : ProcessId)
  | remove (id : ProcessId)
  | letGo (id : ProcessId)
  /-- Someone who holds a process calls it, whether it is registered or not. -/
  | hold (id : ProcessId) (call : Process.Call)
  | release (id : ProcessId)
  | wake (id : ProcessId) (w : Process.Wakeup)
  | run (id : ProcessId) (trigger : CycleTrigger)
  | file (k : Nat)
  | keep (k : Nat)
  /-- A cycle is taken to its end. The points at which it is stopped are part of the move. -/
  | finish (k : Nat) (stops : Stops)
  /-- Others compile, publish values and draw identifiers, and time passes. -/
  | elsewhere (compiler : GraphCompiler) (feeds : List LiveData) (interleaving : Interleaving) (drawn : Nat)
    (now : Instant)

namespace Session

section
variable (s : Session)

/-- A process that somebody holds, registered or not. -/
def held (id : ProcessId) : Option Process := s.processor.heldProcess? id

/-- Puts a process that somebody holds back. -/
def put (p : Process) (e : Engine) : Session := { s with processor := s.processor.putProcess p e }

/-- Opens a call that runs a cycle. -/
def opening (r : RunCall) : Session := { s with runs := s.runs ++ [r] }

def register (definition : ViewDefinition) (source : SnapshotSource) (options : ProcessOptions) : Session :=
  match s.processor.registerProcess definition source options with
  | .ok (_, processor) => { s with processor }
  | .error _ => s

def trigger (id : ProcessId) : Session :=
  match s.processor.trigger id with
  | .ok processor => { s with processor }
  | .error _ => s

def remove (id : ProcessId) : Session :=
  match s.processor.remove id with
  | .ok processor => { s with processor, leaving := id :: s.leaving }
  | .error _ => s

def letGo (id : ProcessId) : Session :=
  if id ∈ s.leaving then
    { s with
      processor := s.processor.letGo id
      leaving := s.leaving.filter (· ≠ id)
      deregistered := s.deregistered ++ [id] }
  else s

def hold (id : ProcessId) (call : Process.Call) : Session :=
  match s.held id with
  | none => s
  | some p => s.put (call.apply s.processor.engine p) s.processor.engine

def release (id : ProcessId) : Session :=
  match s.held id with
  | none => s
  | some p => s.put (p.release s.processor.engine).1 (p.release s.processor.engine).2

/-- Whether the loop of a process is running a cycle. -/
def busy (id : ProcessId) : Bool := s.runs.any fun r => r.looped && !r.finished && r.process = id

/-- Wakes the loop of a process that is not running a cycle. -/
def wake (id : ProcessId) (w : Process.Wakeup) : Session :=
  match s.held id with
  | none => s
  | some p =>
    if s.busy id then s
    else if p.cannotRun then s.put { p with loop := .broken } s.processor.engine
    else if p.isReady s.processor.engine w then
      match p.wake s.processor.engine w with
      | (none, p) => s.put p s.processor.engine
      | (some trigger, p) => (s.put p s.processor.engine).opening { process := id, trigger, looped := true }
    else s

def run (id : ProcessId) (trigger : CycleTrigger) : Session :=
  match s.held id with
  | none => s
  | some _ => s.opening { process := id, trigger, looped := false }

def file (k : Nat) : Session :=
  match s.runs[k]? with
  | none => s
  | some r =>
    match r.cycle, s.held r.process with
    | none, some p =>
      let (c, e) := p.newCycle s.processor.engine
      { s with
        processor := { s.processor with engine := e.file c }
        runs := s.runs.set k { r with cycle := some c } }
    | _, _ => s

def keep (k : Nat) : Session :=
  match s.runs[k]? with
  | none => s
  | some r =>
    match r.cycle, r.inTime, s.held r.process with
    | some c, none, some p =>
      let (p, e) := p.keep s.processor.engine c.id
      { s.put p e with
        runs := s.runs.set k { r with inTime := some (r.process ∉ s.deregistered) } }
    | _, _, _ => s

def finish (k : Nat) (stops : Stops) : Session :=
  match s.runs[k]? with
  | none => s
  | some r =>
    match r.cycle, r.inTime, r.finished, s.held r.process with
    | some c, some _, false, some p =>
      let done := p.finish s.processor.engine stops r.trigger c
      { s.put (r.afterCycle done.process) done.engine with
        runs := s.runs.set k { r with finished := true } }
    | _, _, _, _ => s

def elsewhere (compiler : GraphCompiler) (feeds : List LiveData) (interleaving : Interleaving) (drawn : Nat)
    (now : Instant) : Session :=
  { s with
    processor := { s.processor with
      engine := { s.processor.engine with
        compiler, feeds, interleaving, now, serial := s.processor.engine.serial + drawn } } }

/-- The session after a move. -/
def step : Move → Session
  | .call call => { s with processor := call.apply s.processor }
  | .register definition source options => s.register definition source options
  | .trigger id => s.trigger id
  | .remove id => s.remove id
  | .letGo id => s.letGo id
  | .hold id call => s.hold id call
  | .release id => s.release id
  | .wake id w => s.wake id w
  | .run id trigger => s.run id trigger
  | .file k => s.file k
  | .keep k => s.keep k
  | .finish k stops => s.finish k stops
  | .elsewhere compiler feeds interleaving drawn now => s.elsewhere compiler feeds interleaving drawn now

/-- The session after some moves. -/
def after (moves : List Move) : Session := moves.foldl step s

end

theorem after_append (s : Session) (moves more : List Move) : s.after (moves ++ more) = (s.after moves).after more :=
  List.foldl_append

theorem getElem?_opening (s : Session) (r : RunCall) : (s.opening r).runs[s.runs.length]? = some r :=
  List.getElem?_concat_length

/-! ## The steps of a cycle -/

section
variable {s : Session} {k : Nat} {r : RunCall} {p : Process}

theorem step_file (hk : s.runs[k]? = some r) (hcycle : r.cycle = none) (hp : s.held r.process = some p) :
    s.step (.file k) = { s with
      processor := { s.processor with
        engine := (p.newCycle s.processor.engine).2.file (p.newCycle s.processor.engine).1 }
      runs := s.runs.set k { r with cycle := some (p.newCycle s.processor.engine).1 } } := by
  simp only [step, file, hk, hcycle, hp]

theorem step_keep {c : Cycle} (hk : s.runs[k]? = some r) (hcycle : r.cycle = some c) (hnone : r.inTime = none)
    (hp : s.held r.process = some p) :
    s.step (.keep k) = { s.put (p.keep s.processor.engine c.id).1 (p.keep s.processor.engine c.id).2 with
      runs := s.runs.set k { r with inTime := some (r.process ∉ s.deregistered) } } := by
  simp only [step, keep, hk, hcycle, hnone, hp]

theorem step_finish {c : Cycle} {inTime : Bool} (hk : s.runs[k]? = some r) (hcycle : r.cycle = some c)
    (hinTime : r.inTime = some inTime) (hunfinished : r.finished = false) (hp : s.held r.process = some p)
    (stops : Stops) :
    s.step (.finish k stops) =
      let done := p.finish s.processor.engine stops r.trigger c
      { s.put (r.afterCycle done.process) done.engine with
        runs := s.runs.set k { r with finished := true } } := by
  simp only [step, finish, hk, hcycle, hinTime, hunfinished, hp]

end

/-! ## Operations at once -/

section
variable {s : Session} {id : ProcessId} {p : Process}

/-- A call that runs a cycle runs it, if nothing comes in between. -/
theorem phases_eq {k : Nat} {r : RunCall} (hk : s.runs[k]? = some r) (hcycle : r.cycle = none)
    (hnone : r.inTime = none) (hunfinished : r.finished = false) (hp : s.held r.process = some p)
    (hid : p.id = r.process) (stops : Stops) :
    (s.after [.file k, .keep k, .finish k stops]).processor =
      let done := p.runCycle s.processor.engine stops r.trigger
      s.processor.putProcess (r.afterCycle done.process) done.engine := by
  have hlt : k < s.runs.length := (List.getElem?_eq_some_iff.1 hk).1
  rw [p.runCycle_eq_finish]
  simp only [after, List.foldl_cons, List.foldl_nil, step_file hk hcycle hp]
  rcases p.newCycle s.processor.engine with ⟨c, e⟩
  generalize hfiled : ({ s with
    processor := { s.processor with engine := e.file c }
    runs := s.runs.set k { r with cycle := some c } } : Session) = filed
  have hk' : filed.runs[k]? = some { r with cycle := some c } := by
    rw [← hfiled]
    exact List.getElem?_set_self hlt
  have hp' : filed.held r.process = some p := by
    rw [← hfiled]
    exact hp
  rw [step_keep hk' rfl hnone hp']
  have hengine : filed.processor.engine = e.file c := by rw [← hfiled]
  rw [hengine]
  rcases hkeep : p.keep (e.file c) c.id with ⟨p', e'⟩
  have hid' : p'.id = p.id := congrArg (fun kept : Process × Engine => kept.1.id) hkeep.symm
  generalize hkept : ({ filed.put p' e' with
    runs := filed.runs.set k { r with cycle := some c, inTime := some (r.process ∉ filed.deregistered) } } : Session) =
    kept
  have hk'' : kept.runs[k]? = some { r with cycle := some c, inTime := some (r.process ∉ filed.deregistered) } := by
    rw [← hkept]
    exact List.getElem?_set_self (List.getElem?_eq_some_iff.1 hk').1
  have hprocessor : kept.processor = s.processor.putProcess p' e' := by
    rw [← hkept, ← hfiled]
    rfl
  have hp'' : kept.held r.process = some p' := by
    rw [held, hprocessor, heldProcess?_putProcess, if_pos (hid'.trans hid)]
  rw [step_finish hk'' rfl rfl hunfinished hp'']
  simp only [put, hprocessor, engine_putProcess]
  exact putProcess_putProcess _ ((RunCall.afterCycle_keeps ..).1.trans (Process.finish_keeps ..).1) ..

/-- Whoever holds a process can run a cycle of it. -/
theorem run_eq_after (hp : s.held id = some p) (hid : p.id = id) (trigger : CycleTrigger) (stops : Stops) :
    (s.after [.run id trigger, .file s.runs.length, .keep s.runs.length, .finish s.runs.length stops]).processor =
      let done := p.runCycle s.processor.engine stops trigger
      s.processor.putProcess done.process done.engine := by
  have hrun : s.step (.run id trigger) = s.opening { process := id, trigger, looped := false } := by
    simp only [step, run, hp]
  rw [after, List.foldl_cons, hrun]
  exact phases_eq (s.getElem?_opening { process := id, trigger, looped := false }) rfl rfl rfl hp hid stops

/-- A turn of a loop is to wake it, and to run a cycle if that is what it is woken for. -/
theorem turn_eq_after {w : Process.Wakeup} (hp : s.held id = some p) (hid : p.id = id) (hidle : s.busy id = false)
    (hruns : p.cannotRun = false) (hready : p.isReady s.processor.engine w = true) (stops : Stops) :
    (s.after [.wake id w, .file s.runs.length, .keep s.runs.length, .finish s.runs.length stops]).processor =
      let done := p.turn s.processor.engine stops w
      s.processor.putProcess done.1 done.2.1 := by
  have hwoken : (p.wake s.processor.engine w).2.id = id := (p.wake_keeps ..).1.trans hid
  have hwake : s.step (.wake id w) = match p.wake s.processor.engine w with
      | (none, p) => s.put p s.processor.engine
      | (some trigger, p) => (s.put p s.processor.engine).opening { process := id, trigger, looped := true } := by
    simp [step, wake, hp, hidle, hruns, hready]
  rw [after, List.foldl_cons, hwake, Process.turn]
  generalize p.wake s.processor.engine w = woken at hwoken
  obtain ⟨_ | trigger, p'⟩ := woken
  · -- The loop ends, and there is no cycle to run.
    simp [put, step, file, keep, finish]
  · have hheld : (s.put p' s.processor.engine).held id = some p' := by
      rw [held, put, heldProcess?_putProcess, if_pos hwoken]
    have hopened := (s.put p' s.processor.engine).getElem?_opening { process := id, trigger, looped := true }
    refine (phases_eq hopened rfl rfl rfl hheld hwoken stops).trans ?_
    simp only [opening, put, engine_putProcess]
    exact putProcess_putProcess _ ((Process.checkLimit_keeps _).1.trans (Process.runCycle_id ..)) ..

theorem deregister_eq_after {r : Processor} (h : s.processor.deregisterProcess id = .ok r) :
    s.after [.remove id, .letGo id] = { s with
      processor := r
      leaving := s.leaving.filter (· ≠ id)
      deregistered := s.deregistered ++ [id] } := by
  rw [deregisterProcess_eq] at h
  cases hremove : s.processor.remove id with
  | error err =>
    rw [hremove] at h
    cases h
  | ok r' =>
    rw [hremove] at h
    cases h
    simp [after, step, remove, letGo, hremove]

theorem deregister_refused {err : EngineError} (h : s.processor.deregisterProcess id = .error err)
    (hstays : id ∉ s.leaving) : s.after [.remove id, .letGo id] = s := by
  rw [deregisterProcess_eq] at h
  cases hremove : s.processor.remove id with
  | error err' => simp [after, step, remove, letGo, hremove, hstays]
  | ok r =>
    rw [hremove] at h
    cases h

theorem deregisterAll_eq_after (ids : List ProcessId) (hstay : ∀ id ∈ ids, id ∉ s.leaving) :
    (s.after (ids.flatMap fun id => [.remove id, .letGo id])).processor =
      ids.foldl (fun r id => (r.deregisterProcess id).toOption.getD r) s.processor := by
  induction ids generalizing s with
  | nil => rfl
  | cons id ids ih =>
    rw [List.flatMap_cons, after_append, List.foldl_cons]
    obtain ⟨hid, hids⟩ := List.forall_mem_cons.1 hstay
    cases h : s.processor.deregisterProcess id with
    | error err =>
      rw [deregister_refused h hid]
      exact ih hids
    | ok r =>
      rw [deregister_eq_after h]
      exact ih fun id' hid' hmem => hids id' hid' (List.mem_of_mem_filter hmem)

/-- Stopping is to accept no more processes, to deregister those that there are, and to say so. -/
theorem stop_eq_after (hrunning : s.processor.running = true)
    (hstay : ∀ id ∈ s.processor.processes.keys, id ∉ s.leaving) :
    (s.after (.call .halt :: (s.processor.processes.keys.flatMap fun id => [.remove id, .letGo id]) ++
      [.call (.emit .stopped)])).processor = s.processor.stop := by
  have hall := deregisterAll_eq_after
    (s := { s with processor := { s.processor with running := false } }) s.processor.processes.keys hstay
  rw [List.cons_append, after, List.foldl_cons, ← after, after_append]
  simp only [Processor.stop, hrunning]
  exact congrArg (fun r : Processor => r.emit .stopped) hall

end

end Session
end Processor
end Valuation
