import Valuation.Config
import Valuation.Permission
import Valuation.Process

/-!
# The view processor

The registry of view processes and of the clients that look at their results. It accepts processes
while it runs. Every change of the registry is an event, which each subscription receives. Whoever
holds a process or a client may keep it when it leaves the registry, so those that have left are kept
as well.
-/
namespace Valuation

/-! ## Events -/

inductive ProcessorEvent where
  | started
  | stopped
  | processAdded (process : ProcessId)
  | processRemoved (process : ProcessId)
  | clientAdded (client : ClientId)
  | clientRemoved (client : ClientId)
deriving DecidableEq, Inhabited

/-- A receiver of events, with those that it has not taken. -/
structure Subscription where
  number : Nat
  pending : List ProcessorEvent := []
  /-- Whether the receiver is gone. -/
  closed : Bool := false
deriving DecidableEq, Inhabited

/-! ## Clients and the processor -/

structure Client where
  id : ClientId
  user : UserPrincipal
  /-- The process that the client observes. -/
  attached : Option ProcessId := none
  heartbeat : Instant
deriving DecidableEq, Inhabited

structure Processor where
  config : EngineConfig
  engine : Engine
  permission : PermissionProvider
  running : Bool := false
  processes : Table ProcessId Process := ∅
  clients : Table ClientId Client := ∅
  formerProcesses : Table ProcessId Process := ∅
  formerClients : Table ClientId Client := ∅
  subscriptions : List Subscription := []
  /-- The number of subscriptions opened so far. -/
  opened : Nat := 0

namespace Processor

/-- Builds a processor that does not run yet. What is not given is chosen as configured; functions have
no default. -/
def build (config : EngineConfig) (repository : Option FunctionRepository) (executor : Option Executor)
    (permission : Option PermissionProvider) (entitlements : Option EntitlementSource) (now : Instant) :
    Except EngineError Processor := do
  match config.validate with
  | .ok () => pure ()
  | .error e => .error (.config e.message)
  let repository ← match repository with
    | some r => .ok r
    | none => .error (.config "function_registry not configured")
  let executor ← match executor with
    | some e => .ok e
    | none => Executor.ofStrategy config.executor
  let permission ← match permission with
    | some p => .ok p
    | none => PermissionProvider.ofPolicy config.permission entitlements
  let engine : Engine := {
    compiler := .ofRepository repository config.graphCacheSize
    executor
    cycleRetention := config.cycleRetention
    noticeCapacity := config.cycleNoticeCapacity
    now }
  return { config, engine, permission }

/-! ## Subscriptions -/

/-- Sends an event to every subscription; those that are closed are dropped. -/
def emit (r : Processor) (event : ProcessorEvent) : Processor :=
  { r with subscriptions := (r.subscriptions.filter fun s => !s.closed).map fun s =>
      { s with pending := s.pending ++ [event] } }

/-- Opens a subscription; answers its number. -/
def subscribe (r : Processor) : Nat × Processor :=
  (r.opened, { r with subscriptions := r.subscriptions ++ [{ number := r.opened }], opened := r.opened + 1 })

/-- Closes a subscription. What it has not taken is lost. -/
def unsubscribe (r : Processor) (number : Nat) : Processor :=
  { r with subscriptions := r.subscriptions.map fun s =>
      if s.number = number then { s with pending := [], closed := true } else s }

/-- Takes the events that a subscription has received. -/
def receive (r : Processor) (number : Nat) : List ProcessorEvent × Processor :=
  ((r.subscriptions.filter fun s => s.number = number).flatMap (·.pending),
    { r with subscriptions := r.subscriptions.map fun s =>
        if s.number = number then { s with pending := [] } else s })

/-! ## Processes -/

def process (r : Processor) (id : ProcessId) : Except EngineError Process :=
  match r.processes.get? id with
  | some p => .ok p
  | none => .error (.processNotFound id)

/-- A process that somebody holds, registered or not. -/
def heldProcess? (r : Processor) (id : ProcessId) : Option Process :=
  match r.processes.get? id with
  | some p => some p
  | none => r.formerProcesses.get? id

/-- Puts a process that somebody holds back, with the engine that it has worked with. -/
def putProcess (r : Processor) (p : Process) (e : Engine) : Processor :=
  if r.processes.contains p.id then { r with processes := r.processes.insert p.id p, engine := e }
  else { r with formerProcesses := r.formerProcesses.insert p.id p, engine := e }

/-- Registers a new process and starts it. Without a host that can run its loop nothing happens. -/
def registerProcess (r : Processor) (definition : ViewDefinition) (source : SnapshotSource)
    (options : ProcessOptions) (hosted : Bool := true) : Except EngineError (ProcessId × Processor) := do
  if !r.running then .error .processorNotRunning
  else
    let id := ProcessId.generate r.engine.serial
    let engine := { r.engine with serial := r.engine.serial + 1 }
    let p ← (Process.new id definition source options engine.noticeCapacity).start engine hosted
    return (id, { r with engine, processes := r.processes.insert id p }.emit (.processAdded id))

/-- Detaches the clients of a process. -/
def detachAll (id : ProcessId) (clients : Table ClientId Client) : Table ClientId Client :=
  ⟨clients.entries.map fun c => (c.1, if c.2.attached = some id then { c.2 with attached := none } else c.2)⟩

/-- Removes a process: it is told to stop, its cycles leave the table, and its clients are detached. -/
def deregisterProcess (r : Processor) (id : ProcessId) : Except EngineError Processor := do
  let p ← r.process id
  let (p, engine) := p.stop.release r.engine
  return { r with
    engine
    processes := r.processes.erase id
    formerProcesses := r.formerProcesses.insert id p
    clients := detachAll id r.clients }.emit (.processRemoved id)

/-- Asks a registered process for a cycle. -/
def trigger (r : Processor) (id : ProcessId) : Except EngineError Processor := do
  let p ← (← r.process id).trigger
  return { r with processes := r.processes.insert id p }

/-! ## Starting and stopping -/

/-- Starts to accept processes, unless that is so already. -/
def start (r : Processor) : Processor :=
  if r.running then r else { r with running := true }.emit .started

/-- Stops and removes every process; clients stay, detached. -/
def stop (r : Processor) : Processor :=
  if !r.running then r
  else
    let r := { r with running := false }
    (r.processes.keys.foldl (fun r id => (r.deregisterProcess id).toOption.getD r) r).emit .stopped

/-! ## Clients -/

def client (r : Processor) (id : ClientId) : Except EngineError Client :=
  match r.clients.get? id with
  | some c => .ok c
  | none => .error (.clientNotFound id)

/-- A client that somebody holds, registered or not. -/
def heldClient? (r : Processor) (id : ClientId) : Option Client :=
  match r.clients.get? id with
  | some c => some c
  | none => r.formerClients.get? id

/-- Changes a registered client. -/
def updateClient (r : Processor) (id : ClientId) (f : Client → Client) : Except EngineError Processor := do
  let c ← r.client id
  return { r with clients := r.clients.insert id (f c) }

def registerClient (r : Processor) (user : UserPrincipal) : ClientId × Processor :=
  let id := ClientId.generate r.engine.serial
  let c : Client := { id, user, heartbeat := r.engine.now }
  (id, { r with
    engine := { r.engine with serial := r.engine.serial + 1 }
    clients := r.clients.insert id c }.emit (.clientAdded id))

def deregisterClient (r : Processor) (id : ClientId) : Except EngineError Processor := do
  let c ← r.client id
  return { r with
    clients := r.clients.erase id
    formerClients := r.formerClients.insert id c }.emit (.clientRemoved id)

/-- Lets a client observe a process, instead of any other. -/
def attachClient (r : Processor) (id : ClientId) (p : ProcessId) : Except EngineError Processor := do
  let _ ← r.client id
  let _ ← r.process p
  r.updateClient id fun c => { c with attached := some p }

def detachClient (r : Processor) (id : ClientId) : Except EngineError Processor :=
  r.updateClient id fun c => { c with attached := none }

def heartbeat (r : Processor) (id : ClientId) : Except EngineError Processor :=
  r.updateClient id fun c => { c with heartbeat := r.engine.now }

/-- The clients without a heartbeat for longer than an age. -/
def staleClients (r : Processor) (maxAge : Duration) : List ClientId :=
  (r.clients.values.filter fun c => maxAge.toNanos < (r.engine.now.since c.heartbeat).toNanos).map (·.id)

/-- Removes the clients without a heartbeat for longer than an age; answers which. -/
def removeStaleClients (r : Processor) (maxAge : Duration) : List ClientId × Processor :=
  let stale := r.staleClients maxAge
  (stale, stale.foldl (fun r id => (r.deregisterClient id).toOption.getD r) r)

/-! ## Results -/

/-- What the user of a client may see of a model, and the targets that were asked about. -/
def visible (r : Processor) (c : Client) (m : ResultModel) : ResultModel × List Target :=
  r.permission.filter c.user m

/-- The result of a cycle, as the user of a client may see it. -/
def clientResult (r : Processor) (id : ClientId) (cycle : CycleId) :
    Except EngineError (Option (ResultModel × List Target)) := do
  let c ← r.client id
  let cycle ← r.engine.cycle cycle
  return cycle.result.map (r.visible c)

/-- The result of the latest cycle of the process that a client observes, as its user may see it. -/
def latestClientResult (r : Processor) (id : ClientId) :
    Except EngineError (Option (ResultModel × List Target)) := do
  let c ← r.client id
  match c.attached with
  | none => return none
  | some p =>
    let p ← r.process p
    return (p.latestCycle? r.engine).bind fun cycle => cycle.result.map (r.visible c)

end Processor
end Valuation
