import Valuation.Proofs.Processor.Operation

/-!
# Attachments

Whatever is done to a processor, its clients observe processes that are registered (`attachments_hold`). Removing a
process detaches just its clients. An operation is made up of `Steps`. It is refused before any of them has changed
anything (`outcome_steps`).
-/
namespace Valuation
namespace Processor

/-! ## Steps -/

/-- Steps that are taken one after the other. What is done stays done if a later step is refused. -/
abbrev Steps := ExceptT EngineError (StateM Processor)

/-- What is refused leaves the processor as it was. -/
def settled (r : Processor) : Except EngineError Processor → Except EngineError Unit × Processor
  | .ok r' => (.ok (), r')
  | .error err => (.error err, r)

theorem settled_bind {α : Type} (r : Processor) (x : Except EngineError α) (f : α → Except EngineError Processor) :
    settled r (x >>= f) =
      match x with
      | .ok a => settled r (f a)
      | .error err => (.error err, r) := by
  cases x <;> rfl

namespace Steps

variable {α β : Type}

/-- What steps come to, and the processor that they leave. -/
def outcome (s : Steps α) (r : Processor) : Except EngineError α × Processor := Id.run (s.run.run r)

/-- A step that changes nothing but may be refused. -/
def look (f : Processor → Except EngineError α) : Steps α := ExceptT.mk fun r => (f r, r)

/-- A step that cannot be refused. -/
def change (f : Processor → Processor) : Steps Unit := modify f

/-- Sets whether the processor runs; answers whether it did. -/
def setRunning (running : Bool) : Steps Bool := do
  let was := (← get).running
  change fun r => { r with running }
  return was

/-- Takes steps for each element. Where they are refused, the next ones are taken. -/
def forEach (f : α → Steps Unit) : List α → Steps Unit
  | [] => return
  | x :: xs => do
    tryCatch (f x) fun _ => return
    forEach f xs

@[simp] theorem outcome_pure (a : α) (r : Processor) : (pure a : Steps α).outcome r = (.ok a, r) := rfl

@[simp] theorem outcome_throw (err : EngineError) (r : Processor) :
    (throw err : Steps α).outcome r = (.error err, r) :=
  rfl

@[simp] theorem outcome_get (r : Processor) : (get : Steps Processor).outcome r = (.ok r, r) := rfl

@[simp] theorem outcome_look (f : Processor → Except EngineError α) (r : Processor) :
    (look f).outcome r = (f r, r) :=
  rfl

@[simp] theorem outcome_change (f : Processor → Processor) (r : Processor) : (change f).outcome r = (.ok (), f r) := rfl

@[simp] theorem outcome_bind (s : Steps α) (f : α → Steps β) (r : Processor) : (s >>= f).outcome r =
    match s.outcome r with
    | (.ok a, r') => (f a).outcome r'
    | (.error err, r') => (.error err, r') := by
  unfold outcome ExceptT.run StateT.run Id.run
  simp only [bind, ExceptT.bind, ExceptT.mk, StateT.bind, ExceptT.bindCont]
  cases s r with
  | mk result r' => cases result <;> rfl

theorem outcome_tryCatch (s : Steps α) (f : EngineError → Steps α) (r : Processor) : (tryCatch s f).outcome r =
    match s.outcome r with
    | (.ok a, r') => (.ok a, r')
    | (.error err, r') => (f err).outcome r' := by
  unfold outcome ExceptT.run StateT.run Id.run
  simp only [tryCatch, tryCatchThe, MonadExceptOf.tryCatch, ExceptT.tryCatch, ExceptT.mk, bind, StateT.bind]
  cases s r with
  | mk result r' => cases result <;> rfl

@[simp] theorem outcome_setRunning (running : Bool) (r : Processor) :
    (setRunning running).outcome r = (.ok r.running, { r with running }) :=
  rfl

/-- Steps that leave the processor as it was where they are refused, one after the other. -/
theorem outcome_forEach {f : α → Steps Unit} {g : Processor → α → Except EngineError Processor}
    (h : ∀ x r, (f x).outcome r = settled r (g r x)) (xs : List α) (r : Processor) :
    (forEach f xs).outcome r = (.ok (), xs.foldl (fun r x => (g r x).toOption.getD r) r) := by
  induction xs generalizing r with
  | nil => rfl
  | cons x xs ih =>
    have hfirst : (tryCatch (f x) fun _ => return : Steps Unit).outcome r = (.ok (), (g r x).toOption.getD r) := by
      rw [outcome_tryCatch, h]
      cases g r x <;> rfl
    rw [forEach, outcome_bind, hfirst]
    exact ih _

end Steps

/-! ## Operations in steps -/

namespace Operation

def deregisterProcessSteps (id : ProcessId) : Steps Unit := do
  let p ← .look (·.process id)
  .change fun r => { r with processes := r.processes.erase id, formerProcesses := r.formerProcesses.insert id p }
  .change fun r =>
    let (p, engine) := p.stop.release r.engine
    { r with engine, formerProcesses := r.formerProcesses.insert id p }
  .change fun r => { r with clients := detachAll id r.clients }
  .change (·.emit (.processRemoved id))

def deregisterClientSteps (id : ClientId) : Steps Unit := do
  let c ← .look (·.client id)
  .change fun r => { r with clients := r.clients.erase id, formerClients := r.formerClients.insert id c }
  .change (·.emit (.clientRemoved id))

/-- An operation, one step after the other. -/
def steps : Operation → Steps Unit
  | .start => do
    if !(← Steps.setRunning true) then Steps.change (·.emit .started)
  | .stop order => do
    if ← Steps.setRunning false then
      Steps.forEach deregisterProcessSteps (order.arrange (← get).processes.keys)
      Steps.change (·.emit .stopped)
  | .registerProcess definition source options hosted => do
    if !(← get).running then throw .processorNotRunning
    let engine := (← get).engine
    let id := ProcessId.generate engine.serial
    let engine := { engine with serial := engine.serial + 1 }
    let p ← Steps.look fun _ => (Process.new id definition source options engine.noticeCapacity).start engine hosted
    Steps.change fun r => { r with engine, processes := r.processes.insert id p }
    Steps.change (·.emit (.processAdded id))
  | .deregisterProcess id => deregisterProcessSteps id
  | .trigger id => do
    let p ← Steps.look (·.process id)
    let p ← Steps.look fun _ => p.trigger
    Steps.change fun r => { r with processes := r.processes.insert id p }
  | .registerClient user => do
    let engine := (← get).engine
    let id := ClientId.generate engine.serial
    Steps.change fun r => { r with
      engine := { engine with serial := engine.serial + 1 }
      clients := r.clients.insert id { id, user, heartbeat := engine.now } }
    Steps.change (·.emit (.clientAdded id))
  | .deregisterClient id => deregisterClientSteps id
  | .removeStaleClients maxAge order => do
    Steps.forEach deregisterClientSteps (order.arrange ((← get).staleClients maxAge))
  | .attachClient id p => do
    let c ← Steps.look (·.client id)
    let _ ← Steps.look (·.process p)
    Steps.change fun r => { r with clients := r.clients.insert id { c with attached := some p } }
  | .detachClient id => do
    let c ← Steps.look (·.client id)
    Steps.change fun r => { r with clients := r.clients.insert id { c with attached := none } }
  | .heartbeat id => do
    let c ← Steps.look (·.client id)
    Steps.change fun r => { r with clients := r.clients.insert id { c with heartbeat := r.engine.now } }
  | .lookUp question => Steps.look question
  | .subscribe => Steps.change fun r => r.subscribe.2
  | .unsubscribe number => Steps.change (·.unsubscribe number)
  | .receive number => Steps.change fun r => (r.receive number).2
  | .work p e => Steps.change (·.putProcess p e)

theorem outcome_deregisterProcessSteps (id : ProcessId) (r : Processor) :
    (deregisterProcessSteps id).outcome r = settled r (r.deregisterProcess id) := by
  cases hp : r.processes.get? id with
  | none => simp [deregisterProcessSteps, process_eq_error hp, deregisterProcess_of_unknown hp, settled]
  | some p =>
    simp [deregisterProcessSteps, process_eq_ok.2 hp, deregisterProcess_of_registered hp, settled, Table.insert_insert]

theorem outcome_deregisterClientSteps (id : ClientId) (r : Processor) :
    (deregisterClientSteps id).outcome r = settled r (r.deregisterClient id) := by
  cases hc : r.clients.get? id with
  | none => simp [deregisterClientSteps, client_eq_error hc, deregisterClient_of_unknown hc, settled]
  | some c => simp [deregisterClientSteps, client_eq_ok hc, deregisterClient_of_registered hc, settled]

end Operation

section
open Operation

theorem running_self {r : Processor} {running : Bool} (h : r.running = running) : { r with running } = r := by
  rw [← h]

/-- Step by step an operation comes to the same, and where it is refused, no step has changed anything. -/
theorem outcome_steps (op : Operation) (r : Processor) : op.steps.outcome r = settled r (op.apply r) := by
  cases op with
  | start =>
    cases hrunning : r.running with
    | false => simp [steps, apply, settled, Processor.start, hrunning]
    | true => simp [steps, apply, settled, Processor.start, hrunning, running_self hrunning]
  | stop order =>
    cases hrunning : r.running with
    | false => simp [steps, apply, settled, stopIn, hrunning, running_self hrunning]
    | true =>
      -- A removal that is refused is passed over, and has changed nothing.
      have hall := Steps.outcome_forEach outcome_deregisterProcessSteps
      simp [steps, apply, settled, stopIn, deregisterAll, hrunning, hall]
  | registerProcess d source options hosted =>
    rw [apply, Processor.registerProcess]
    cases hrunning : r.running with
    | false => simp [steps, settled, hrunning, Except.map]
    | true =>
      cases hosted <;> simp [steps, settled, hrunning, Except.map, Process.start, Process.new]
  | deregisterProcess id => exact outcome_deregisterProcessSteps id r
  | trigger id =>
    simp only [steps, apply, Processor.trigger, Steps.outcome_bind, Steps.outcome_look, settled_bind]
    cases r.process id with
    | error err => rfl
    | ok p =>
      cases hp : p.trigger with
      | error err => simp only [hp]
      | ok p' =>
        simp only [hp]
        rfl
  | registerClient user => rfl
  | deregisterClient id => exact outcome_deregisterClientSteps id r
  | removeStaleClients maxAge order =>
    have hall := Steps.outcome_forEach outcome_deregisterClientSteps
    simp [steps, apply, settled, removeStaleClientsIn, deregisterClients, hall]
  | attachClient id p =>
    simp only [steps, apply, Processor.attachClient, updateClient, Steps.outcome_bind, Steps.outcome_look, settled_bind]
    cases hc : r.client id with
    | error err => rfl
    | ok c =>
      cases hp : r.process p with
      | error err => simp only [hp]
      | ok q =>
        simp only [hp]
        rfl
  | detachClient id =>
    simp only [steps, apply, Processor.detachClient, updateClient, Steps.outcome_bind, Steps.outcome_look, settled_bind]
    cases r.client id <;> rfl
  | heartbeat id =>
    simp only [steps, apply, Processor.heartbeat, updateClient, Steps.outcome_bind, Steps.outcome_look, settled_bind]
    cases r.client id <;> rfl
  | lookUp question =>
    simp only [steps, apply, Steps.outcome_look]
    cases question r <;> rfl
  | subscribe | unsubscribe | receive | work => rfl

end

/-! ## Attachments -/

/-- As a processor stops, all its clients are detached. -/
theorem Sound.get?_stopIn {r : Processor} (h : r.Sound) (order : Arrangement ProcessId) (id : ClientId) :
    (r.stopIn order).clients.get? id = (r.clients.get? id).map fun c => { c with attached := none } := by
  have hdetached : ∀ c : Client, c.attached = none → { c with attached := none } = c := by
    intro c hc
    rw [← hc]
  cases hrunning : r.running with
  | false =>
    rw [stopIn_of_stopped hrunning]
    cases hc : r.clients.get? id with
    | none => rfl
    | some c =>
      rw [Option.map_some, hdetached]
      refine Option.eq_none_iff_forall_ne_some.2 fun p hp => ?_
      have hregistered := (Table.contains_iff ..).1 (h.attached id c p hc hp)
      rw [h.stopped hrunning] at hregistered
      cases hregistered
  | true =>
    obtain ⟨r', hremoves, -, hstop⟩ := stopIn_spec h.toLinked hrunning order
    rw [hstop]
    refine (hremoves.client id).trans (Option.map_congr fun c hc => ?_)
    unfold leave
    split
    · rfl
    · next hstays =>
      refine (hdetached c (Option.eq_none_iff_forall_ne_some.2 fun p hp => hstays ?_)).symm
      have hregistered := (Table.contains_iff ..).1 (h.attached id c p hc hp)
      rw [hp]
      exact decide_eq_true ((order.perm _).mem_iff.2 hregistered)

/-- Whatever is done to a processor, its clients observe registered processes, and if it does not run there are none.
Removing a process detaches just its clients, and stopping detaches all. A processor that does not run registers no
process, and an operation that is refused, whatever its steps, leaves the processor as it was. -/
theorem attachments_hold {config : EngineConfig} {repository : Option FunctionRepository}
    {executor : Option Executor} {permission : Option PermissionProvider} {entitlements : Option EntitlementSource}
    {now : Instant} {r₀ : Processor}
    (hbuild : Processor.build config repository executor permission entitlements now = .ok r₀)
    (ops : List Operation) :
    let r := r₀.after ops
    (∀ id c p, r.clients.get? id = some c → c.attached = some p → p ∈ r.processes.keys) ∧
    (r.running = false → r.processes.keys = []) ∧
    (∀ (q q' : Processor) (p : ProcessId), q.deregisterProcess p = .ok q' → ∀ id, q'.clients.get? id =
      (q.clients.get? id).map fun c => if c.attached = some p then { c with attached := none } else c) ∧
    (∀ order id, (r.stopIn order).clients.get? id = (r.clients.get? id).map fun c => { c with attached := none }) ∧
    (r.running = false → ∀ definition source options hosted,
      r.registerProcess definition source options hosted = .error .processorNotRunning) ∧
    ∀ op : Operation, op.steps.outcome r =
      match op.apply r with
      | .ok r' => (.ok (), r')
      | .error err => (.error err, r) := by
  intro r
  have h : r.Sound := (sound_build hbuild).after ops
  refine ⟨fun id c p hc hp => (Table.contains_iff ..).1 (h.attached id c p hc hp), h.stopped, ?_, h.get?_stopIn, ?_,
    fun op => ?_⟩
  · intro q q' p hremoved id
    rw [(deregisterProcess_eq_ok hremoved).2.client]
    exact congrArg (Option.map · (q.clients.get? id)) (funext (leave_singleton p))
  · intro hstopped definition source options hosted
    rw [Processor.registerProcess, hstopped]
    rfl
  · rw [outcome_steps]
    cases op.apply r <;> rfl

/-- A client observes a process until the processor stops. -/
theorem demo_attachments_hold :
    let ops := [.start, .registerClient default, .registerProcess Demo.singleView .unavailable {} true,
      .attachClient (.generate 0) (.generate 1)]
    ∃ r₀ c, Processor.build {} (some {}) none none none default = .ok r₀ ∧
      (r₀.after ops).clients.get? (.generate 0) = some c ∧ c.attached = some (.generate 1) ∧
      .generate 1 ∈ (r₀.after ops).processes.keys ∧
      ((r₀.after ops).stopIn .asListed).clients.get? (.generate 0) = some { c with attached := none } := by
  intro ops
  obtain ⟨r₀, hbuild, hclient⟩ : ∃ r₀, Processor.build {} (some {}) none none none default = .ok r₀ ∧
      ((r₀.after ops).clients.get? (.generate 0)).map (·.attached) = some (some (.generate 1)) :=
    ⟨_, rfl, by decide +kernel⟩
  obtain ⟨c, hc, hattached⟩ := Option.map_eq_some_iff.1 hclient
  obtain ⟨hregistered, -, -, hstop, -, -⟩ := attachments_hold hbuild ops
  exact ⟨r₀, c, hbuild, hc, hattached, hregistered _ c _ hc hattached, by rw [hstop, hc, Option.map_some]⟩

end Processor
end Valuation
