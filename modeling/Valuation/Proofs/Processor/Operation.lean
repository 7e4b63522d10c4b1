import Valuation.Proofs.Processor.Registry
import Valuation.Proofs.Specification

/-!
# Operations of a processor

An `Operation` is a call of a processor, or what one of its processes does on its own between two calls. What goes
through all processes or clients may do so in any order. Whatever operations there have been, the registry is `Sound`:
clients observe registered processes only, and a processor that does not run has no processes (`Sound.after`).
-/
namespace Valuation

/-! ## The order of identifiers -/

section
open Std

theorem compare_processId : (compare : ProcessId → ProcessId → Ordering) = compareOn ProcessId.text :=
  funext fun _ => funext fun _ => Ordering.then_eq

instance : TransOrd ProcessId := transOrd_of_eq compare_processId

instance : LawfulEqOrd ProcessId :=
  lawfulEqOrd_of_eq compare_processId fun h => congrArg ProcessId.mk (LawfulEqCmp.eq_of_compare h)

theorem compare_clientId : (compare : ClientId → ClientId → Ordering) = compareOn ClientId.text :=
  funext fun _ => funext fun _ => Ordering.then_eq

instance : TransOrd ClientId := transOrd_of_eq compare_clientId

instance : LawfulEqOrd ClientId :=
  lawfulEqOrd_of_eq compare_clientId fun h => congrArg ClientId.mk (LawfulEqCmp.eq_of_compare h)

end

/-! ## Operations -/

/-- An order in which to go through what is listed. -/
structure Arrangement (α : Type) where
  arrange : List α → List α
  perm : ∀ xs, (arrange xs).Perm xs

def Arrangement.asListed {α : Type} : Arrangement α := ⟨id, List.Perm.refl⟩

namespace Processor

section
variable (r : Processor)

def deregisterAll (ids : List ProcessId) : Processor :=
  ids.foldl (fun r id => (r.deregisterProcess id).toOption.getD r) r

/-- Stops a processor. Its processes are removed in any order. -/
def stopIn (order : Arrangement ProcessId) : Processor :=
  if !r.running then r
  else
    let r := { r with running := false }
    (r.deregisterAll (order.arrange r.processes.keys)).emit .stopped

theorem stopIn_asListed : r.stopIn .asListed = r.stop := rfl

def deregisterClients (ids : List ClientId) : Processor :=
  ids.foldl (fun r id => (r.deregisterClient id).toOption.getD r) r

/-- Removes the clients without a heartbeat for longer than an age, in any order. -/
def removeStaleClientsIn (maxAge : Duration) (order : Arrangement ClientId) : Processor :=
  r.deregisterClients (order.arrange (r.staleClients maxAge))

theorem removeStaleClientsIn_asListed (maxAge : Duration) :
    r.removeStaleClientsIn maxAge .asListed = (r.removeStaleClients maxAge).2 :=
  rfl

end

/-- What can be done to a processor. -/
inductive Operation where
  | start
  | stop (order : Arrangement ProcessId)
  | registerProcess (definition : ViewDefinition) (source : SnapshotSource) (options : ProcessOptions)
    (hosted : Bool)
  | deregisterProcess (id : ProcessId)
  | trigger (id : ProcessId)
  | registerClient (user : UserPrincipal)
  | deregisterClient (id : ClientId)
  | removeStaleClients (maxAge : Duration) (order : Arrangement ClientId)
  | attachClient (id : ClientId) (p : ProcessId)
  | detachClient (id : ClientId)
  | heartbeat (id : ClientId)
  /-- Something is looked up, such as a process, a client or a result. -/
  | lookUp (question : Processor → Except EngineError Unit)
  | subscribe
  | unsubscribe (number : Nat)
  | receive (number : Nat)
  /-- A process that somebody holds goes on by itself, and the engine with it. -/
  | work (p : Process) (e : Engine)

/-- What an operation makes of a processor, or why it is refused. -/
def Operation.apply (r : Processor) : Operation → Except EngineError Processor
  | .start => .ok r.start
  | .stop order => .ok (r.stopIn order)
  | .registerProcess definition source options hosted =>
    (r.registerProcess definition source options hosted).map (·.2)
  | .deregisterProcess id => r.deregisterProcess id
  | .trigger id => r.trigger id
  | .registerClient user => .ok (r.registerClient user).2
  | .deregisterClient id => r.deregisterClient id
  | .removeStaleClients maxAge order => .ok (r.removeStaleClientsIn maxAge order)
  | .attachClient id p => r.attachClient id p
  | .detachClient id => r.detachClient id
  | .heartbeat id => r.heartbeat id
  | .lookUp question => (question r).map fun _ => r
  | .subscribe => .ok r.subscribe.2
  | .unsubscribe number => .ok (r.unsubscribe number)
  | .receive number => .ok (r.receive number).2
  | .work p e => .ok (r.putProcess p e)

/-- The processor after an operation, which may have been refused. -/
def step (r : Processor) (op : Operation) : Processor := (op.apply r).toOption.getD r

/-- The processor after some operations. -/
def after (r : Processor) (ops : List Operation) : Processor := ops.foldl step r

theorem step_eq_of_ok {r r' : Processor} (op : Operation) (h : op.apply r = .ok r') : r.step op = r' := by
  rw [step, h]
  rfl

theorem step_eq_of_error {r : Processor} (op : Operation) {err : EngineError} (h : op.apply r = .error err) :
    r.step op = r := by
  rw [step, h]
  rfl

/-! ## What single calls come to -/

section
variable {r : Processor}

theorem registerProcess_of_running (d : ViewDefinition) (source : SnapshotSource) (options : ProcessOptions)
    (hrunning : r.running = true) : ∃ p, r.registerProcess d source options true =
      .ok (ProcessId.generate r.engine.serial, { r with
        engine := { r.engine with serial := r.engine.serial + 1 }
        processes := r.processes.insert (ProcessId.generate r.engine.serial) p }.emit
          (.processAdded (ProcessId.generate r.engine.serial))) := by
  unfold registerProcess
  rw [hrunning]
  exact ⟨_, rfl⟩

theorem registerProcess_refused (d : ViewDefinition) (source : SnapshotSource) (options : ProcessOptions)
    {hosted : Bool} (h : (r.running && hosted) = false) :
    ∃ err, r.registerProcess d source options hosted = .error err := by
  unfold registerProcess
  cases hrunning : r.running with
  | false => exact ⟨_, rfl⟩
  | true =>
    rw [hrunning, Bool.true_and] at h
    subst h
    exact ⟨_, rfl⟩

theorem deregisterProcess_of_registered {id : ProcessId} {p : Process} (hp : r.processes.get? id = some p) :
    r.deregisterProcess id = .ok ({ r with
      engine := (p.stop.release r.engine).2
      processes := r.processes.erase id
      formerProcesses := r.formerProcesses.insert id (p.stop.release r.engine).1
      clients := detachAll id r.clients }.emit (.processRemoved id)) := by
  rw [deregisterProcess, process_eq_ok.2 hp]
  rfl

theorem process_eq_error {id : ProcessId} (h : r.processes.get? id = none) :
    r.process id = .error (.processNotFound id) := by
  rw [process, h]

theorem deregisterProcess_of_unknown {id : ProcessId} (h : r.processes.get? id = none) :
    r.deregisterProcess id = .error (.processNotFound id) := by
  rw [deregisterProcess, process_eq_error h]
  rfl

theorem client_eq_ok {id : ClientId} {c : Client} (h : r.clients.get? id = some c) : r.client id = .ok c := by
  rw [client, h]

theorem client_eq_error {id : ClientId} (h : r.clients.get? id = none) :
    r.client id = .error (.clientNotFound id) := by
  rw [client, h]

theorem deregisterClient_of_registered {id : ClientId} {c : Client} (hc : r.clients.get? id = some c) :
    r.deregisterClient id = .ok ({ r with
      clients := r.clients.erase id
      formerClients := r.formerClients.insert id c }.emit (.clientRemoved id)) := by
  rw [deregisterClient, client_eq_ok hc]
  rfl

theorem deregisterClient_of_unknown {id : ClientId} (h : r.clients.get? id = none) :
    r.deregisterClient id = .error (.clientNotFound id) := by
  rw [deregisterClient, client_eq_error h]
  rfl

theorem updateClient_eq_ok {id : ClientId} {f : Client → Client} {r' : Processor} (h : r.updateClient id f = .ok r') :
    ∃ c, r.clients.get? id = some c ∧ r' = { r with clients := r.clients.insert id (f c) } := by
  unfold updateClient client at h
  cases hc : r.clients.get? id with
  | none =>
    rw [hc] at h
    cases h
  | some c =>
    rw [hc] at h
    cases h
    exact ⟨c, rfl, rfl⟩

theorem attachClient_eq_ok {id : ClientId} {p : ProcessId} {r' : Processor} (h : r.attachClient id p = .ok r') :
    r.processes.contains p = true ∧ ∃ c, r.clients.get? id = some c ∧
      r' = { r with clients := r.clients.insert id { c with attached := some p } } := by
  obtain ⟨-, -, h⟩ := bind_eq_ok.1 h
  obtain ⟨q, hq, h⟩ := bind_eq_ok.1 h
  refine ⟨?_, updateClient_eq_ok h⟩
  rw [Table.contains, process_eq_ok.1 hq]
  rfl

theorem trigger_eq_ok {id : ProcessId} {r' : Processor} (h : r.trigger id = .ok r') :
    r.processes.contains id = true ∧ ∃ p, r' = { r with processes := r.processes.insert id p } := by
  obtain ⟨p, hp, h⟩ := bind_eq_ok.1 h
  obtain ⟨p', -, h⟩ := bind_eq_ok.1 h
  cases h
  refine ⟨?_, p', rfl⟩
  rw [Table.contains, process_eq_ok.1 hp]
  rfl

end

/-! ## Events -/

/-- Subscriptions once an event was sent to them. -/
def sent (subscriptions : List Subscription) (event : ProcessorEvent) : List Subscription :=
  (subscriptions.filter fun s => !s.closed).map fun s => { s with pending := s.pending ++ [event] }

/-- Just these events are sent to the subscriptions. -/
structure Emits (r : Processor) (events : List ProcessorEvent) (r' : Processor) : Prop where
  subscriptions : r'.subscriptions = events.foldl sent r.subscriptions
  opened : r'.opened = r.opened

theorem Emits.trans {r r' r'' : Processor} {events events' : List ProcessorEvent} (h : Emits r events r')
    (h' : Emits r' events' r'') : Emits r (events ++ events') r'' where
  subscriptions := by rw [h'.subscriptions, h.subscriptions, List.foldl_append]
  opened := h'.opened.trans h.opened

/-! ## Removing one after the other -/

theorem filter_notMem_append {α : Type} [DecidableEq α] (xs gone gone' : List α) :
    (xs.filter (· ∉ gone)).filter (· ∉ gone') = xs.filter (· ∉ gone ++ gone') := by
  simp [List.filter_filter, Bool.and_comm]

/-- What one removal comes to is put together for all of them, as each leaves the others registered. -/
theorem foldl_removes {ι : Type} {R : Processor → List ι → Processor → Prop} {registered : Processor → ι → Prop}
    {f : Processor → ι → Processor} (hnil : ∀ r, R r [] r)
    (hcons : ∀ r id ids r', registered r id → R (f r id) ids r' → R r (id :: ids) r')
    (hothers : ∀ r id id', registered r id → registered r id' → id' ≠ id → registered (f r id) id')
    {ids : List ι} (hnodup : ids.Nodup) {r : Processor} (hregistered : ∀ id ∈ ids, registered r id) :
    R r ids (ids.foldl f r) := by
  induction ids generalizing r with
  | nil => exact hnil r
  | cons id ids ih =>
    obtain ⟨hid, hnodup⟩ := List.nodup_cons.1 hnodup
    rw [List.forall_mem_cons] at hregistered
    refine hcons r id ids _ hregistered.1 (ih hnodup fun id' hid' => ?_)
    exact hothers r id id' hregistered.1 (hregistered.2 id' hid') fun heq => hid (heq ▸ hid')

/-! ## Removing processes -/

/-- A client once processes have left: it is detached if it has observed one of them. -/
def leave (ids : List ProcessId) (c : Client) : Client :=
  if c.attached.any (· ∈ ids) then { c with attached := none } else c

/-- Processes have left the registry, and just their clients are detached. -/
structure Removes (r : Processor) (ids : List ProcessId) (r' : Processor) : Prop
    extends Emits r (ids.map .processRemoved) r' where
  running : r'.running = r.running
  keys : r'.processes.keys = r.processes.keys.filter (· ∉ ids)
  clients : r'.clients.keys = r.clients.keys
  client : ∀ id, r'.clients.get? id = (r.clients.get? id).map (leave ids)

section
variable {r r' r'' : Processor}

theorem leave_append (ids ids' : List ProcessId) (c : Client) : leave ids' (leave ids c) = leave (ids ++ ids') c := by
  unfold leave
  cases hattached : c.attached with
  | none => simp [hattached]
  | some p =>
    by_cases hp : p ∈ ids
    · simp [hp]
    · simp [hp, hattached]

theorem leave_singleton (id : ProcessId) (c : Client) :
    leave [id] c = if c.attached = some id then { c with attached := none } else c := by
  unfold leave
  cases c.attached <;> simp

theorem keys_detachAll (id : ProcessId) (clients : Table ClientId Client) :
    (detachAll id clients).keys = clients.keys :=
  List.map_map

theorem get?_detachAll (id : ProcessId) (clients : Table ClientId Client) (c : ClientId) :
    (detachAll id clients).get? c = (clients.get? c).map (leave [id]) := by
  unfold detachAll
  simp only [← leave_singleton]
  exact Table.get?_map ..

theorem Removes.trans {ids ids' : List ProcessId} (h : Removes r ids r') (h' : Removes r' ids' r'') :
    Removes r (ids ++ ids') r'' where
  toEmits := List.map_append ▸ h.toEmits.trans h'.toEmits
  running := h'.running.trans h.running
  keys := by
    rw [h'.keys, h.keys, filter_notMem_append]
  clients := h'.clients.trans h.clients
  client id := by
    rw [h'.client, h.client, Option.map_map]
    exact congrArg (Option.map · (r.clients.get? id)) (funext fun c => leave_append ids ids' c)

theorem removes_nil (r : Processor) : Removes r [] r where
  subscriptions := rfl
  opened := rfl
  running := rfl
  keys := by simp
  clients := rfl
  client id := by
    have hstays : leave [] = fun c => c := funext fun c => by simp [leave]
    rw [hstays, Option.map_id']

theorem removes_deregisterProcess {id : ProcessId} (h : r.processes.contains id = true) :
    Removes r [id] (r.step (.deregisterProcess id)) := by
  obtain ⟨p, hp⟩ := Option.isSome_iff_exists.1 h
  rw [step_eq_of_ok (.deregisterProcess id) (deregisterProcess_of_registered hp)]
  refine ⟨⟨rfl, rfl⟩, rfl, ?keys, keys_detachAll id r.clients, get?_detachAll id r.clients⟩
  case keys =>
    refine (Table.keys_erase ..).trans ?_
    simp only [List.mem_singleton, ne_eq]

/-- Registered processes are removed one by one. -/
theorem removes_deregisterAll {ids : List ProcessId} (hnodup : ids.Nodup)
    (hregistered : ∀ id ∈ ids, r.processes.contains id = true) : Removes r ids (r.deregisterAll ids) := by
  refine foldl_removes removes_nil (fun r id ids r' hid => (removes_deregisterProcess hid).trans) ?_ hnodup hregistered
  intro r id id' hid hid' hne
  rw [Table.contains_iff] at hid' ⊢
  rw [(removes_deregisterProcess hid).keys]
  exact List.mem_filter.2 ⟨hid', decide_eq_true (List.mem_singleton.not.2 hne)⟩

end

/-! ## Removing clients -/

/-- Clients have left the registry. -/
structure RemovesClients (r : Processor) (ids : List ClientId) (r' : Processor) : Prop
    extends Emits r (ids.map .clientRemoved) r' where
  running : r'.running = r.running
  processes : r'.processes = r.processes
  keys : r'.clients.keys = r.clients.keys.filter (· ∉ ids)
  client : ∀ id, r'.clients.get? id = if id ∈ ids then none else r.clients.get? id

section
variable {r r' r'' : Processor}

theorem RemovesClients.trans {ids ids' : List ClientId} (h : RemovesClients r ids r')
    (h' : RemovesClients r' ids' r'') : RemovesClients r (ids ++ ids') r'' where
  toEmits := List.map_append ▸ h.toEmits.trans h'.toEmits
  running := h'.running.trans h.running
  processes := h'.processes.trans h.processes
  keys := by
    rw [h'.keys, h.keys, filter_notMem_append]
  client id := by
    rw [h'.client, h.client]
    by_cases hid : id ∈ ids
    · simp [hid]
    · simp [hid]

theorem removesClients_nil (r : Processor) : RemovesClients r [] r where
  subscriptions := rfl
  opened := rfl
  running := rfl
  processes := rfl
  keys := by simp
  client id := rfl

theorem removesClients_deregisterClient {id : ClientId} (h : r.clients.contains id = true) :
    RemovesClients r [id] (r.step (.deregisterClient id)) := by
  obtain ⟨c, hc⟩ := Option.isSome_iff_exists.1 h
  rw [step_eq_of_ok (.deregisterClient id) (deregisterClient_of_registered hc)]
  refine ⟨⟨rfl, rfl⟩, rfl, rfl, ?keys, fun id' => ?client⟩
  case keys =>
    refine (Table.keys_erase ..).trans ?_
    simp only [List.mem_singleton, ne_eq]
  case client =>
    refine (Table.get?_erase ..).trans ?_
    simp only [List.mem_singleton, eq_comm]

/-- Registered clients are removed one by one. -/
theorem removesClients_deregisterClients {ids : List ClientId} (hnodup : ids.Nodup)
    (hregistered : ∀ id ∈ ids, r.clients.contains id = true) : RemovesClients r ids (r.deregisterClients ids) := by
  refine foldl_removes removesClients_nil (fun r id ids r' hid => (removesClients_deregisterClient hid).trans) ?_ hnodup
    hregistered
  intro r id id' hid hid' hne
  rw [Table.contains_iff] at hid' ⊢
  rw [(removesClients_deregisterClient hid).keys]
  exact List.mem_filter.2 ⟨hid', decide_eq_true (List.mem_singleton.not.2 hne)⟩

end

/-! ## What holds of every registry -/

/-- The registry lists what it holds, and clients observe registered processes. -/
structure Linked (r : Processor) : Prop where
  processes : r.processes.Sorted
  clients : r.clients.Sorted
  keyed : ∀ id c, r.clients.get? id = some c → c.id = id
  attached : ∀ id c p, r.clients.get? id = some c → c.attached = some p → r.processes.contains p = true

/-- In addition, a processor that does not run has no processes. -/
structure Sound (r : Processor) : Prop extends Linked r where
  stopped : r.running = false → r.processes.keys = []

section
variable {r r' : Processor}

/-- Processes go on, and clients stay as they are. -/
theorem Sound.of_keys (h : r.Sound) (hkeys : r'.processes.keys = r.processes.keys) (hclients : r'.clients = r.clients)
    (hrunning : r'.running = false → r.running = false) : r'.Sound where
  processes := by
    rw [Table.Sorted, hkeys]
    exact h.processes
  clients := hclients ▸ h.clients
  keyed := hclients ▸ h.keyed
  attached id c p hc hp := by
    rw [Table.contains_iff, hkeys, ← Table.contains_iff]
    exact h.attached id c p (hclients ▸ hc) hp
  stopped hstopped := hkeys.trans (h.stopped (hrunning hstopped))

theorem Sound.insertProcess (h : r.Sound) {id : ProcessId} {p : Process}
    (hprocesses : r'.processes = r.processes.insert id p) (hclients : r'.clients = r.clients)
    (hrunning : r'.running = true) : r'.Sound where
  processes := hprocesses ▸ h.processes.insert id p
  clients := hclients ▸ h.clients
  keyed := hclients ▸ h.keyed
  attached id' c q hc hq := by
    rw [hprocesses, Table.contains, Table.get?_insert]
    split
    · rfl
    · exact h.attached id' c q (hclients ▸ hc) hq
  stopped hstopped := by cases hrunning.symm.trans hstopped

/-- A client is registered, or changes. -/
theorem Sound.insertClient (h : r.Sound) (c : Client)
    (hattached : ∀ p, c.attached = some p → r.processes.contains p = true) (hprocesses : r'.processes = r.processes)
    (hclients : r'.clients = r.clients.insert c.id c) (hrunning : r'.running = r.running) : r'.Sound where
  processes := hprocesses ▸ h.processes
  clients := hclients ▸ h.clients.insert c.id c
  keyed id c' hc' := by
    rw [hclients, Table.get?_insert] at hc'
    split at hc'
    · next hid =>
      cases hc'
      exact hid
    · exact h.keyed id c' hc'
  attached id c' p hc' hp := by
    rw [hprocesses]
    rw [hclients, Table.get?_insert] at hc'
    split at hc'
    · cases hc'
      exact hattached p hp
    · exact h.attached id c' p hc' hp
  stopped hstopped := by
    rw [hprocesses]
    exact h.stopped (hrunning ▸ hstopped)

theorem Removes.linked {ids : List ProcessId} (hremoves : Removes r ids r') (h : r.Linked) : r'.Linked where
  processes := by
    rw [Table.Sorted, hremoves.keys]
    exact List.Pairwise.filter _ h.processes
  clients := by
    rw [Table.Sorted, hremoves.clients]
    exact h.clients
  keyed id c' hc' := by
    rw [hremoves.client] at hc'
    obtain ⟨c, hc, rfl⟩ := Option.map_eq_some_iff.1 hc'
    rw [← h.keyed id c hc, leave]
    split <;> rfl
  attached id c' p hc' hp := by
    rw [hremoves.client] at hc'
    obtain ⟨c, hc, rfl⟩ := Option.map_eq_some_iff.1 hc'
    unfold leave at hp
    split at hp
    · cases hp
    · next hstays =>
      rw [Table.contains_iff, hremoves.keys, List.mem_filter, ← Table.contains_iff]
      refine ⟨h.attached id c p hc hp, decide_eq_true fun hmem => hstays ?_⟩
      rw [hp]
      exact decide_eq_true hmem

theorem RemovesClients.sound {ids : List ClientId} (hremoves : RemovesClients r ids r') (h : r.Sound) : r'.Sound where
  processes := hremoves.processes ▸ h.processes
  clients := by
    rw [Table.Sorted, hremoves.keys]
    exact List.Pairwise.filter _ h.clients
  keyed id c hc := by
    rw [hremoves.client] at hc
    split at hc
    · cases hc
    · exact h.keyed id c hc
  attached id c p hc hp := by
    rw [hremoves.client] at hc
    split at hc
    · cases hc
    · exact hremoves.processes ▸ h.attached id c p hc hp
  stopped hstopped := by
    rw [hremoves.processes]
    exact h.stopped (hremoves.running ▸ hstopped)

/-! ## What operations come to -/

theorem deregisterProcess_eq_ok {id : ProcessId} (h : r.deregisterProcess id = .ok r') :
    r.processes.contains id = true ∧ Removes r [id] r' := by
  have hregistered : r.processes.contains id = true := by
    cases hp : r.processes.get? id with
    | none => cases (deregisterProcess_of_unknown hp).symm.trans h
    | some p => exact Option.isSome_iff_exists.2 ⟨p, hp⟩
  exact ⟨hregistered, step_eq_of_ok (.deregisterProcess id) h ▸ removes_deregisterProcess hregistered⟩

theorem deregisterClient_eq_ok {id : ClientId} (h : r.deregisterClient id = .ok r') :
    r.clients.contains id = true ∧ RemovesClients r [id] r' := by
  have hregistered : r.clients.contains id = true := by
    cases hc : r.clients.get? id with
    | none => cases (deregisterClient_of_unknown hc).symm.trans h
    | some c => exact Option.isSome_iff_exists.2 ⟨c, hc⟩
  exact ⟨hregistered, step_eq_of_ok (.deregisterClient id) h ▸ removesClients_deregisterClient hregistered⟩

theorem registerProcess_map_eq_ok {d : ViewDefinition} {source : SnapshotSource} {options : ProcessOptions}
    {hosted : Bool} (h : (r.registerProcess d source options hosted).map (·.2) = .ok r') :
    r.running = true ∧ hosted = true ∧ ∃ p, r' = { r with
      engine := { r.engine with serial := r.engine.serial + 1 }
      processes := r.processes.insert (ProcessId.generate r.engine.serial) p }.emit
        (.processAdded (ProcessId.generate r.engine.serial)) := by
  cases hhosted : r.running && hosted with
  | false =>
    obtain ⟨err, hrefused⟩ := registerProcess_refused d source options hhosted
    rw [hrefused] at h
    cases h
  | true =>
    obtain ⟨hrunning, rfl⟩ := Bool.and_eq_true_iff.1 hhosted
    obtain ⟨p, hregistered⟩ := registerProcess_of_running d source options hrunning
    rw [hregistered] at h
    cases h
    exact ⟨hrunning, rfl, p, rfl⟩

/-- Stopping removes every process, in whatever order. -/
theorem stopIn_spec (h : r.Linked) (hrunning : r.running = true) (order : Arrangement ProcessId) :
    ∃ r', Removes { r with running := false } (order.arrange r.processes.keys) r' ∧ r'.processes.keys = [] ∧
      r.stopIn order = r'.emit .stopped := by
  have hmem : ∀ id, id ∈ order.arrange r.processes.keys ↔ id ∈ r.processes.keys :=
    fun id => (order.perm _).mem_iff
  have hremoves : Removes { r with running := false } (order.arrange r.processes.keys)
      (Processor.deregisterAll { r with running := false } (order.arrange r.processes.keys)) :=
    removes_deregisterAll ((order.perm _).nodup_iff.2 h.processes.nodup_keys) fun id hid =>
      (Table.contains_iff ..).2 ((hmem id).1 hid)
  refine ⟨_, hremoves, ?_, ?_⟩
  · rw [hremoves.keys, List.filter_eq_nil_iff]
    intro id hid hstays
    exact of_decide_eq_true hstays ((hmem id).2 hid)
  · rw [stopIn, hrunning]
    rfl

theorem stopIn_of_stopped (h : r.running = false) (order : Arrangement ProcessId) : r.stopIn order = r := by
  rw [stopIn, h]
  rfl

theorem Linked.map_id_values (h : r.Linked) : r.clients.values.map (·.id) = r.clients.keys := by
  rw [Table.values, Table.keys, List.map_map]
  refine List.map_congr_left fun e he => h.keyed e.1 e.2 ?_
  exact (Table.mem_toList_iff h.clients).1 he

theorem Linked.sublist_staleClients (h : r.Linked) (maxAge : Duration) :
    (r.staleClients maxAge).Sublist r.clients.keys :=
  h.map_id_values ▸ List.filter_sublist.map _

theorem removesClients_stale (h : r.Linked) (maxAge : Duration) (order : Arrangement ClientId) :
    RemovesClients r (order.arrange (r.staleClients maxAge)) (r.removeStaleClientsIn maxAge order) := by
  have hstale := h.sublist_staleClients maxAge
  have hnodup := (order.perm _).nodup_iff.2 (h.clients.nodup_keys.sublist hstale)
  exact removesClients_deregisterClients hnodup fun id hid =>
    (Table.contains_iff ..).2 (hstale.subset ((order.perm _).mem_iff.1 hid))

theorem keys_putProcess (h : r.processes.Sorted) (p : Process) (e : Engine) :
    (r.putProcess p e).processes.keys = r.processes.keys := by
  by_cases hregistered : r.processes.contains p.id = true
  · rw [putProcess_of_registered hregistered]
    exact Table.keys_insert_of_contains h hregistered p
  · rw [putProcess_of_former hregistered]

theorem putProcess_keeps (p : Process) (e : Engine) : (r.putProcess p e).clients = r.clients ∧
    (r.putProcess p e).running = r.running ∧ Emits r [] (r.putProcess p e) := by
  unfold putProcess
  split <;> exact ⟨rfl, rfl, rfl, rfl⟩

/-! ## What operations keep -/

/-- A client of the registry changes. -/
theorem Sound.updateClient (h : r.Sound) {id : ClientId} {c c' : Client} (hc : r.clients.get? id = some c)
    (hid : c'.id = c.id) (hattached : ∀ p, c'.attached = some p → r.processes.contains p = true) :
    Sound { r with clients := r.clients.insert id c' } :=
  h.insertClient c' hattached rfl (by rw [hid, h.keyed id c hc]) rfl

theorem Sound.step (h : r.Sound) (op : Operation) : (r.step op).Sound := by
  cases happly : op.apply r with
  | error err =>
    rw [step_eq_of_error op happly]
    exact h
  | ok r' =>
  rw [step_eq_of_ok op happly]
  cases op with
  | start =>
    cases happly
    unfold Processor.start
    split
    · exact h
    · exact h.of_keys rfl rfl nofun
  | stop order =>
    cases happly
    cases hrunning : r.running with
    | false =>
      rw [stopIn_of_stopped hrunning]
      exact h
    | true =>
      obtain ⟨r', hremoves, hnone, hstop⟩ := stopIn_spec h.toLinked hrunning order
      -- Between setting the flag and the last removal the registry is linked, but not sound.
      have hlinked : Linked { r with running := false } := ⟨h.processes, h.clients, h.keyed, h.attached⟩
      have hsound : r'.Sound := ⟨hremoves.linked hlinked, fun _ => hnone⟩
      exact hstop ▸ hsound.of_keys rfl rfl id
  | registerProcess d source options hosted =>
    obtain ⟨hrunning, -, p, rfl⟩ := registerProcess_map_eq_ok happly
    exact h.insertProcess rfl rfl hrunning
  | deregisterProcess id =>
    obtain ⟨-, hremoves⟩ := deregisterProcess_eq_ok happly
    refine ⟨hremoves.linked h.toLinked, fun hstopped => ?_⟩
    rw [hremoves.keys, h.stopped (hremoves.running ▸ hstopped), List.filter_nil]
  | trigger id =>
    obtain ⟨hregistered, p, rfl⟩ := trigger_eq_ok happly
    exact h.of_keys (Table.keys_insert_of_contains h.processes hregistered p) rfl fun hstopped => hstopped
  | registerClient user =>
    cases happly
    let c : Client := { id := .generate r.engine.serial, user, heartbeat := r.engine.now }
    exact h.insertClient c (fun _ => nofun) rfl rfl rfl
  | deregisterClient id => exact (deregisterClient_eq_ok happly).2.sound h
  | removeStaleClients maxAge order =>
    cases happly
    exact (removesClients_stale h.toLinked maxAge order).sound h
  | attachClient id p =>
    obtain ⟨hregistered, c, hc, rfl⟩ := attachClient_eq_ok happly
    refine h.updateClient hc rfl fun q hq => ?_
    cases hq
    exact hregistered
  | detachClient id =>
    obtain ⟨c, hc, rfl⟩ := updateClient_eq_ok happly
    exact h.updateClient hc rfl fun _ => nofun
  | heartbeat id =>
    obtain ⟨c, hc, rfl⟩ := updateClient_eq_ok happly
    exact h.updateClient hc rfl fun p => h.attached id c p hc
  | lookUp question =>
    obtain ⟨-, -, rfl⟩ := map_eq_ok.1 happly
    exact h
  | subscribe | unsubscribe | receive =>
    cases happly
    exact h.of_keys rfl rfl fun hstopped => hstopped
  | work p e =>
    cases happly
    obtain ⟨hclients, hrunning, -⟩ := r.putProcess_keeps p e
    exact h.of_keys (keys_putProcess h.processes p e) hclients fun hstopped => hrunning ▸ hstopped

theorem Sound.after (h : r.Sound) (ops : List Operation) : (r.after ops).Sound := by
  induction ops generalizing r with
  | nil => exact h
  | cons op ops ih => exact ih (h.step op)

theorem sound_build {config : EngineConfig} {repository : Option FunctionRepository} {executor : Option Executor}
    {permission : Option PermissionProvider} {entitlements : Option EntitlementSource} {now : Instant}
    (h : Processor.build config repository executor permission entitlements now = .ok r) : r.Sound := by
  obtain ⟨engine, provider, rfl, -⟩ := build_fresh h
  exact ⟨⟨Table.sorted_empty, Table.sorted_empty, fun _ _ => nofun, fun _ _ _ => nofun⟩, fun _ => rfl⟩

end

end Processor
end Valuation
