import Valuation.Proofs.Processor.Operation

/-!
# What subscriptions receive

Every operation has its events (`Operation.events`), and these are what it sends to the subscriptions, whatever other
subscriptions there are (`emits_step`). Who notes the events in a listing of the registry has the listing afterwards
(`listing_step`). So a subscription that is not closed receives all that has happened since it was opened, and nothing
else (`subscription_follows`).
-/
namespace Valuation
namespace Processor

/-! ## Listings -/

/-- What a processor tells of its registry. -/
structure Listing where
  processes : List ProcessId
  clients : List ClientId
  running : Bool
deriving DecidableEq

def listing (r : Processor) : Listing :=
  { processes := r.processes.keys, clients := r.clients.keys, running := r.running }

/-- A listing once an event is noted. -/
def Listing.note (l : Listing) : ProcessorEvent → Listing
  | .started => { l with running := true }
  | .stopped => { l with running := false }
  | .processAdded id => { l with processes := OrderedSet.place id l.processes }
  | .processRemoved id => { l with processes := l.processes.filter (· ≠ id) }
  | .clientAdded id => { l with clients := OrderedSet.place id l.clients }
  | .clientRemoved id => { l with clients := l.clients.filter (· ≠ id) }

theorem Listing.note_processesRemoved (ids : List ProcessId) (l : Listing) :
    (ids.map .processRemoved).foldl note l = { l with processes := l.processes.filter (· ∉ ids) } := by
  induction ids generalizing l with
  | nil => simp
  | cons id ids ih =>
    rw [List.map_cons, List.foldl_cons, ih]
    simp [note, List.filter_filter, Bool.and_comm]

theorem Listing.note_clientsRemoved (ids : List ClientId) (l : Listing) :
    (ids.map .clientRemoved).foldl note l = { l with clients := l.clients.filter (· ∉ ids) } := by
  induction ids generalizing l with
  | nil => simp
  | cons id ids ih =>
    rw [List.map_cons, List.foldl_cons, ih]
    simp [note, List.filter_filter, Bool.and_comm]

/-! ## The events of an operation -/

/-- What is to be told of an operation. -/
def Operation.events (r : Processor) : Operation → List ProcessorEvent
  | .start => if r.running then [] else [.started]
  | .stop order => if r.running then (order.arrange r.processes.keys).map .processRemoved ++ [.stopped] else []
  | .registerProcess _ _ _ hosted =>
    if r.running && hosted then [.processAdded (ProcessId.generate r.engine.serial)] else []
  | .deregisterProcess id => if r.processes.contains id then [.processRemoved id] else []
  | .registerClient _ => [.clientAdded (ClientId.generate r.engine.serial)]
  | .deregisterClient id => if r.clients.contains id then [.clientRemoved id] else []
  | .removeStaleClients maxAge order => (order.arrange (r.staleClients maxAge)).map .clientRemoved
  | _ => []

/-- Whether an operation is about the subscriptions themselves. -/
def Operation.concernsSubscriptions : Operation → Bool
  | .subscribe => true
  | .unsubscribe _ => true
  | .receive _ => true
  | _ => false

section
variable {r r' : Processor}

/-- An operation that is refused has no events. -/
theorem events_of_error {op : Operation} {err : EngineError} (h : op.apply r = .error err) : op.events r = [] := by
  cases op with
  | registerProcess d source options hosted =>
    refine if_neg fun hhosted => ?_
    obtain ⟨hrunning, rfl⟩ := Bool.and_eq_true_iff.1 hhosted
    obtain ⟨p, hregistered⟩ := registerProcess_of_running d source options hrunning
    rw [Operation.apply, hregistered] at h
    cases h
  | deregisterProcess id =>
    refine if_neg fun hregistered => ?_
    obtain ⟨p, hp⟩ := Option.isSome_iff_exists.1 hregistered
    cases (deregisterProcess_of_registered hp).symm.trans h
  | deregisterClient id =>
    refine if_neg fun hregistered => ?_
    obtain ⟨c, hc⟩ := Option.isSome_iff_exists.1 hregistered
    cases (deregisterClient_of_registered hc).symm.trans h
  | trigger | attachClient | detachClient | heartbeat | lookUp => rfl
  | start | stop | registerClient | removeStaleClients | subscribe | unsubscribe | receive | work => cases h

/-- Just these events are sent, and they tell what becomes of the registry. -/
structure Tells (r : Processor) (events : List ProcessorEvent) (r' : Processor) : Prop extends Emits r events r' where
  listing : r'.listing = events.foldl Listing.note r.listing

theorem tells_nothing (hemits : Emits r [] r') (hprocesses : r'.processes.keys = r.processes.keys)
    (hclients : r'.clients.keys = r.clients.keys) (hrunning : r'.running = r.running) : Tells r [] r' where
  toEmits := hemits
  listing := by
    rw [listing, hprocesses, hclients, hrunning]
    rfl

theorem Removes.tells {ids : List ProcessId} (h : Removes r ids r') : Tells r (ids.map .processRemoved) r' where
  toEmits := h.toEmits
  listing := by
    rw [Listing.note_processesRemoved, listing, h.keys, h.clients, h.running]
    rfl

theorem RemovesClients.tells {ids : List ClientId} (h : RemovesClients r ids r') :
    Tells r (ids.map .clientRemoved) r' where
  toEmits := h.toEmits
  listing := by
    rw [Listing.note_clientsRemoved, listing, h.processes, h.keys, h.running]
    rfl

theorem tells_stopIn (h : r.Linked) (hrunning : r.running = true) (order : Arrangement ProcessId) :
    Tells r ((order.arrange r.processes.keys).map .processRemoved ++ [.stopped]) (r.stopIn order) := by
  obtain ⟨r', hremoves, -, hstop⟩ := stopIn_spec h hrunning order
  rw [hstop]
  constructor
  case toEmits => exact Emits.trans ⟨hremoves.subscriptions, hremoves.opened⟩ ⟨rfl, rfl⟩
  case listing =>
    rw [List.foldl_append, Listing.note_processesRemoved]
    show r'.listing = _
    rw [hremoves.tells.listing, Listing.note_processesRemoved]
    rfl

theorem tells_step (h : r.Sound) {op : Operation} (hop : op.concernsSubscriptions = false) :
    Tells r (op.events r) (r.step op) := by
  cases happly : op.apply r with
  | error err =>
    rw [step_eq_of_error op happly, events_of_error happly]
    exact ⟨⟨rfl, rfl⟩, rfl⟩
  | ok r' =>
  rw [step_eq_of_ok op happly]
  cases op with
  | start =>
    cases happly
    dsimp only [Operation.events, Processor.start]
    split <;> exact ⟨⟨rfl, rfl⟩, rfl⟩
  | stop order =>
    cases happly
    dsimp only [Operation.events]
    split
    · next hrunning => exact tells_stopIn h.toLinked hrunning order
    · next hstopped =>
      rw [stopIn_of_stopped (Bool.eq_false_iff.2 hstopped)]
      exact ⟨⟨rfl, rfl⟩, rfl⟩
  | registerProcess d source options hosted =>
    obtain ⟨hrunning, rfl, p, rfl⟩ := registerProcess_map_eq_ok happly
    have hevents : Operation.events r (.registerProcess d source options true) =
        [.processAdded (ProcessId.generate r.engine.serial)] := by
      rw [Operation.events, hrunning]
      rfl
    rw [hevents]
    exact ⟨⟨rfl, rfl⟩, congrArg (fun keys => { r.listing with processes := keys }) (Table.keys_insert ..)⟩
  | deregisterProcess id =>
    obtain ⟨hregistered, hremoves⟩ := deregisterProcess_eq_ok happly
    rw [Operation.events, if_pos hregistered]
    exact hremoves.tells
  | trigger id =>
    obtain ⟨hregistered, p, rfl⟩ := trigger_eq_ok happly
    exact tells_nothing ⟨rfl, rfl⟩ (Table.keys_insert_of_contains h.processes hregistered p) rfl rfl
  | registerClient user =>
    cases happly
    exact ⟨⟨rfl, rfl⟩, congrArg (fun keys => { r.listing with clients := keys }) (Table.keys_insert ..)⟩
  | deregisterClient id =>
    obtain ⟨hregistered, hremoves⟩ := deregisterClient_eq_ok happly
    rw [Operation.events, if_pos hregistered]
    exact hremoves.tells
  | removeStaleClients maxAge order =>
    cases happly
    exact (removesClients_stale h.toLinked maxAge order).tells
  | attachClient id p =>
    obtain ⟨-, c, hc, rfl⟩ := attachClient_eq_ok happly
    exact tells_nothing ⟨rfl, rfl⟩ rfl (Table.keys_insert_of_contains h.clients (Option.isSome_of_eq_some hc) _) rfl
  | detachClient id | heartbeat id =>
    obtain ⟨c, hc, rfl⟩ := updateClient_eq_ok happly
    exact tells_nothing ⟨rfl, rfl⟩ rfl (Table.keys_insert_of_contains h.clients (Option.isSome_of_eq_some hc) _) rfl
  | lookUp question =>
    obtain ⟨-, -, rfl⟩ := map_eq_ok.1 happly
    exact ⟨⟨rfl, rfl⟩, rfl⟩
  | subscribe | unsubscribe | receive => cases hop
  | work p e =>
    cases happly
    obtain ⟨hclients, hrunning, hemits⟩ := r.putProcess_keeps p e
    exact tells_nothing hemits (keys_putProcess h.processes p e) (congrArg Table.keys hclients) hrunning

theorem listing_step (h : r.Sound) (op : Operation) :
    (r.step op).listing = (op.events r).foldl Listing.note r.listing := by
  cases hop : op.concernsSubscriptions with
  | false => exact (tells_step h hop).listing
  | true =>
    cases op with
    | subscribe | unsubscribe | receive => rfl
    | _ => cases hop

theorem filter_notMem_eq_self {α : Type} [DecidableEq α] {xs gone : List α} (hgone : ∀ x ∈ gone, x ∈ xs)
    (h : xs.filter (· ∉ gone) = xs) : gone = [] := by
  refine List.eq_nil_iff_forall_not_mem.2 fun x hx => ?_
  have hstays : x ∈ xs.filter (· ∉ gone) := h.symm ▸ hgone x hx
  exact of_decide_eq_true (List.mem_filter.1 hstays).2 hx

/-- Where the listing stays as it was and no identifier is drawn, there is nothing to tell. -/
theorem events_of_unchanged (h : r.Sound) {op : Operation} (hlisting : (r.step op).listing = r.listing)
    (hserial : (r.step op).engine.serial = r.engine.serial) : op.events r = [] := by
  rw [listing_step h] at hlisting
  cases op with
  | start =>
    refine if_pos (Bool.of_not_eq_false fun hstopped => ?_)
    dsimp only [Operation.events] at hlisting
    rw [hstopped] at hlisting
    cases (congrArg Listing.running hlisting).trans hstopped
  | stop order =>
    refine if_neg fun hrunning => ?_
    dsimp only [Operation.events] at hlisting
    rw [if_pos hrunning, List.foldl_append] at hlisting
    cases (congrArg Listing.running hlisting).trans hrunning
  | registerProcess d source options hosted =>
    refine if_neg fun hhosted => ?_
    obtain ⟨hrunning, rfl⟩ := Bool.and_eq_true_iff.1 hhosted
    obtain ⟨p, hregistered⟩ := registerProcess_of_running d source options hrunning
    -- The listing does not tell: the identifier that was drawn might have been in it.
    rw [step, Operation.apply, hregistered] at hserial
    exact absurd hserial (Nat.succ_ne_self _)
  | deregisterProcess id =>
    refine if_neg fun hregistered => ?_
    dsimp only [Operation.events] at hlisting
    rw [if_pos hregistered] at hlisting
    have hmem : ∀ x ∈ [id], x ∈ r.processes.keys := List.forall_mem_singleton.2 ((Table.contains_iff ..).1 hregistered)
    have hnoted := (Listing.note_processesRemoved [id] r.listing).symm.trans hlisting
    cases filter_notMem_eq_self hmem (congrArg Listing.processes hnoted)
  | registerClient user => exact absurd hserial (Nat.succ_ne_self _)
  | deregisterClient id =>
    refine if_neg fun hregistered => ?_
    dsimp only [Operation.events] at hlisting
    rw [if_pos hregistered] at hlisting
    have hmem : ∀ x ∈ [id], x ∈ r.clients.keys := List.forall_mem_singleton.2 ((Table.contains_iff ..).1 hregistered)
    have hnoted := (Listing.note_clientsRemoved [id] r.listing).symm.trans hlisting
    cases filter_notMem_eq_self hmem (congrArg Listing.clients hnoted)
  | removeStaleClients maxAge order =>
    have hmem : ∀ x ∈ order.arrange (r.staleClients maxAge), x ∈ r.clients.keys :=
      fun x hx => (h.sublist_staleClients maxAge).subset ((order.perm _).mem_iff.1 hx)
    have hnoted := (Listing.note_clientsRemoved _ r.listing).symm.trans hlisting
    rw [Operation.events, filter_notMem_eq_self hmem (congrArg Listing.clients hnoted), List.map_nil]
  | trigger | attachClient | detachClient | heartbeat | lookUp | subscribe | unsubscribe | receive | work => rfl

end

/-! ## Subscriptions -/

/-- What a subscription takes in an operation. -/
def Operation.taken (r : Processor) (number : Nat) : Operation → List ProcessorEvent
  | .receive n => if n = number then (r.receive number).1 else []
  | _ => []

/-- What a subscription receives in the course of some operations: what it takes, and what is then left for it. -/
def received (number : Nat) : Processor → List Operation → List ProcessorEvent
  | r, [] => (r.receive number).1
  | r, op :: ops => op.taken r number ++ received number (r.step op) ops

/-- The events of some operations. -/
def emitted : Processor → List Operation → List ProcessorEvent
  | _, [] => []
  | r, op :: ops => op.events r ++ emitted (r.step op) ops

/-- There is one subscription with a number, and it is open. -/
structure Listens (r : Processor) (number : Nat) (pending : List ProcessorEvent) : Prop where
  opened : number < r.opened
  subscription : (r.subscriptions.filter fun s => s.number = number) = [{ number, pending }]

/-- Subscriptions are numbered as they are opened. -/
def Numbered (r : Processor) : Prop := ∀ n ∈ r.subscriptions.map (·.number), n < r.opened

section
variable {r r' : Processor} {number : Nat} {pending : List ProcessorEvent}

theorem Listens.receive (h : Listens r number pending) : (r.receive number).1 = pending := by
  rw [Processor.receive, h.subscription, List.flatMap_singleton]

/-! ### Sending -/

theorem filter_foldl_sent (subscriptions : List Subscription) (events : List ProcessorEvent) :
    ((events.foldl sent subscriptions).filter fun s => s.number = number) =
      events.foldl sent (subscriptions.filter fun s => s.number = number) := by
  induction events generalizing subscriptions with
  | nil => rfl
  | cons event events ih =>
    have hsent : ((sent subscriptions event).filter fun s => s.number = number) =
        sent (subscriptions.filter fun s => s.number = number) event := by
      rw [sent, sent, List.filter_map, List.filter_filter, List.filter_filter]
      simp [Bool.and_comm]
    rw [List.foldl_cons, ih, hsent, List.foldl_cons]

/-- An open subscription gets all that is sent. -/
theorem foldl_sent_open (events : List ProcessorEvent) :
    events.foldl sent [{ number, pending }] = [{ number, pending := pending ++ events }] := by
  induction events generalizing pending with
  | nil => simp
  | cons event events ih => rw [List.append_cons]; exact ih

theorem numbers_foldl_sent (subscriptions : List Subscription) (events : List ProcessorEvent) :
    ((events.foldl sent subscriptions).map (·.number)).Sublist (subscriptions.map (·.number)) := by
  induction events generalizing subscriptions with
  | nil => exact .refl _
  | cons event events ih =>
    refine (ih _).trans ?_
    rw [sent, List.map_map]
    exact List.filter_sublist.map _

/-- What is sent comes to what a subscription has yet to take. -/
theorem Listens.emits (h : Listens r number pending) {events : List ProcessorEvent} (hemits : Emits r events r') :
    Listens r' number (pending ++ events) where
  opened := hemits.opened ▸ h.opened
  subscription := by rw [hemits.subscriptions, filter_foldl_sent, h.subscription, foldl_sent_open]

theorem Numbered.emits (h : r.Numbered) {events : List ProcessorEvent} (hemits : Emits r events r') : r'.Numbered := by
  intro n hn
  rw [hemits.subscriptions] at hn
  rw [hemits.opened]
  exact h n ((numbers_foldl_sent ..).subset hn)

/-! ### Opening, taking and closing -/

theorem filter_map_numbered {f : Subscription → Subscription} (hf : ∀ s, (f s).number = s.number)
    (subscriptions : List Subscription) : ((subscriptions.map f).filter fun s => s.number = number) =
      (subscriptions.filter fun s => s.number = number).map f := by
  rw [List.filter_map]
  simp [Function.comp_def, hf]

theorem Listens.step (h : Listens r number pending) (hsound : r.Sound) {op : Operation}
    (hop : op ≠ .unsubscribe number) :
    ∃ pending', Listens (r.step op) number pending' ∧ op.taken r number ++ pending' = pending ++ op.events r := by
  cases hconcerns : op.concernsSubscriptions with
  | false =>
    refine ⟨_, h.emits (tells_step hsound hconcerns).toEmits, ?_⟩
    cases op with
    | subscribe | unsubscribe | receive => cases hconcerns
    | _ => rfl
  | true =>
    cases op with
    | subscribe =>
      refine ⟨pending, ⟨Nat.lt_succ_of_lt h.opened, ?_⟩, (List.append_nil _).symm⟩
      refine (List.filter_append ..).trans ?_
      rw [h.subscription]
      simp [Nat.ne_of_gt h.opened]
    | unsubscribe n =>
      refine ⟨pending, ⟨h.opened, ?_⟩, (List.append_nil _).symm⟩
      refine (filter_map_numbered (fun s => by split <;> rfl) _).trans ?_
      rw [h.subscription]
      have hother : number ≠ n := fun heq => hop (heq ▸ rfl)
      simp [hother]
    | receive n =>
      by_cases hn : n = number
      · subst hn
        refine ⟨[], ⟨h.opened, ?_⟩, ?_⟩
        · refine (filter_map_numbered (fun s => by split <;> rfl) _).trans ?_
          rw [h.subscription]
          simp
        · rw [Operation.taken, if_pos rfl, h.receive]
          rfl
      · refine ⟨pending, ⟨h.opened, ?_⟩, ?_⟩
        · refine (filter_map_numbered (fun s => by split <;> rfl) _).trans ?_
          rw [h.subscription]
          simp [Ne.symm hn]
        · rw [Operation.taken, if_neg hn]
          exact (List.append_nil _).symm
    | _ => cases hconcerns

theorem Numbered.step (h : r.Numbered) (hsound : r.Sound) (op : Operation) : (r.step op).Numbered := by
  cases hconcerns : op.concernsSubscriptions with
  | false => exact h.emits (tells_step hsound hconcerns).toEmits
  | true =>
    cases op with
    | subscribe =>
      intro n hn
      change n ∈ (r.subscriptions ++ [(⟨r.opened, [], false⟩ : Subscription)]).map (·.number) at hn
      rw [List.map_append, List.mem_append, List.map_singleton, List.mem_singleton] at hn
      obtain hn | rfl := hn
      · exact Nat.lt_succ_of_lt (h n hn)
      · exact Nat.lt_succ_self _
    | unsubscribe | receive =>
      intro n hn
      refine h n ?_
      obtain ⟨s, hs, rfl⟩ := List.mem_map.1 hn
      obtain ⟨s', hs', rfl⟩ := List.mem_map.1 hs
      refine List.mem_map.2 ⟨s', hs', ?_⟩
      split <;> rfl
    | _ => cases hconcerns

theorem Numbered.after (h : r.Numbered) (hsound : r.Sound) (ops : List Operation) : (r.after ops).Numbered := by
  induction ops generalizing r with
  | nil => exact h
  | cons op ops ih => exact ih (h.step hsound op) (hsound.step op)

/-- A subscription that is opened has a number of its own. -/
theorem Numbered.listens (h : r.Numbered) : Listens r.subscribe.2 r.subscribe.1 [] := by
  refine ⟨Nat.lt_succ_self _, (List.filter_append ..).trans ?_⟩
  have hothers : (r.subscriptions.filter fun s => s.number = r.subscribe.1) = [] := by
    refine List.filter_eq_nil_iff.2 fun s hs hnumber => ?_
    exact Nat.ne_of_lt (h s.number (List.mem_map_of_mem hs)) (of_decide_eq_true hnumber)
  rw [hothers]
  simp [subscribe]

/-! ### In the course of operations -/

theorem Listens.received (h : Listens r number pending) (hsound : r.Sound) {ops : List Operation}
    (hops : .unsubscribe number ∉ ops) : received number r ops = pending ++ emitted r ops := by
  induction ops generalizing r pending with
  | nil => rw [Processor.received, h.receive, emitted, List.append_nil]
  | cons op ops ih =>
    rw [List.mem_cons, not_or] at hops
    obtain ⟨pending', hlistens, htaken⟩ := h.step hsound (Ne.symm hops.1)
    rw [Processor.received, emitted, ih hlistens (hsound.step op) hops.2, ← List.append_assoc, htaken,
      List.append_assoc]

theorem listing_after (h : r.Sound) (ops : List Operation) :
    (r.after ops).listing = (emitted r ops).foldl Listing.note r.listing := by
  induction ops generalizing r with
  | nil => rfl
  | cons op ops ih =>
    rw [emitted, List.foldl_append, ← listing_step h]
    exact ih (h.step op)

/-- Whatever comes before and after a subscription is opened, and whatever becomes of the others: until it is closed,
it receives each event once and in turn. Noting them in the listing at its start gives the listing after all
operations. There is no event where an operation is refused, or leaves the listing as it was and draws no identifier. -/
theorem subscription_follows {config : EngineConfig} {repository : Option FunctionRepository}
    {executor : Option Executor} {permission : Option PermissionProvider} {entitlements : Option EntitlementSource}
    {now : Instant} {r₀ : Processor}
    (hbuild : Processor.build config repository executor permission entitlements now = .ok r₀)
    (before later : List Operation) (hopen : .unsubscribe (r₀.after before).subscribe.1 ∉ later) :
    let r := r₀.after before
    let number := r.subscribe.1
    let opened := r.subscribe.2
    received number opened later = emitted opened later ∧
    (received number opened later).foldl Listing.note r.listing = (opened.after later).listing ∧
    ∀ op : Operation, (∃ err, op.apply r = .error err) ∨
      (r.step op).listing = r.listing ∧ (r.step op).engine.serial = r.engine.serial → op.events r = [] := by
  intro r number opened
  have hsound : r.Sound := (sound_build hbuild).after before
  have hnumbered : r₀.Numbered := by
    obtain ⟨engine, provider, rfl, -⟩ := build_fresh hbuild
    exact List.forall_mem_nil _
  have hlistens : Listens opened number [] := (hnumbered.after (sound_build hbuild) before).listens
  have hreceived : received number opened later = emitted opened later :=
    hlistens.received (hsound.step .subscribe) hopen
  refine ⟨hreceived, ?_, ?_⟩
  · rw [hreceived]
    exact (listing_after (hsound.step .subscribe) later).symm
  · rintro op (⟨err, hrefused⟩ | ⟨hlisting, hserial⟩)
    · exact events_of_error hrefused
    · exact events_of_unchanged hsound hlisting hserial

/-- A subscription hears of a process that is registered, and leaves as the processor stops. That the processor starts
again is told once. -/
theorem demo_subscription_follows :
    let before := [.start, .registerClient default]
    let later := [.registerProcess Demo.singleView .unavailable {} true, .receive 0, .subscribe, .unsubscribe 1,
      .stop .asListed, .start, .start]
    let events := [.processAdded (.generate 1), .processRemoved (.generate 1), .stopped, .started]
    ∃ r₀, Processor.build {} (some {}) none none none default = .ok r₀ ∧
      .unsubscribe (r₀.after before).subscribe.1 ∉ later ∧
      received 0 (r₀.after before).subscribe.2 later = events ∧
      events.foldl Listing.note (r₀.after before).listing = ((r₀.after before).subscribe.2.after later).listing := by
  intro before later events
  obtain ⟨r₀, hbuild, hnumber, hevents⟩ : ∃ r₀, Processor.build {} (some {}) none none none default = .ok r₀ ∧
      (r₀.after before).subscribe.1 = 0 ∧ emitted (r₀.after before).subscribe.2 later = events :=
    ⟨_, rfl, rfl, by decide +kernel⟩
  have hopen : .unsubscribe (r₀.after before).subscribe.1 ∉ later := by simp [hnumber, later]
  obtain ⟨hreceived, hlisting, -⟩ := subscription_follows hbuild before later hopen
  rw [hnumber] at hreceived hlisting
  rw [hreceived, hevents] at hlisting
  exact ⟨r₀, hbuild, hopen, hreceived.trans hevents, hlisting⟩

end

end Processor
end Valuation
