import Valuation.Proofs.Identifier
import Valuation.Proofs.Processor.Session

/-!
# The registry in a session

A process is filed under its identifier, in the registry or among those that have left it, and its identifier was drawn
before (`Registry`). So a process that is registered has an identifier that no other has had (`Registry.fresh`), and
one that has left the registry does not come back. What clients and subscriptions do has no part in this (`Aside`).
-/
namespace Valuation
namespace Processor

/-! ## What does not concern processes -/

/-- Processes and the table stay as they are; identifiers may be drawn. -/
structure Aside (r r' : Processor) : Prop where
  processes : r'.processes = r.processes
  formerProcesses : r'.formerProcesses = r.formerProcesses
  cycles : r'.engine.cycles = r.engine.cycles
  serial : r.engine.serial ≤ r'.engine.serial

theorem Aside.refl (r : Processor) : r.Aside r := ⟨rfl, rfl, rfl, Nat.le_refl _⟩

theorem Aside.trans {r r' r'' : Processor} (h : r.Aside r') (h' : r'.Aside r'') : r.Aside r'' :=
  ⟨h'.processes.trans h.processes, h'.formerProcesses.trans h.formerProcesses, h'.cycles.trans h.cycles,
    h.serial.trans h'.serial⟩

theorem aside_getD {r : Processor} {result : Except EngineError Processor} (h : ∀ r', result = .ok r' → r.Aside r') :
    r.Aside (result.toOption.getD r) := by
  cases result with
  | ok r' => exact h r' rfl
  | error err => exact .refl r

theorem aside_deregisterClient (r : Processor) (id : ClientId) :
    r.Aside ((r.deregisterClient id).toOption.getD r) := by
  refine aside_getD fun r' h => ?_
  obtain ⟨c, -, h⟩ := bind_eq_ok.1 h
  cases h
  exact ⟨rfl, rfl, rfl, Nat.le_refl _⟩

theorem aside_deregisterClients (r : Processor) (ids : List ClientId) :
    r.Aside (ids.foldl (fun r id => (r.deregisterClient id).toOption.getD r) r) := by
  induction ids generalizing r with
  | nil => exact .refl r
  | cons id ids ih => exact (aside_deregisterClient r id).trans (ih _)

theorem aside_updateClient (r : Processor) (id : ClientId) (f : Client → Client) {r' : Processor}
    (h : r.updateClient id f = .ok r') : r.Aside r' := by
  obtain ⟨c, -, h⟩ := bind_eq_ok.1 h
  cases h
  exact ⟨rfl, rfl, rfl, Nat.le_refl _⟩

theorem Call.aside (call : Call) (r : Processor) : r.Aside (call.apply r) := by
  cases call with
  | start =>
    simp only [apply, Processor.start]
    split <;> exact ⟨rfl, rfl, rfl, Nat.le_refl _⟩
  | halt | emit | subscribe | unsubscribe | receive => exact ⟨rfl, rfl, rfl, Nat.le_refl _⟩
  | registerClient => exact ⟨rfl, rfl, rfl, Nat.le_succ _⟩
  | deregisterClient id => exact aside_deregisterClient r id
  | attachClient id p =>
    refine aside_getD fun r' h => ?_
    obtain ⟨-, -, h⟩ := bind_eq_ok.1 h
    obtain ⟨-, -, h⟩ := bind_eq_ok.1 h
    exact aside_updateClient r id _ h
  | detachClient id => exact aside_getD fun _ => aside_updateClient r id _
  | heartbeat id => exact aside_getD fun _ => aside_updateClient r id _
  | removeStaleClients maxAge => exact aside_deregisterClients r (r.staleClients maxAge)

/-- To begin with, a processor does not run, nothing is registered, and nobody listens. -/
theorem build_fresh {config : EngineConfig} {repository : Option FunctionRepository} {executor : Option Executor}
    {permission : Option PermissionProvider} {entitlements : Option EntitlementSource} {now : Instant} {r : Processor}
    (h : Processor.build config repository executor permission entitlements now = .ok r) :
    ∃ engine provider, r = { config, engine, permission := provider } ∧ engine.cycles = ∅ := by
  unfold Processor.build at h
  dsimp only at h
  split at h
  · split at h <;> split at h <;> split at h <;>
    · simp only [bind_eq_ok] at h
      obtain ⟨functions, -, chosen, -, provider, -, h⟩ := h
      cases h
      exact ⟨_, provider, rfl, rfl⟩
  · cases h

namespace Session

/-! ## The registry -/

/-- Processes are filed under identifiers of their own, in the registry or out of it. -/
structure Registry (s : Session) : Prop where
  keyed : ∀ id p, s.held id = some p → p.id = id
  issued : ∀ id, (s.held id).isSome = true → ∃ n < s.processor.engine.serial, id = ProcessId.generate n
  left : ∀ id, id ∈ s.leaving ∨ id ∈ s.deregistered →
    s.processor.processes.contains id = false ∧ (s.held id).isSome = true
  accounted : ∀ id, (s.held id).isSome = true →
    s.processor.processes.contains id = true ∨ id ∈ s.leaving ∨ id ∈ s.deregistered

theorem held_congr {s s' : Session} (hprocesses : s'.processor.processes = s.processor.processes)
    (hformer : s'.processor.formerProcesses = s.processor.formerProcesses) (id : ProcessId) :
    s'.held id = s.held id := by
  rw [held, held, heldProcess?_eq, heldProcess?_eq, hprocesses, hformer]

/-- What is held and what is registered is all that counts. -/
theorem Registry.of_eq {s s' : Session} (h : s.Registry)
    (hheld : ∀ id, (s'.held id).map (·.id) = (s.held id).map (·.id))
    (hregistered : ∀ id, s'.processor.processes.contains id = s.processor.processes.contains id)
    (hserial : s.processor.engine.serial ≤ s'.processor.engine.serial)
    (hleaving : s'.leaving = s.leaving) (hderegistered : s'.deregistered = s.deregistered) : s'.Registry := by
  have hsome : ∀ id, (s'.held id).isSome = (s.held id).isSome := by
    intro id
    rw [← Option.isSome_map, hheld, Option.isSome_map]
  constructor
  case keyed =>
    intro id p' hp'
    obtain ⟨p, hp, hid⟩ := Option.map_eq_some_iff.1 ((hheld id).symm.trans (by rw [hp']; rfl))
    exact hid.symm.trans (h.keyed id p hp)
  case issued =>
    intro id hid
    obtain ⟨n, hn, heq⟩ := h.issued id (hsome id ▸ hid)
    exact ⟨n, hn.trans_le hserial, heq⟩
  case left =>
    intro id hid
    rw [hleaving, hderegistered] at hid
    rw [hregistered, hsome]
    exact h.left id hid
  case accounted =>
    intro id hid
    rw [hleaving, hderegistered, hregistered]
    exact h.accounted id (hsome id ▸ hid)

theorem held_put (s : Session) {id : ProcessId} {p p' : Process} (hkeyed : p.id = id) (hid : p'.id = p.id) (e : Engine)
    (id' : ProcessId) : (s.put p' e).held id' = if id = id' then some p' else s.held id' := by
  rw [held, put, heldProcess?_putProcess, hid, hkeyed]
  rfl

theorem isSome_held_put (s : Session) {id : ProcessId} {p p' : Process} (hkeyed : p.id = id) (hid : p'.id = p.id)
    (e : Engine) {id' : ProcessId} (h : (s.held id').isSome = true) : ((s.put p' e).held id').isSome = true := by
  rw [s.held_put hkeyed hid]
  split
  · rfl
  · exact h

theorem Registry.put {s : Session} (h : s.Registry) {id : ProcessId} {p p' : Process} (hp : s.held id = some p)
    (hid : p'.id = p.id) {e : Engine} (hserial : s.processor.engine.serial ≤ e.serial) : (s.put p' e).Registry := by
  refine h.of_eq (fun id' => ?_) (fun id' => ?_) ?_ rfl rfl
  · rw [s.held_put (h.keyed id p hp) hid]
    split
    · next heq =>
      subst heq
      rw [hp, Option.map_some, Option.map_some, hid]
    · rfl
  · exact contains_putProcess ..
  · rw [Session.put, engine_putProcess]
    exact hserial

theorem Registry.aside {s : Session} (h : s.Registry) {r : Processor} (haside : s.processor.Aside r) :
    Registry { s with processor := r } := by
  have hheld : ∀ id, ({ s with processor := r } : Session).held id = s.held id :=
    held_congr haside.processes haside.formerProcesses
  refine h.of_eq (fun id => by rw [hheld]) (fun id => ?_) haside.serial rfl rfl
  exact congrArg (fun t : Table ProcessId Process => t.contains id) haside.processes

/-- What registering a process comes to. -/
structure Registered (r : Processor) (p : Process) (r' : Processor) : Prop where
  id_eq : p.id = ProcessId.generate r.engine.serial
  retained : p.retained = []
  processes : r'.processes = r.processes.insert p.id p
  formerProcesses : r'.formerProcesses = r.formerProcesses
  engine : r'.engine = { r.engine with serial := r.engine.serial + 1 }

theorem registerProcess_eq_ok {r r' : Processor} {d : ViewDefinition} {source : SnapshotSource}
    {options : ProcessOptions} {id : ProcessId} (h : r.registerProcess d source options = .ok (id, r')) :
    ∃ p, Registered r p r' := by
  unfold registerProcess at h
  split at h
  · cases h
  obtain ⟨p, hstart, h⟩ := bind_eq_ok.1 h
  cases h
  have hnew : p.id = ProcessId.generate r.engine.serial ∧ p.retained = [] := by
    cases hstart
    exact ⟨rfl, rfl⟩
  exact ⟨p, hnew.1, hnew.2, by rw [hnew.1]; rfl, rfl, rfl⟩

theorem Registered.held {s : Session} {p : Process} {r : Processor} (h : Registered s.processor p r) (id : ProcessId) :
    ({ s with processor := r } : Session).held id = if p.id = id then some p else s.held id := by
  rw [Session.held, Session.held, heldProcess?_eq, heldProcess?_eq, h.processes, h.formerProcesses, Table.get?_insert]
  split <;> simp

/-- The identifier of a process that is registered has not been used before. -/
theorem Registry.fresh {s : Session} (h : s.Registry) (hserial : s.processor.engine.serial < 16 ^ 32) :
    s.held (ProcessId.generate s.processor.engine.serial) = none := by
  by_contra hused
  obtain ⟨n, hn, heq⟩ := h.issued _ (Option.isSome_iff_ne_none.2 hused)
  have hsame := ProcessId.generate_inj hserial (hn.trans hserial) heq
  omega

theorem Registry.register {s : Session} (h : s.Registry) (hserial : s.processor.engine.serial < 16 ^ 32) {p : Process}
    {r : Processor} (hregistered : Registered s.processor p r) : Registry { s with processor := r } := by
  have hfresh : s.held p.id = none := hregistered.id_eq ▸ h.fresh hserial
  have hcontains : ∀ id, r.processes.contains id = (decide (p.id = id) || s.processor.processes.contains id) := by
    intro id
    rw [hregistered.processes, Table.contains, Table.get?_insert]
    by_cases hid : p.id = id
    · simp [hid]
    · simp [hid, Table.contains]
  have hserial' : r.engine.serial = s.processor.engine.serial + 1 := by rw [hregistered.engine]
  constructor
  case keyed =>
    intro id q hq
    rw [hregistered.held] at hq
    split at hq
    · next hid =>
      cases hq
      exact hid
    · exact h.keyed id q hq
  case issued =>
    intro id hid
    rw [hregistered.held] at hid
    dsimp only
    rw [hserial']
    split at hid
    · next heq => exact ⟨_, Nat.lt_succ_self _, heq.symm.trans hregistered.id_eq⟩
    · obtain ⟨n, hn, heq⟩ := h.issued id hid
      exact ⟨n, by omega, heq⟩
  case left =>
    intro id hid
    obtain ⟨hout, hheld⟩ := h.left id hid
    have hne : p.id ≠ id := by
      rintro rfl
      rw [hfresh] at hheld
      cases hheld
    rw [hregistered.held, if_neg hne]
    exact ⟨by simp [hcontains, hne, hout], hheld⟩
  case accounted =>
    intro id hid
    rw [hregistered.held] at hid
    dsimp only
    rw [hcontains]
    split at hid
    · next heq => exact .inl (by simp [heq])
    · exact (h.accounted id hid).imp_left fun hin => by simp [hin]

theorem held_remove {s : Session} {id : ProcessId} {p : Process} (hp : s.processor.processes.get? id = some p)
    (leaving : List ProcessId) (id' : ProcessId) : Session.held { s with
      processor := { s.processor with
        processes := s.processor.processes.erase id
        formerProcesses := s.processor.formerProcesses.insert id p }
      leaving } id' = s.held id' := by
  rw [held, held, heldProcess?_eq, heldProcess?_eq, Table.get?_erase, Table.get?_insert]
  split
  · next hid => rw [← hid, hp, Option.none_or, Option.some_or]
  · rfl

theorem Registry.remove {s : Session} (h : s.Registry) {id : ProcessId} {p : Process}
    (hp : s.processor.processes.get? id = some p) : Registry { s with
      processor := { s.processor with
        processes := s.processor.processes.erase id
        formerProcesses := s.processor.formerProcesses.insert id p }
      leaving := id :: s.leaving } := by
  have hcontains : ∀ id', (s.processor.processes.erase id).contains id' =
      (decide (id ≠ id') && s.processor.processes.contains id') := by
    intro id'
    rw [Table.contains, Table.get?_erase]
    by_cases hid : id = id'
    · simp [hid]
    · simp [hid, Table.contains]
  constructor
  case keyed =>
    intro id' q hq
    rw [held_remove hp] at hq
    exact h.keyed id' q hq
  case issued =>
    intro id' hid'
    rw [held_remove hp] at hid'
    exact h.issued id' hid'
  case left =>
    intro id' hid'
    rw [held_remove hp]
    dsimp only at hid' ⊢
    rw [hcontains, List.mem_cons, or_assoc] at *
    obtain rfl | hid' := hid'
    · refine ⟨by simp, ?_⟩
      rw [held, heldProcess?_eq, hp]
      rfl
    · obtain ⟨hout, hheld⟩ := h.left id' hid'
      exact ⟨by simp [hout], hheld⟩
  case accounted =>
    intro id' hid'
    rw [held_remove hp] at hid'
    dsimp only
    rw [hcontains, List.mem_cons]
    by_cases hid : id = id'
    · exact .inr (.inl (.inl hid.symm))
    · obtain hin | hleaving | hgone := h.accounted id' hid'
      · exact .inl (by simp [hid, hin])
      · exact .inr (.inl (.inr hleaving))
      · exact .inr (.inr hgone)

/-- What letting the cycles of a process go comes to. -/
structure LetGo (r : Processor) (id : ProcessId) (p p' : Process) (r' : Processor) : Prop where
  id_eq : p'.id = p.id
  retained : p'.retained = []
  processes : r'.processes = r.processes
  formerProcesses : r'.formerProcesses = r.formerProcesses.insert id p'
  engine : r'.engine = { r.engine with cycles := p.retained.foldl Table.erase r.engine.cycles }

theorem letGo_spec {r : Processor} {id : ProcessId} {p : Process} (hp : r.formerProcesses.get? id = some p) :
    ∃ p', LetGo r id p p' (r.letGo id) := by
  obtain ⟨stopping, hstop⟩ := p.exists_stop
  refine ⟨{ p with stopping, retained := [] }, rfl, rfl, ?_, ?_, ?_⟩ <;>
    simp only [Processor.letGo, hp, hstop] <;> rfl

/-- A process that has yet to let its cycles go is held, but not registered. -/
theorem Registry.leaving {s : Session} (h : s.Registry) {id : ProcessId} (hid : id ∈ s.leaving) :
    ∃ p, s.held id = some p ∧ s.processor.processes.get? id = none ∧ s.processor.formerProcesses.get? id = some p := by
  obtain ⟨hout, hheld⟩ := h.left id (.inl hid)
  obtain ⟨p, hp⟩ := Option.isSome_iff_exists.1 hheld
  have hnone : s.processor.processes.get? id = none := by simpa [Table.contains] using hout
  refine ⟨p, hp, hnone, ?_⟩
  rwa [held, heldProcess?_eq, hnone, Option.none_or] at hp

theorem LetGo.held {s : Session} {id : ProcessId} {p p' : Process} {r : Processor} (h : LetGo s.processor id p p' r)
    (hnone : s.processor.processes.get? id = none) (leaving deregistered : List ProcessId) (id' : ProcessId) :
    ({ s with processor := r, leaving, deregistered } : Session).held id' =
      if id = id' then some p' else s.held id' := by
  rw [Session.held, Session.held, heldProcess?_eq, heldProcess?_eq, h.processes, h.formerProcesses, Table.get?_insert]
  split
  · next hid => rw [← hid, hnone, Option.none_or]
  · rfl

theorem Registry.letGo {s : Session} (h : s.Registry) {id : ProcessId} {p p' : Process} {r : Processor}
    (hp : s.held id = some p) (hnone : s.processor.processes.get? id = none) (hgo : LetGo s.processor id p p' r) :
    Registry { s with
      processor := r
      leaving := s.leaving.filter (· ≠ id)
      deregistered := s.deregistered ++ [id] } := by
  have hsome : ∀ id', (Session.held { s with
      processor := r
      leaving := s.leaving.filter (· ≠ id)
      deregistered := s.deregistered ++ [id] } id').isSome = (s.held id').isSome := by
    intro id'
    rw [hgo.held hnone]
    split
    · next hid => rw [← hid, hp]; rfl
    · rfl
  constructor
  case keyed =>
    intro id' q hq
    rw [hgo.held hnone] at hq
    split at hq
    · next hid =>
      cases hq
      exact hgo.id_eq.trans ((h.keyed id p hp).trans hid)
    · exact h.keyed id' q hq
  case issued =>
    intro id' hid'
    obtain ⟨n, hn, heq⟩ := h.issued id' (hsome id' ▸ hid')
    exact ⟨n, by rw [hgo.engine]; exact hn, heq⟩
  case left =>
    intro id' hid'
    rw [hsome]
    dsimp only
    rw [hgo.processes]
    simp only [List.mem_filter, List.mem_append, List.mem_singleton] at hid'
    obtain ⟨hleaving, -⟩ | hgone | rfl := hid'
    · exact h.left id' (.inl hleaving)
    · exact h.left id' (.inr hgone)
    · exact ⟨by simp [Table.contains, hnone], by simp [hp]⟩
  case accounted =>
    intro id' hid'
    dsimp only
    rw [hgo.processes]
    by_cases hid : id' = id
    · exact .inr (.inr (by simp [hid]))
    · obtain hin | hleaving | hgone := h.accounted id' (hsome id' ▸ hid')
      · exact .inl hin
      · exact .inr (.inl (by simp [hleaving, hid]))
      · exact .inr (.inr (by simp [hgone]))

end Session
end Processor
end Valuation
