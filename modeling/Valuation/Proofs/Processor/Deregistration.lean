import Valuation.Proofs.Demo
import Valuation.Proofs.Processor.Runs

/-!
# What processes leave in the table

The cycles of a process leave the table when it is deregistered. This happens once, and it reaches the cycles that the
process retains at that time. A run that retains its cycle later, because its process was triggered before or is still
held, leaves it there (`leaked`). `Owned` is what holds nonetheless, in whatever order runs and deregistrations fall
together: every cycle in the table is of a process that is registered or being deregistered, or of such a run.
-/
namespace Valuation
namespace Processor
namespace Session

/-! ## A move -/

/-- What is known of a session. -/
structure Coherent (s : Session) : Prop where
  registry : s.Registry
  runs : s.Runs
  traced : s.Traced

section
variable {s : Session} (h : s.Coherent)
include h

theorem Coherent.aside {r : Processor} (haside : s.processor.Aside r) : Coherent { s with processor := r } where
  registry := h.registry.aside haside
  runs := by
    refine h.runs.of_eq (fun id hid => ?_) haside.serial h.runs.unchanged
    rw [held_congr haside.processes haside.formerProcesses]
    exact hid
  traced := by
    refine h.traced.of_le s.runs_refl (fun id c hc => ⟨c, ?_, .refl c⟩) fun id c p hc hstays hp hmem => ?_
    · rw [← haside.cycles]
      exact hc
    · refine ⟨hstays, p, ?_, hmem⟩
      rw [held_congr haside.processes haside.formerProcesses]
      exact hp

/-- A process that is put back with the same cycles. -/
theorem Coherent.put {id : ProcessId} {p p' : Process} (hp : s.held id = some p) (hid : p'.id = p.id)
    (hretained : p'.retained = p.retained) : (s.put p' s.processor.engine).Coherent := by
  have hheld := s.held_put (h.registry.keyed id p hp) hid s.processor.engine
  constructor
  case registry => exact h.registry.put hp hid (Nat.le_refl _)
  case runs =>
    refine h.runs.of_eq (fun _ => s.isSome_held_put (h.registry.keyed id p hp) hid _) (Nat.le_of_eq ?_)
      h.runs.unchanged
    rw [Session.put, engine_putProcess]
  case traced =>
    refine h.traced.of_le s.runs_refl (fun cycle c hc => ⟨c, ?_, .refl c⟩) fun cycle c q hc hstays hq hmem => ?_
    · rwa [Session.put, engine_putProcess] at hc
    · refine ⟨hstays, ?_⟩
      rw [hheld]
      split
      · next heq =>
        rw [← heq, hp] at hq
        cases hq
        exact ⟨p', rfl, hretained ▸ hmem⟩
      · exact ⟨q, hq, hmem⟩

theorem Coherent.opening {r : RunCall} (hheld : (s.held r.process).isSome = true) (hcycle : r.cycle = none)
    (hinTime : r.inTime = none) : (s.opening r).Coherent where
  registry := h.registry.of_eq (fun _ => rfl) (fun _ => rfl) (Nat.le_refl _) rfl rfl
  runs := by
    refine h.runs.of_eq (fun _ hid => hid) (Nat.le_refl _) fun j r' hj => ?_
    obtain hold | hnew := Nat.lt_or_ge j s.runs.length
    · rw [Session.opening, List.getElem?_append_left hold] at hj
      exact h.runs.unchanged j r' hj
    · rw [Session.opening, List.getElem?_append_right hnew] at hj
      obtain rfl := List.mem_singleton.1 (List.mem_of_getElem? hj)
      exact .inr ⟨hheld, hcycle, hinTime⟩
  traced := by
    refine h.traced.of_le (fun j r' hj => ⟨r', ?_, rfl, fun _ => rfl, rfl⟩) (fun _ c hc => ⟨c, hc, .refl c⟩)
      fun _ _ p _ hstays hp hmem => ⟨hstays, p, hp, hmem⟩
    exact (List.getElem?_append_left (List.getElem?_eq_some_iff.1 hj).1).trans hj

theorem Coherent.register (hserial : s.processor.engine.serial < 16 ^ 32) {p : Process} {r : Processor}
    (hregistered : Registered s.processor p r) : Coherent { s with processor := r } := by
  have hfresh : s.held p.id = none := hregistered.id_eq ▸ h.registry.fresh hserial
  have hstill : ∀ id q, s.held id = some q → Session.held { s with processor := r } id = some q := by
    intro id q hq
    rw [hregistered.held, if_neg]
    · exact hq
    · rintro rfl
      cases hfresh.symm.trans hq
  constructor
  case registry => exact h.registry.register hserial hregistered
  case runs =>
    refine h.runs.of_eq (fun id hid => ?_) ?_ h.runs.unchanged
    · obtain ⟨q, hq⟩ := Option.isSome_iff_exists.1 hid
      exact Option.isSome_iff_exists.2 ⟨q, hstill id q hq⟩
    · rw [hregistered.engine]
      exact Nat.le_succ _
  case traced =>
    refine h.traced.of_le s.runs_refl (fun id c hc => ⟨c, ?_, .refl c⟩) fun id c q hc hstays hq hmem => ?_
    · rw [hregistered.engine] at hc
      exact hc
    · exact ⟨hstays, q, hstill _ q hq, hmem⟩

theorem Coherent.remove {id : ProcessId} {p : Process} (hp : s.processor.processes.get? id = some p) :
    Coherent { s with
      processor := { s.processor with
        processes := s.processor.processes.erase id
        formerProcesses := s.processor.formerProcesses.insert id p }
      leaving := id :: s.leaving } where
  registry := h.registry.remove hp
  runs := h.runs.of_eq (fun id' hid' => held_remove hp _ id' ▸ hid') (Nat.le_refl _) h.runs.unchanged
  traced := h.traced.of_le s.runs_refl (fun _ c hc => ⟨c, hc, .refl c⟩)
    fun _ c q _ hstays hq hmem => ⟨hstays, q, held_remove hp _ c.process ▸ hq, hmem⟩

theorem Coherent.letGo {id : ProcessId} (hid : id ∈ s.leaving) : Coherent { s with
    processor := s.processor.letGo id
    leaving := s.leaving.filter (· ≠ id)
    deregistered := s.deregistered ++ [id] } := by
  obtain ⟨p, hp, hnone, hformer⟩ := h.registry.leaving hid
  obtain ⟨p', hgo⟩ := letGo_spec hformer
  have hheld := hgo.held hnone (s.leaving.filter (· ≠ id)) (s.deregistered ++ [id])
  constructor
  case registry => exact h.registry.letGo hp hnone hgo
  case runs =>
    refine h.runs.of_eq (fun id' hid' => ?_) (by rw [hgo.engine]) h.runs.unchanged
    rw [hheld]
    split
    · rfl
    · exact hid'
  case traced =>
    refine h.traced.drop hp hheld (by rw [hgo.engine]) rfl fun id' hid' => ?_
    simpa using hid'

theorem Coherent.release {id : ProcessId} {p : Process} (hp : s.held id = some p) :
    (s.put (p.release s.processor.engine).1 (p.release s.processor.engine).2).Coherent := by
  have hkept : (p.release s.processor.engine).1.id = p.id := rfl
  have hheld := s.held_put (h.registry.keyed id p hp) hkept (p.release s.processor.engine).2
  constructor
  case registry => exact h.registry.put hp hkept (Nat.le_refl _)
  case runs =>
    refine h.runs.of_eq (fun _ => s.isSome_held_put (h.registry.keyed id p hp) hkept _) (Nat.le_of_eq ?_)
      h.runs.unchanged
    rw [Session.put, engine_putProcess]
    rfl
  case traced =>
    refine h.traced.drop hp hheld ?_ rfl fun id' hid' => .inl hid'
    rw [Session.put, engine_putProcess]
    rfl

theorem Coherent.file (hserial : s.processor.engine.serial < 16 ^ 32) {k : Nat} {r : RunCall} {p : Process}
    (hk : s.runs[k]? = some r) (hcycle : r.cycle = none) (hp : s.held r.process = some p) :
    (s.step (.file k)).Coherent where
  registry := by
    rw [step_file hk hcycle hp]
    exact h.registry.of_eq (fun _ => rfl) (fun _ => rfl) (Nat.le_succ _) rfl rfl
  runs := h.runs.file hserial hk hcycle hp (h.registry.keyed _ p hp)
  traced := h.traced.file h.runs hk hcycle hp (h.registry.keyed _ p hp)

theorem Coherent.keep {k : Nat} {r : RunCall} {p : Process} {c : Cycle} (hk : s.runs[k]? = some r)
    (hcycle : r.cycle = some c) (hnone : r.inTime = none) (hp : s.held r.process = some p) :
    (s.step (.keep k)).Coherent := by
  have hid := h.registry.keyed _ p hp
  have hkept : (p.keep s.processor.engine c.id).1.id = p.id := rfl
  refine ⟨?_, ?_, h.traced.keep hk hcycle hnone hp hid⟩ <;> rw [step_keep hk hcycle hnone hp]
  · have hput : (s.put _ (p.keep s.processor.engine c.id).2).Registry := h.registry.put hp hkept (Nat.le_refl _)
    exact hput.of_eq (fun _ => rfl) (fun _ => rfl) (Nat.le_refl _) rfl rfl
  · exact h.runs.goOn hk hcycle hid hkept rfl rfl rfl

theorem Coherent.finish {k : Nat} {r : RunCall} {p : Process} {c : Cycle} {inTime : Bool} (hk : s.runs[k]? = some r)
    (hcycle : r.cycle = some c) (hinTime : r.inTime = some inTime) (hunfinished : r.finished = false)
    (hp : s.held r.process = some p) (stops : Stops) : (s.step (.finish k stops)).Coherent := by
  rw [step_finish hk hcycle hinTime hunfinished hp]
  have hid := h.registry.keyed _ p hp
  obtain ⟨c', compiler, feeds, hsame, -, hengine⟩ := p.finish_engine s.processor.engine stops r.trigger c
  have hfinish := p.finish_keeps s.processor.engine stops r.trigger c
  generalize p.finish s.processor.engine stops r.trigger c = done at hengine hfinish
  obtain ⟨hafterId, hafterRetained⟩ := r.afterCycle_keeps done.process
  have hkept := And.intro (hafterId.trans hfinish.1) (hafterRetained.trans hfinish.2)
  have hserial : done.engine.serial = s.processor.engine.serial := by rw [hengine]; rfl
  constructor
  case registry =>
    have hput : (s.put (r.afterCycle done.process) done.engine).Registry :=
      h.registry.put hp hkept.1 (Nat.le_of_eq hserial.symm)
    exact hput.of_eq (fun _ => rfl) (fun _ => rfl) (Nat.le_refl _) rfl rfl
  case runs => exact h.runs.goOn hk hcycle hid hkept.1 hserial rfl rfl
  case traced => exact h.traced.finish h.runs hk hcycle hp hid hkept hsame (by rw [hengine]; rfl)

end

/-- Identifiers are only drawn, and what is known of the session before is known afterwards, as long as there are
enough of them. -/
structure Follows (s s' : Session) : Prop where
  serial : s.processor.engine.serial ≤ s'.processor.engine.serial
  deregistered : s.deregistered ⊆ s'.deregistered
  coherent : s.Coherent → s'.processor.engine.serial ≤ 16 ^ 32 → s'.Coherent

theorem Follows.refl (s : Session) : s.Follows s := ⟨Nat.le_refl _, List.Subset.refl _, fun h _ => h⟩

theorem Follows.trans {s s' s'' : Session} (h : s.Follows s') (h' : s'.Follows s'') : s.Follows s'' :=
  ⟨h.serial.trans h'.serial, List.Subset.trans h.deregistered h'.deregistered, fun hcoherent hlimit =>
    h'.coherent (h.coherent hcoherent (h'.serial.trans hlimit)) hlimit⟩

/-- A move that draws no identifier and does not end a deregistration. -/
theorem Follows.of_eq {s s' : Session} (hserial : s'.processor.engine.serial = s.processor.engine.serial)
    (hderegistered : s'.deregistered = s.deregistered) (h : s.Coherent → s'.Coherent) : s.Follows s' :=
  ⟨hserial.ge, hderegistered ▸ List.Subset.refl _, fun hcoherent _ => h hcoherent⟩

theorem serial_put (s : Session) (p : Process) (e : Engine) : (s.put p e).processor.engine.serial = e.serial :=
  congrArg Engine.serial (engine_putProcess ..)

section
variable (s : Session)

theorem follows_put {id : ProcessId} {p p' : Process} (hp : s.held id = some p)
    (hkeeps : p'.id = p.id ∧ p'.retained = p.retained) : s.Follows (s.put p' s.processor.engine) :=
  .of_eq (s.serial_put ..) rfl fun h => h.put hp hkeeps.1 hkeeps.2

theorem follows_register (d : ViewDefinition) (source : SnapshotSource) (options : ProcessOptions) :
    s.Follows (s.step (.register d source options)) := by
  simp only [step, register]
  split
  · next id r hregister =>
    obtain ⟨p, hregistered⟩ := registerProcess_eq_ok hregister
    have hserial : r.engine.serial = s.processor.engine.serial + 1 := by rw [hregistered.engine]
    refine ⟨hserial ▸ Nat.le_succ _, List.Subset.refl _, fun h hlimit => h.register ?_ hregistered⟩
    dsimp only at hlimit
    omega
  · exact .refl s

theorem follows_trigger (id : ProcessId) : s.Follows (s.step (.trigger id)) := by
  simp only [step, trigger]
  split
  · next r htrigger =>
    obtain ⟨p, hprocess, htrigger⟩ := bind_eq_ok.1 htrigger
    obtain ⟨p', hp', htrigger⟩ := bind_eq_ok.1 htrigger
    cases htrigger
    refine .of_eq rfl rfl fun h => ?_
    have hregistered := process_eq_ok.1 hprocess
    have hp : s.held id = some p := by rw [held, heldProcess?_eq, hregistered, Option.some_or]
    have hkeeps := Process.Call.trigger.keeps s.processor.engine p
    rw [Process.Call.apply, hp'] at hkeeps
    have hid : p'.id = id := hkeeps.1.trans (h.registry.keyed id p hp)
    have hput : s.processor.putProcess p' s.processor.engine =
        { s.processor with processes := s.processor.processes.insert id p' } := by
      rw [putProcess_of_registered (by simp [Table.contains, hid, hregistered]), hid]
    rw [← hput]
    exact h.put hp hkeeps.1 hkeeps.2
  · exact .refl s

theorem follows_letGo (id : ProcessId) : s.Follows (s.step (.letGo id)) := by
  simp only [step, letGo]
  split
  · next hid =>
    refine ⟨?_, List.subset_append_left .., fun h _ => h.letGo hid⟩
    dsimp only
    cases hformer : s.processor.formerProcesses.get? id with
    | none => simp [Processor.letGo, hformer]
    | some p =>
      obtain ⟨p', hgo⟩ := letGo_spec hformer
      rw [hgo.engine]
  · exact .refl s

theorem follows_wake (id : ProcessId) (w : Process.Wakeup) : s.Follows (s.step (.wake id w)) := by
  simp only [step, wake]
  split
  · exact .refl s
  next p hp =>
  split
  · exact .refl s
  split
  · exact s.follows_put hp ⟨rfl, rfl⟩
  split
  · have hkeeps := p.wake_keeps s.processor.engine w
    split
    · next p' hwake =>
      rw [hwake] at hkeeps
      exact s.follows_put hp hkeeps
    · next trigger p' hwake =>
      rw [hwake] at hkeeps
      refine .of_eq (s.serial_put ..) rfl fun h => (h.put hp hkeeps.1 hkeeps.2).opening ?_ rfl rfl
      exact s.isSome_held_put (h.registry.keyed id p hp) hkeeps.1 _ (Option.isSome_iff_exists.2 ⟨p, hp⟩)
  · exact .refl s

theorem follows_file (k : Nat) : s.Follows (s.step (.file k)) := by
  simp only [step, file]
  split
  · exact .refl s
  next r hk =>
  split
  · next p hcycle hp =>
    have hfile := step_file hk hcycle hp
    refine ⟨Nat.le_succ _, List.Subset.refl _, fun h hlimit => ?_⟩
    have hcoherent := h.file hlimit hk hcycle hp
    rwa [hfile] at hcoherent
  · exact .refl s

theorem follows_keep (k : Nat) : s.Follows (s.step (.keep k)) := by
  simp only [step, keep]
  split
  · exact .refl s
  next r hk =>
  split
  · next c p hcycle hnone hp =>
    have hkeep := step_keep hk hcycle hnone hp
    refine .of_eq (s.serial_put ..) rfl fun h => ?_
    have hcoherent := h.keep hk hcycle hnone hp
    rwa [hkeep] at hcoherent
  · exact .refl s

theorem follows_finish (k : Nat) (stops : Stops) : s.Follows (s.step (.finish k stops)) := by
  simp only [step, finish]
  split
  · exact .refl s
  next r hk =>
  split
  · next c inTime p hcycle hinTime hunfinished hp =>
    have hfinish := step_finish hk hcycle hinTime hunfinished hp stops
    refine .of_eq ?_ rfl fun h => ?_
    · obtain ⟨c', compiler, feeds, -, -, hengine⟩ := p.finish_engine s.processor.engine stops r.trigger c
      refine (s.serial_put ..).trans ?_
      rw [hengine]
      rfl
    · have hcoherent := h.finish hk hcycle hinTime hunfinished hp stops
      rwa [hfinish] at hcoherent
  · exact .refl s

theorem follows_step (m : Move) : s.Follows (s.step m) := by
  cases m with
  | call call =>
    have haside := call.aside s.processor
    exact ⟨haside.serial, List.Subset.refl _, fun h _ => h.aside haside⟩
  | register d source options => exact s.follows_register d source options
  | trigger id => exact s.follows_trigger id
  | remove id =>
    simp only [step, remove]
    split
    · next r hremove =>
      obtain ⟨p, hp, rfl⟩ := remove_eq_ok hremove
      exact .of_eq rfl rfl fun h => h.remove hp
    · exact .refl s
  | letGo id => exact s.follows_letGo id
  | hold id call =>
    simp only [step, hold]
    split
    · exact .refl s
    · next p hp => exact s.follows_put hp (call.keeps ..)
  | release id =>
    simp only [step, release]
    split
    · exact .refl s
    · next p hp => exact .of_eq (s.serial_put ..) rfl fun h => h.release hp
  | wake id w => exact s.follows_wake id w
  | run id trigger =>
    simp only [step, run]
    split
    · exact .refl s
    · next p hp => exact .of_eq rfl rfl fun h => h.opening (Option.isSome_iff_exists.2 ⟨p, hp⟩) rfl rfl
  | file k => exact s.follows_file k
  | keep k => exact s.follows_keep k
  | finish k stops => exact s.follows_finish k stops
  | elsewhere compiler feeds interleaving drawn now =>
    have haside : s.processor.Aside (s.elsewhere compiler feeds interleaving drawn now).processor :=
      ⟨rfl, rfl, rfl, Nat.le_add_right ..⟩
    exact ⟨haside.serial, List.Subset.refl _, fun h _ => h.aside haside⟩

theorem follows_after (moves : List Move) : s.Follows (s.after moves) := by
  induction moves generalizing s with
  | nil => exact .refl s
  | cons m moves ih => exact (s.follows_step m).trans (ih (s.step m))

end

/-! ## A session -/

theorem build_eq_ok {config : EngineConfig} {repository : Option FunctionRepository} {executor : Option Executor}
    {permission : Option PermissionProvider} {entitlements : Option EntitlementSource} {now : Instant} {r : Processor}
    (h : Processor.build config repository executor permission entitlements now = .ok r) :
    r.processes = ∅ ∧ r.formerProcesses = ∅ ∧ r.engine.cycles = ∅ := by
  obtain ⟨engine, provider, rfl, hcycles⟩ := build_fresh h
  exact ⟨rfl, rfl, hcycles⟩

/-- To begin with, no process is held and nothing is in the table. -/
theorem coherent_start {r : Processor} (hprocesses : r.processes = ∅) (hformer : r.formerProcesses = ∅)
    (hcycles : r.engine.cycles = ∅) : Coherent { processor := r } := by
  have hheld : ∀ id, ({ processor := r } : Session).held id = none := by
    intro id
    rw [held, heldProcess?_eq, hprocesses, hformer]
    rfl
  constructor
  case registry =>
    refine ⟨fun id p hp => ?_, fun id hid => ?_, fun id hid => ?_, fun id hid => ?_⟩
    · cases (hheld id).symm.trans hp
    · rw [hheld] at hid
      cases hid
    · cases hid <;> contradiction
    · rw [hheld] at hid
      cases hid
  case runs => exact ⟨by simp, by simp, by simp, by simp⟩
  case traced =>
    intro id c hc
    rw [hcycles, Table.get?_empty] at hc
    cases hc

/-- What can be looked up, and whose it is. -/
structure Owned (s : Session) : Prop where
  gone : ∀ id ∈ s.deregistered, s.processor.processes.get? id = none
  owner : ∀ id c, s.processor.engine.cycle id = .ok c → c.id = id ∧
    ((∃ p, s.processor.processes.get? c.process = some p) ∨ c.process ∈ s.leaving ∨ c.process ∈ s.deregistered)
  /-- What is left of a deregistered process was filed by a run that had yet to retain it then. -/
  late : ∀ id c, s.processor.engine.cycle id = .ok c → c.process ∈ s.deregistered →
    ∃ r ∈ s.runs, r.Filed id c.process ∧ r.inTime ≠ some true
  /-- If all runs retain their cycles in time, the table is that of the registered processes. -/
  clean : (∀ r ∈ s.runs, r.cycle ≠ none → r.inTime = some true) → s.leaving = [] →
    ∀ id c, s.processor.engine.cycle id = .ok c →
      ∃ p, s.processor.processes.get? c.process = some p ∧ id ∈ p.retained

theorem cycle_eq_ok {e : Engine} {id : CycleId} {c : Cycle} : e.cycle id = .ok c ↔ e.cycles.get? id = some c := by
  unfold Engine.cycle
  cases e.cycles.get? id <;> simp

theorem Coherent.owned {s : Session} (h : s.Coherent) : s.Owned := by
  have hout : ∀ id, id ∈ s.leaving ∨ id ∈ s.deregistered → s.processor.processes.get? id = none := by
    intro id hid
    simpa [Table.contains] using (h.registry.left id hid).1
  have howner : ∀ r ∈ s.runs, (∃ p, s.processor.processes.get? r.process = some p) ∨ r.process ∈ s.leaving ∨
      r.process ∈ s.deregistered := by
    intro r hr
    refine (h.registry.accounted r.process (h.runs.held r hr)).imp_left fun hin => ?_
    exact Option.isSome_iff_exists.1 hin
  constructor
  case gone => exact fun id hid => hout id (.inr hid)
  case owner =>
    intro id c hc
    obtain ⟨hid, k, r, hk, ⟨hprocess, -⟩, -⟩ := h.traced id c (cycle_eq_ok.1 hc)
    exact ⟨hid, hprocess ▸ howner r (List.mem_of_getElem? hk)⟩
  case late =>
    intro id c hc hgone
    obtain ⟨-, k, r, hk, hfiled, hinTime⟩ := h.traced id c (cycle_eq_ok.1 hc)
    exact ⟨r, List.mem_of_getElem? hk, hfiled, fun htrue => (hinTime htrue).1 hgone⟩
  case clean =>
    intro hall hnone id c hc
    obtain ⟨-, k, r, hk, hfiled, hinTime⟩ := h.traced id c (cycle_eq_ok.1 hc)
    have hr := List.mem_of_getElem? hk
    obtain ⟨hstays, p, hp, hmem⟩ := hinTime (hall r hr fun hcycle => by simp [RunCall.Filed, hcycle] at hfiled)
    obtain ⟨q, hq⟩ | hleaving | hgone := hfiled.1 ▸ howner r hr
    · rw [held, heldProcess?_eq, hq, Option.some_or] at hp
      cases hp
      exact ⟨p, hq, hmem⟩
    · rw [hnone] at hleaving
      cases hleaving
    · exact absurd hgone hstays

/-- However calls, runs and deregistrations fall together, all that can be looked up is of processes that are registered
or about to let it go, but for what runs retained after their process had been deregistered; and that stays so. -/
theorem after_owned {config : EngineConfig} {repository : Option FunctionRepository} {executor : Option Executor}
    {permission : Option PermissionProvider} {entitlements : Option EntitlementSource} {now : Instant} {r : Processor}
    (hbuild : Processor.build config repository executor permission entitlements now = .ok r) (moves more : List Move)
    (hserial : (Session.after { processor := r } (moves ++ more)).processor.engine.serial ≤ 16 ^ 32) :
    (Session.after { processor := r } (moves ++ more)).Owned ∧
      (Session.after { processor := r } moves).deregistered ⊆
        (Session.after { processor := r } (moves ++ more)).deregistered := by
  obtain ⟨hprocesses, hformer, hcycles⟩ := build_eq_ok hbuild
  refine ⟨((follows_after ..).coherent (coherent_start hprocesses hformer hcycles) hserial).owned, ?_⟩
  rw [after_append]
  exact (follows_after ..).deregistered

end Session
end Processor

namespace Demo

/-- The first process of a processor. -/
def first : ProcessId := .generate 0

/-- A process is registered and asked for a cycle. -/
def asking : List Processor.Move := [.call .start, .register singleView .unavailable {}, .trigger first]

/-- The process is deregistered, and then its loop takes up what it was asked for. -/
def tooLate : List Processor.Move :=
  [.remove first, .letGo first, .wake first .trigger, .file 0, .keep 0, .finish 0 Stops.none]

end Demo

namespace Processor
namespace Session

theorem demo_owned : ∃ r,
    Processor.build {} (some { functions := [Demo.single false] }) (some .nodeParallel) none none default = .ok r ∧
    (Session.after { processor := r } (Demo.asking ++ Demo.tooLate)).processor.engine.serial ≤ 16 ^ 32 ∧
    (Session.after { processor := r } (Demo.asking ++ Demo.tooLate)).Owned := by
  obtain ⟨r, hbuild⟩ : ∃ r, Processor.build {} (some { functions := [Demo.single false] }) (some .nodeParallel) none
      none default = .ok r := ⟨_, rfl⟩
  have hserial : (Session.after { processor := r } (Demo.asking ++ Demo.tooLate)).processor.engine.serial = 2 := by
    cases hbuild
    rfl
  have hlimit : (Session.after { processor := r } (Demo.asking ++ Demo.tooLate)).processor.engine.serial ≤ 16 ^ 32 := by
    rw [hserial]
    decide
  exact ⟨r, hbuild, hlimit, (after_owned hbuild Demo.asking Demo.tooLate hlimit).1⟩

/-- A cycle that a process was asked for before it was deregistered can be looked up after that. -/
theorem leaked : ∃ r id c,
    Processor.build {} (some { functions := [Demo.single false] }) (some .nodeParallel) none none default = .ok r ∧
    ((Session.after { processor := r } Demo.asking).processor.deregisterProcess Demo.first).isOk = true ∧
    (Session.after { processor := r } (Demo.asking ++ Demo.tooLate)).processor.engine.cycle id = .ok c ∧
    (Session.after { processor := r } (Demo.asking ++ Demo.tooLate)).deregistered = [c.process] ∧
    (Session.after { processor := r } (Demo.asking ++ Demo.tooLate)).processor.processes.get? c.process = none :=
  ⟨_, .generate 1, _, rfl, rfl, rfl, rfl, rfl⟩

end Session
end Processor
end Valuation
