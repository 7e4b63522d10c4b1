import Valuation.Process
import Valuation.Proofs.Demo
import Valuation.Proofs.Engine
import Valuation.Proofs.Graph.Resolution
import Valuation.Proofs.Table

/-!
# What running a cycle of a process comes to

However a stop and the failures on the way to a run fall together, running a cycle is never refused, and its cycle
ends (`runCycle_ran`). A move of the cycle can be refused when a stop has failed it before. As the cycle has ended
then, the process takes no notice of that. The process counts the cycle and gives notice of it, and retains it if it
retains any (`retained_none`). On its way to a run only one thing could go on without end, compiling the view, and over
finitely many requirements it does not (`runCycle_ends`).
-/
namespace Valuation

namespace Engine

/-! ## Taking a snapshot -/

/-- Taking a snapshot changes nothing of the engine but its feeds. -/
theorem engine_takeSnapshot (e : Engine) (source : SnapshotSource) :
    ∃ feeds, (e.takeSnapshot source).2 = { e with feeds } := by
  cases source with
  | unavailable => exact ⟨_, rfl⟩
  | fixed s => exact ⟨_, rfl⟩
  | live n =>
    simp only [takeSnapshot, updateFeed]
    cases e.feed? n with
    | none => exact ⟨_, rfl⟩
    | some feed => exact ⟨_, rfl⟩

/-- What is taken does not depend on the table of cycles and the supply of identifiers. -/
theorem takeSnapshot_congr (e : Engine) (source : SnapshotSource) (cycles : Table CycleId Cycle) (serial : Nat) :
    ({ e with cycles, serial }.takeSnapshot source).1 = (e.takeSnapshot source).1 := by
  cases source with
  | unavailable => rfl
  | fixed s => rfl
  | live n =>
    simp only [takeSnapshot, updateFeed, feed?]
    cases e.feeds[n]? with
    | none => rfl
    | some feed => rfl

end Engine

namespace Process

/-! ## Retaining -/

section
variable {p : Process} {e : Engine} {c : Cycle}

/-- A process that retains cycles retains the one that it files. -/
theorem getLast?_retain (h : 0 < e.cycleRetention) : (p.retain e c).1.retained.getLast? = some c.id := by
  have hsurplus : (p.retained ++ [c.id]).length - e.cycleRetention ≤ p.retained.length := by
    rw [List.length_append, List.length_singleton]
    omega
  simp only [retain]
  rw [List.drop_append_of_le_length hsurplus]
  exact List.getLast?_concat ..

theorem get?_retain (h : 0 < e.cycleRetention) (hfresh : c.id ∉ p.retained) :
    (p.retain e c).2.cycles.get? c.id = some c := by
  have hsurplus : (p.retained ++ [c.id]).length - e.cycleRetention ≤ p.retained.length := by
    rw [List.length_append, List.length_singleton]
    omega
  simp only [retain]
  rw [List.take_append_of_le_length hsurplus, Table.get?_foldl_erase,
    if_neg fun hmem => hfresh (List.mem_of_mem_take hmem), Table.get?_insert, if_pos rfl]

end

/-! ## Running a cycle -/

/-- What running a cycle has come to. -/
structure Ran (p : Process) (e : Engine) (stops : Stops) (trigger : CycleTrigger) (r : CycleRun) (c : Cycle) :
    Prop where
  result : r.result = .ok c
  id_eq : c.id = CycleId.generate e.serial
  terminal : c.state.isTerminal = true
  executed_iff : c.state = .executed ↔ ∃ s g, e.Goes stops p.definition (e.takeSnapshot p.source).1 {} s g
  recorded_iff : c.result.isSome = true ↔ c.state = .executed
  failed : c.state = .executionFailed → ∃ failure, c.failure = some failure ∧
    e.FailsFor stops p.definition (e.takeSnapshot p.source).1 {} failure
  cyclesRun : r.process.cyclesRun = p.cyclesRun + 1
  notices : r.process.notices = p.notices.send ⟨p.id, c.id, c.state, trigger⟩
  retained : 0 < e.cycleRetention → r.process.retained.getLast? = some c.id
  filed : 0 < e.cycleRetention → c.id ∉ p.retained → r.engine.cycles.get? c.id = some c

section
variable {p : Process} {e : Engine} {stops : Stops}

theorem exists_stop (p : Process) : ∃ stopping, p.stop = { p with stopping } := by
  unfold stop
  split
  · exact ⟨_, rfl⟩
  · exact ⟨p.stopping, rfl⟩

/-- Taking a cycle to its end changes nothing of the process but whether it is told to stop, its count and its notices,
and nothing of the engine but its compiler and its table. -/
theorem finishCycle_keeps (p : Process) (e : Engine) (stops : Stops) (trigger : CycleTrigger) (c : Cycle)
    (source : Except EngineError Snapshot) :
    (∃ stopping cyclesRun notices,
      (p.finishCycle e stops trigger c source).process = { p with stopping, cyclesRun, notices }) ∧
    ∃ compiler cycles, (p.finishCycle e stops trigger c source).engine = { e with compiler, cycles } := by
  obtain ⟨compiler, -, hengine⟩ := e.engine_perform stops p.definition c source
  obtain ⟨stopping, hstop⟩ := p.exists_stop
  unfold finishCycle
  simp only [hstop, hengine]
  split
  · split <;> exact ⟨⟨_, _, _, rfl⟩, _, _, rfl⟩
  · split <;> split <;> exact ⟨⟨_, _, _, rfl⟩, _, _, rfl⟩

/-- A cycle that has been performed is given back, counted and announced, also if a move was refused. -/
theorem finishCycle_of_performed {e' : Engine} (trigger : CycleTrigger) {c : Cycle}
    {source : Except EngineError Snapshot}
    (h : Engine.Performed e stops p.definition source c (e'.perform stops p.definition c source)) :
    let r := p.finishCycle e' stops trigger c source
    let c' := (e'.perform stops p.definition c source).cycle
    r.result = .ok c' ∧ r.process.cyclesRun = p.cyclesRun + 1 ∧ r.process.retained = p.retained ∧
      r.process.notices = p.notices.send ⟨p.id, c'.id, c'.state, trigger⟩ ∧
      r.engine = (e'.perform stops p.definition c source).engine.updateCycle c' := by
  obtain ⟨stopping, hstop⟩ : ∃ stopping,
      (if (e'.perform stops p.definition c source).stopped = true then p.stop else p) = { p with stopping } := by
    split
    · exact exists_stop p
    · exact ⟨_, rfl⟩
  unfold finishCycle
  simp only [hstop]
  split
  · exact ⟨rfl, rfl, rfl, rfl, rfl⟩
  · rw [if_pos h.ends.terminal]
    exact ⟨rfl, rfl, rfl, rfl, rfl⟩

theorem runCycle_eq (p : Process) (e : Engine) (stops : Stops) (trigger : CycleTrigger) :
    ∃ feeds, p.runCycle e stops trigger = (p.beginCycle e).2.1.finishCycle { (p.beginCycle e).2.2 with feeds } stops
      trigger (p.beginCycle e).1 (e.takeSnapshot p.source).1 := by
  obtain ⟨feeds, hfeeds⟩ := (p.beginCycle e).2.2.engine_takeSnapshot p.source
  have hsource : ((p.beginCycle e).2.2.takeSnapshot p.source).1 = (e.takeSnapshot p.source).1 :=
    e.takeSnapshot_congr ..
  refine ⟨feeds, ?_⟩
  rw [← hfeeds, ← hsource]
  rfl

/-- However it is stopped and whatever fails, running a cycle ends the cycle, counts it and gives notice of it, and
retains it if the process retains any. A compilation without an answer counts as one that fails here. -/
theorem runCycle_ran (p : Process) (e : Engine) (stops : Stops) (trigger : CycleTrigger) :
    ∃ c, Ran p e stops trigger (p.runCycle e stops trigger) c := by
  obtain ⟨feeds, hrun⟩ := p.runCycle_eq e stops trigger
  obtain ⟨c, hc⟩ : ∃ c, c = (p.beginCycle e).1 := ⟨_, rfl⟩
  obtain ⟨p', hp'⟩ : ∃ p', p' = (p.beginCycle e).2.1 := ⟨_, rfl⟩
  obtain ⟨e', he'⟩ : ∃ e' : Engine, e' = { (p.beginCycle e).2.2 with feeds } := ⟨_, rfl⟩
  rw [hrun, ← hc, ← hp', ← he']
  have hdefinition : p'.definition = p.definition := by rw [hp']; rfl
  have hfresh : c.Fresh := hc ▸ ⟨rfl, rfl, rfl, rfl⟩
  have hcontrol : c.control = {} := by rw [hc]; rfl
  have hperformed : Engine.Performed e stops p'.definition (e.takeSnapshot p.source).1 c
      (e'.perform stops p'.definition c (e.takeSnapshot p.source).1) :=
    Engine.perform_performed hfresh _ (by rw [he']; rfl) (by rw [he']; rfl) (by rw [he']; rfl)
  obtain ⟨hresult, hcyclesRun, hretained, hnotices, hengine⟩ := finishCycle_of_performed trigger hperformed
  obtain ⟨compiler, -, hperform⟩ := e'.engine_perform stops p'.definition c (e.takeSnapshot p.source).1
  generalize e'.perform stops p'.definition c (e.takeSnapshot p.source).1 = performance at *
  obtain ⟨hends, hid, -⟩ := hperformed
  rw [hdefinition] at hends
  refine ⟨performance.cycle, hresult, by rw [hid, hc]; rfl, hends.terminal, hcontrol ▸ hends.executed_iff,
    hends.result_isSome_iff, hcontrol ▸ hends.failure, ?_, ?_, fun h => ?_, fun h hnot => ?_⟩
  · rw [hcyclesRun, hp']
    rfl
  · rw [hnotices, hp']
    rfl
  · rw [hretained, hid, hc, hp']
    exact getLast?_retain h
  · have hnew : e'.cycles.get? c.id = some c := by
      rw [hid, hc] at hnot
      rw [he', hc]
      exact get?_retain h hnot
    rw [hengine, hperform]
    refine (Table.get?_modify ..).trans ?_
    rw [if_pos rfl, hid, hnew]
    rfl

/-- A process whose view requires finitely many specifications wherever it comes to compile it: what it compiles has an
answer, and so its cycle ends, however it is stopped and whatever fails. It is counted, notice is given of it, and the
process retains it if it retains any. -/
theorem runCycle_ends (p : Process) (e : Engine) (stops : Stops) (trigger : CycleTrigger)
    (hfinite : ∀ s, (e.takeSnapshot p.source).1 = .ok s → s.state.reaches .complete = true →
      {t | Required e.compiler.repository p.definition.terminals t}.Finite) :
    (∀ s, (e.takeSnapshot p.source).1 = .ok s → s.state.reaches .complete = true → ∃ answer,
      Graph.resolveAll e.compiler.repository s.availability [] [] p.definition.terminals = some answer) ∧
    ∃ c, Ran p e stops trigger (p.runCycle e stops trigger) c :=
  ⟨fun s hs hready => Graph.resolveAll_isSome (hfinite s hs hready) [] [], runCycle_ran p e stops trigger⟩

/-- A value for the single view, in a snapshot that is sealed. -/
def quotedSnapshot : Snapshot :=
  { id := default, state := .sealed, values := .ofList [(Demo.quoted.marketDataKey, .text "100")] }

/-- A process that takes this snapshot. -/
def quotingProcess : Process := { Demo.process with source := .fixed quotedSnapshot }

/-- The process compiles its view, runs it and retains the cycle. -/
theorem demo_runCycle_ends :
    (∀ s, (Demo.quotes.takeSnapshot quotingProcess.source).1 = .ok s → s.state.reaches .complete = true →
      {t | Required Demo.quotes.compiler.repository quotingProcess.definition.terminals t}.Finite) ∧
    0 < Demo.quotes.cycleRetention ∧
    ∃ c, c.id ∉ quotingProcess.retained ∧ c.state = .executed ∧ c.result.isSome = true ∧
      (quotingProcess.runCycle Demo.quotes Stops.none .manual).result = .ok c ∧
      (quotingProcess.runCycle Demo.quotes Stops.none .manual).process.retained.getLast? = some c.id ∧
      (quotingProcess.runCycle Demo.quotes Stops.none .manual).engine.cycles.get? c.id = some c := by
  have hfinite : ∀ s, (Demo.quotes.takeSnapshot quotingProcess.source).1 = .ok s → s.state.reaches .complete = true →
      {t | Required Demo.quotes.compiler.repository quotingProcess.definition.terminals t}.Finite := by
    intro _ _ _
    have hlayered : Layered Demo.quotes.compiler.repository fun _ => 0 := fun _ _ ht => nomatch ht
    exact hlayered.finite_required _
  have hretains : 0 < Demo.quotes.cycleRetention := by decide
  have hcompiled : (Demo.quotes.compiler.compile quotingProcess.definition quotedSnapshot.availability).1 =
      .ok ⟨0, Demo.quotedGraph⟩ := by
    have hmiss : Demo.quotes.compiler.lookup (GraphCompiler.key quotingProcess.definition quotedSnapshot.availability) =
      (none, { Demo.quotes.compiler with misses := 1 }) := rfl
    have hcompile : { Demo.quotes.compiler with misses := 1 }.compileUncached quotingProcess.definition
      quotedSnapshot.availability = .ok Demo.quotedGraph := Demo.compile_quoted rfl
    simp only [GraphCompiler.compile, hmiss, hcompile]
    rfl
  have hgoes : Demo.quotes.Goes Stops.none quotingProcess.definition
      (Demo.quotes.takeSnapshot quotingProcess.source).1 {} quotedSnapshot ⟨0, Demo.quotedGraph⟩ :=
    ⟨⟨rfl, rfl, hcompiled⟩, rfl, rfl, rfl, rfl⟩
  obtain ⟨-, c, h⟩ := runCycle_ends quotingProcess Demo.quotes Stops.none .manual hfinite
  have hexecuted : c.state = .executed := h.executed_iff.2 ⟨_, _, hgoes⟩
  exact ⟨hfinite, hretains, c, List.not_mem_nil, hexecuted, h.recorded_iff.2 hexecuted, h.result, h.retained hretains,
    h.filed hretains List.not_mem_nil⟩

/-- A process that is told to retain no cycle gives its cycle back, but does not retain it. -/
theorem retained_none : ∃ c,
    (Demo.process.runCycle { Demo.engine with cycleRetention := 0 } Stops.none .manual).result = .ok c ∧
    (Demo.process.runCycle { Demo.engine with cycleRetention := 0 } Stops.none .manual).process.retained = [] ∧
    (Demo.process.runCycle { Demo.engine with cycleRetention := 0 } Stops.none .manual).engine.cycles.get? c.id =
      none :=
  ⟨_, rfl, rfl, rfl⟩

end

end Process
end Valuation
