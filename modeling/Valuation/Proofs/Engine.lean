import Valuation.Batch
import Valuation.Proofs.Cycle

/-!
# What performing a cycle comes to

A stop may reach a cycle at any point while it is performed. A cycle that is stopped before it begins has failed
as cancelled, and every move that is still to come is refused. Whatever the stops, the cycle ends: it executes the
graph that the compiler gives for the snapshot, and has the result model of that run, or else it fails for the
first cause that takes effect (`perform_performed`). A move is refused only if a stop came, so performing the cycle of a
batch, which nothing stops, is never refused (`performJob_spec`).
-/
namespace Valuation

/-! ## Cycles that were stopped -/

namespace Cycle

/-- A cycle that nobody has touched yet. -/
structure Fresh (c : Cycle) : Prop where
  state : c.state = .awaitingExecution
  flag : c.control.cancelled = false
  failure : c.failure = none
  result : c.result = none

/-- A cycle that was cancelled before it began. -/
structure Gone (c : Cycle) : Prop where
  state : c.state = .executionFailed
  failure : c.failure = some .cancelled
  result : c.result = none

section
variable {c : Cycle}

theorem Fresh.cancel (h : c.Fresh) : c.cancel.Gone := by
  have hraised : c.raise.state = .awaitingExecution := h.state
  dsimp only [Cycle.cancel]
  rw [if_pos hraised]
  exact ⟨rfl, rfl, h.result⟩

theorem Gone.cancel (h : c.Gone) : c.cancel.Gone := by
  have hraised : c.raise.state = .executionFailed := h.state
  dsimp only [Cycle.cancel]
  rw [if_neg (by rw [hraised]; decide)]
  exact ⟨h.state, h.failure, h.result⟩

theorem Gone.stopAt (h : c.Gone) (stops : Stops) (p : StopPoint) : (c.stopAt stops p).Gone := by
  unfold Cycle.stopAt
  split
  · exact h.cancel
  · exact h

theorem Fresh.stopAt (h : c.Fresh) {stops : Stops} {p : StopPoint} (hstop : stops p = true) :
    (c.stopAt stops p).Gone := by
  rw [Cycle.stopAt, if_pos hstop]
  exact h.cancel

/-- A stop that comes while a cycle executes raises its flag. -/
theorem stopAt_of_executing (hstate : c.state = .executing) (hflag : c.control.cancelled = false) (stops : Stops)
    (p : StopPoint) : c.stopAt stops p = { c with control := { c.control with cancelled := stops p } } := by
  unfold Cycle.stopAt
  by_cases hstop : stops p = true
  · have hraised : c.raise.state = .executing := hstate
    rw [if_pos hstop, hstop]
    dsimp only [Cycle.cancel]
    rw [if_neg (by rw [hraised]; decide)]
    rfl
  · rw [if_neg hstop, Bool.eq_false_iff.2 hstop, ← hflag]

theorem Gone.transition (h : c.Gone) (next : CycleState) : ∃ err, c.transition next = .error err := by
  refine ⟨_, if_neg ?_⟩
  rw [h.state]
  cases next <;> decide

theorem Gone.fail (h : c.Gone) (now : Instant) (failure : CycleFailure) : ∃ err, c.fail now failure = .error err := by
  obtain ⟨err, herr⟩ := h.transition .executionFailed
  exact ⟨err, by rw [Cycle.fail, herr]; rfl⟩

theorem Gone.begin (h : c.Gone) (now : Instant) (s : Snapshot) (g : Graph) :
    ∃ err, c.begin now s g = .error err := by
  obtain ⟨err, herr⟩ := h.transition .executing
  exact ⟨err, by rw [Cycle.begin, herr]; rfl⟩

@[simp] theorem cancel_id (c : Cycle) : c.cancel.id = c.id := by
  dsimp only [Cycle.cancel]
  split <;> rfl

@[simp] theorem stopAt_id (c : Cycle) (stops : Stops) (p : StopPoint) : (c.stopAt stops p).id = c.id := by
  unfold Cycle.stopAt
  split
  · exact cancel_id c
  · rfl

end

end Cycle

@[simp] theorem Cycle.stopAt_none (c : Cycle) (p : StopPoint) : c.stopAt Stops.none p = c := rfl

@[simp] theorem Performance.orStopped_none (p : Performance) (point : StopPoint) :
    p.orStopped (Stops.none point) = p := by
  simp [orStopped, Stops.none]

namespace Engine

/-! ## What a cycle needs, and why it fails -/

/-- What a cycle needs: a snapshot that is at least complete, and a graph compiled against it. -/
structure Obtains (e : Engine) (d : ViewDefinition) (source : Except EngineError Snapshot) (s : Snapshot)
    (g : CompiledGraph) : Prop where
  given : source = .ok s
  ready : s.state.reaches .complete = true
  compiled : (e.compiler.compile d s.availability).1 = .ok g

/-- What a cycle may lack, and the failure that this is. -/
inductive Lacks (e : Engine) (d : ViewDefinition) (source : Except EngineError Snapshot) : CycleFailure → Prop
  | unavailable (err : EngineError) (given : source = .error err) : Lacks e d source (.noSnapshot err.message)
  | unready (s : Snapshot) (given : source = .ok s) (unready : s.state.reaches .complete = false) :
    Lacks e d source (.noSnapshot s.notReady)
  | uncompiled (s : Snapshot) (err : EngineError) (given : source = .ok s)
    (ready : s.state.reaches .complete = true)
    (compiled : (e.compiler.compile d s.availability).1 = .error err) : Lacks e d source (.compilation err.message)

/-- The run of a cycle with a control, if it comes to it. -/
def runOf (e : Engine) (stops : Stops) (control : Control) (s : Snapshot) (g : CompiledGraph) : ExecutionOutcome :=
  e.executor.runUnder e.interleaving g.graph s { control with cancelled := stops .executing }

/-- Why a cycle fails. What it lacks is its failure unless a stop comes first. -/
inductive FailsFor (e : Engine) (stops : Stops) (d : ViewDefinition) (source : Except EngineError Snapshot)
    (control : Control) : CycleFailure → Prop
  | stopped (first : stops .takingSnapshot = true) : FailsFor e stops d source control .cancelled
  | lacking (failure : CycleFailure) (goes : stops .takingSnapshot = false) (goesOn : stops .failing = false)
    (lacks : e.Lacks d source failure) : FailsFor e stops d source control failure
  | stoppedLacking (failure : CycleFailure) (goes : stops .takingSnapshot = false) (stopped : stops .failing = true)
    (lacks : e.Lacks d source failure) : FailsFor e stops d source control .cancelled
  | stoppedBefore (s : Snapshot) (g : CompiledGraph) (goes : stops .takingSnapshot = false)
    (obtains : e.Obtains d source s g) (stopped : stops .compiling = true ∨ stops .beginning = true) :
    FailsFor e stops d source control .cancelled
  | stoppedRunning (s : Snapshot) (g : CompiledGraph) (goes : stops .takingSnapshot = false)
    (obtains : e.Obtains d source s g) (goesOn : stops .compiling = false) (begins : stops .beginning = false)
    (cancelled : (e.runOf stops control s g).cancelled = true) : FailsFor e stops d source control .cancelled

/-- A cycle has all that it needs, and nothing stops it before or while it runs. -/
structure Goes (e : Engine) (stops : Stops) (d : ViewDefinition) (source : Except EngineError Snapshot)
    (control : Control) (s : Snapshot) (g : CompiledGraph) : Prop where
  obtains : e.Obtains d source s g
  takingSnapshot : stops .takingSnapshot = false
  compiling : stops .compiling = false
  beginning : stops .beginning = false
  uncancelled : (e.runOf stops control s g).cancelled = false

/-- How a cycle ends. -/
inductive Ends (e : Engine) (stops : Stops) (d : ViewDefinition) (source : Except EngineError Snapshot)
    (c c' : Cycle) : Prop
  | failed (failure : CycleFailure) (fails : e.FailsFor stops d source c.control failure)
    (state : c'.state = .executionFailed) (recorded : c'.failure = some failure) (result : c'.result = none)
  | executed (s : Snapshot) (g : CompiledGraph) (goes : e.Goes stops d source c.control s g)
    (state : c'.state = .executed) (recorded : c'.failure = none) (graph : c'.graph = some g.graph)
    (result : c'.result = some (ResultModel.build c.id c.options.valuationTime g.graph
      (e.runOf stops c.control s g).cache (e.runOf stops c.control s g).failures c.resultOptions))

section
variable {e : Engine} {stops : Stops} {d : ViewDefinition} {source : Except EngineError Snapshot} {control : Control}

theorem Obtains.unique {s s' : Snapshot} {g g' : CompiledGraph} (h : e.Obtains d source s g)
    (h' : e.Obtains d source s' g') : s = s' ∧ g = g' := by
  obtain rfl : s = s' := Except.ok.inj (h.given.symm.trans h'.given)
  exact ⟨rfl, Except.ok.inj (h.compiled.symm.trans h'.compiled)⟩

theorem Lacks.not_obtains {failure : CycleFailure} (h : e.Lacks d source failure) {s : Snapshot} {g : CompiledGraph} :
    ¬e.Obtains d source s g := by
  intro hobtains
  have hgiven := hobtains.given
  cases h with
  | unavailable err given => cases given.symm.trans hgiven
  | unready s' given unready =>
    obtain rfl : s' = s := Except.ok.inj (given.symm.trans hgiven)
    cases unready.symm.trans hobtains.ready
  | uncompiled s' err given _ compiled =>
    obtain rfl : s' = s := Except.ok.inj (given.symm.trans hgiven)
    cases compiled.symm.trans hobtains.compiled

theorem FailsFor.not_goes {failure : CycleFailure} (h : e.FailsFor stops d source control failure) {s : Snapshot}
    {g : CompiledGraph} : ¬e.Goes stops d source control s g := by
  intro hgoes
  cases h with
  | stopped first => cases first.symm.trans hgoes.takingSnapshot
  | lacking _ _ _ lacks => exact lacks.not_obtains hgoes.obtains
  | stoppedLacking _ _ _ lacks => exact lacks.not_obtains hgoes.obtains
  | stoppedBefore _ _ _ _ stopped =>
    rcases stopped with stopped | stopped
    · cases stopped.symm.trans hgoes.compiling
    · cases stopped.symm.trans hgoes.beginning
  | stoppedRunning s' g' _ obtains _ _ cancelled =>
    obtain ⟨rfl, rfl⟩ := obtains.unique hgoes.obtains
    cases cancelled.symm.trans hgoes.uncancelled

/-- A cycle executes just if it has all that it needs and nothing stops it. -/
theorem Ends.executed_iff {c c' : Cycle} (h : e.Ends stops d source c c') :
    c'.state = .executed ↔ ∃ s g, e.Goes stops d source c.control s g := by
  cases h with
  | failed failure fails state =>
    rw [state]
    exact iff_of_false nofun fun ⟨_, _, hgoes⟩ => fails.not_goes hgoes
  | executed s g goes state => exact iff_of_true state ⟨s, g, goes⟩

/-- A cycle has a result just if it has executed. -/
theorem Ends.result_isSome_iff {c c' : Cycle} (h : e.Ends stops d source c c') :
    c'.result.isSome = true ↔ c'.state = .executed := by
  cases h with
  | failed _ _ state _ result =>
    rw [state, result]
    exact iff_of_false nofun nofun
  | executed _ _ _ state _ _ result =>
    rw [state, result]
    exact iff_of_true rfl rfl

theorem Ends.failure {c c' : Cycle} (h : e.Ends stops d source c c') (hfailed : c'.state = .executionFailed) :
    ∃ failure, c'.failure = some failure ∧ e.FailsFor stops d source c.control failure := by
  cases h with
  | failed failure fails _ recorded => exact ⟨failure, recorded, fails⟩
  | executed _ _ _ state => cases hfailed.symm.trans state

theorem Ends.terminal {c c' : Cycle} (h : e.Ends stops d source c c') : c'.state.isTerminal = true := by
  cases h with
  | failed _ _ state => rw [state]; rfl
  | executed _ _ _ state => rw [state]; rfl

end

/-! ## Performing a cycle -/

/-- Performing has failed because the cycle was cancelled before. -/
structure Refused (p : Performance) (c : Cycle) : Prop where
  gone : p.cycle.Gone
  id_eq : p.cycle.id = c.id
  error : p.error.isSome = true

section
variable {e : Engine} {stops : Stops} {d : ViewDefinition} {c : Cycle}

theorem Refused.orStopped {p : Performance} (h : Refused p c) (stopped : Bool) : Refused (p.orStopped stopped) c :=
  ⟨h.gone, h.id_eq, h.error⟩

theorem Refused.of_stopAt {p : Performance} {point : StopPoint} (h : Refused p (c.stopAt stops point)) :
    Refused p c :=
  ⟨h.gone, h.id_eq.trans (Cycle.stopAt_id ..), h.error⟩

theorem refused_ofMove (h : c.Gone) {moved : Except EngineError Cycle} (hmoved : ∃ err, moved = .error err) :
    Refused (Performance.ofMove e c moved) c := by
  obtain ⟨err, rfl⟩ := hmoved
  exact ⟨h, rfl, rfl⟩

theorem refused_performFailure (h : (c.stopAt stops .failing).Gone) (failure : CycleFailure) :
    Refused (e.performFailure stops c failure) c :=
  ((refused_ofMove h (h.fail e.now failure)).orStopped _).of_stopAt

theorem refused_performRun (h : (c.stopAt stops .beginning).Gone) (s : Snapshot) (g : Graph) :
    Refused (e.performRun stops c s g) c := by
  obtain ⟨err, herr⟩ := h.begin e.now s g
  simp only [performRun, herr]
  exact ⟨h, Cycle.stopAt_id .., rfl⟩

theorem refused_performGraph (h : (c.stopAt stops .compiling).Gone) (s : Snapshot) (g : Graph) :
    Refused (e.performGraph stops c s g) c := by
  unfold performGraph
  dsimp only
  split
  · exact ((refused_ofMove h (h.fail e.now .cancelled)).orStopped _).of_stopAt
  · exact ((refused_performRun (h.stopAt stops .beginning) s g).orStopped _).of_stopAt

theorem refused_performSnapshot (h : c.Gone) (source : Except EngineError Snapshot) :
    Refused (e.performSnapshot stops d c source) c := by
  unfold performSnapshot
  split
  · exact refused_performFailure (h.stopAt stops .failing) _
  · split
    · exact refused_performFailure (h.stopAt stops .failing) _
    · dsimp only
      split
      · exact refused_performFailure (h.stopAt stops .failing) _
      · exact refused_performGraph (h.stopAt stops .compiling) _ _

/-- What performing a fresh cycle comes to. -/
structure Performed (e : Engine) (stops : Stops) (d : ViewDefinition) (source : Except EngineError Snapshot)
    (c : Cycle) (p : Performance) : Prop where
  ends : e.Ends stops d source c p.cycle
  id_eq : p.cycle.id = c.id
  stopped_of_error : p.error.isSome = true → ∃ point, stops point = true

theorem Refused.performed {source : Except EngineError Snapshot} {p : Performance} (h : Refused p c)
    (hfails : e.FailsFor stops d source c.control .cancelled) {point : StopPoint} (hstop : stops point = true) :
    Performed e stops d source c p :=
  ⟨.failed .cancelled hfails h.gone.state h.gone.failure h.gone.result, h.id_eq, fun _ => ⟨point, hstop⟩⟩

theorem Performed.orStopped {source : Except EngineError Snapshot} {p : Performance}
    (h : Performed e stops d source c p) (stopped : Bool) : Performed e stops d source c (p.orStopped stopped) :=
  ⟨h.ends, h.id_eq, h.stopped_of_error⟩

theorem performFailure_performed (h : c.Fresh) {source : Except EngineError Snapshot} {failure : CycleFailure}
    (hgoes : stops .takingSnapshot = false) (hlacks : e.Lacks d source failure) (e' : Engine) :
    Performed e stops d source c (e'.performFailure stops c failure) := by
  by_cases hstop : stops .failing = true
  · have hrefused := refused_performFailure (e := e') (h.stopAt hstop) failure
    exact hrefused.performed (.stoppedLacking failure hgoes hstop hlacks) hstop
  · have hsame : c.stopAt stops .failing = c := if_neg hstop
    simp only [performFailure, hsame, Cycle.fail_of_waiting _ h.state]
    exact ⟨.failed failure (.lacking failure hgoes (by simpa using hstop) hlacks) rfl rfl h.result, rfl, nofun⟩

theorem performRun_performed (h : c.Fresh) {source : Except EngineError Snapshot} {s : Snapshot} {g : CompiledGraph}
    (hgoes : stops .takingSnapshot = false) (hobtains : e.Obtains d source s g) (hgoesOn : stops .compiling = false)
    {e' : Engine} (hexecutor : e'.executor = e.executor) (hinterleaving : e'.interleaving = e.interleaving) :
    Performed e stops d source c (e'.performRun stops c s g.graph) := by
  by_cases hstop : stops .beginning = true
  · have hrefused := refused_performRun (e := e') (h.stopAt hstop) s g.graph
    exact hrefused.performed (.stoppedBefore s g hgoes hobtains (.inr hstop)) hstop
  · have hbegins : stops .beginning = false := by simpa using hstop
    have hsame : c.stopAt stops .beginning = c := if_neg hstop
    simp only [performRun, hsame, Cycle.begin_of_waiting _ h.state]
    generalize hbegun : { c with
      state := .executing, startedAt := some e'.now, snapshot := some s, graph := some g.graph } = b
    have hb : b.state = .executing ∧ b.control = c.control := by
      rw [← hbegun]
      exact ⟨rfl, rfl⟩
    rw [Cycle.stopAt_of_executing hb.1 (by rw [hb.2, h.flag])]
    obtain ⟨control, hrun⟩ := Cycle.run_eq { b with control := { b.control with cancelled := stops .executing } }
      e'.executor s g.graph e'.interleaving
    rw [hrun, hexecutor, hinterleaving]
    dsimp only
    rw [hb.2]
    have ho : e.executor.runUnder e.interleaving g.graph s { c.control with cancelled := stops .executing } =
        e.runOf stops c.control s g := rfl
    rw [ho]
    obtain ⟨c', hcomplete, -⟩ := Cycle.complete_of_executing (c := { b with control }) e'.now hb.1
      (by rw [← hbegun]) (e.runOf stops c.control s g)
    obtain ⟨g', hg', ⟨hcancelled, -, rfl⟩ | ⟨huncancelled, -, rfl⟩⟩ := Cycle.complete_eq_ok hcomplete
    · simp only [hcomplete, Performance.ofMove]
      subst hbegun
      exact ⟨.failed .cancelled (.stoppedRunning s g hgoes hobtains hgoesOn hbegins hcancelled) rfl rfl h.result, rfl,
        nofun⟩
    · simp only [hcomplete, Performance.ofMove]
      subst hbegun
      cases hg'
      exact ⟨.executed s g ⟨hobtains, hgoes, hgoesOn, hbegins, huncancelled⟩ rfl h.failure rfl rfl, rfl, nofun⟩

theorem performGraph_performed (h : c.Fresh) {source : Except EngineError Snapshot} {s : Snapshot} {g : CompiledGraph}
    (hgoes : stops .takingSnapshot = false) (hobtains : e.Obtains d source s g) {e' : Engine}
    (hexecutor : e'.executor = e.executor) (hinterleaving : e'.interleaving = e.interleaving) :
    Performed e stops d source c (e'.performGraph stops c s g.graph) := by
  by_cases hstop : stops .compiling = true
  · have hrefused := refused_performGraph (e := e') (h.stopAt hstop) s g.graph
    exact hrefused.performed (.stoppedBefore s g hgoes hobtains (.inl hstop)) hstop
  · have hsame : c.stopAt stops .compiling = c := if_neg hstop
    simp only [performGraph, hsame, h.flag, Bool.false_eq_true, if_false]
    exact (performRun_performed h hgoes hobtains (by simpa using hstop) hexecutor hinterleaving).orStopped _

theorem performSnapshot_performed (h : c.Fresh) (hgoes : stops .takingSnapshot = false)
    (source : Except EngineError Snapshot) {e' : Engine} (hcompiler : e'.compiler = e.compiler)
    (hexecutor : e'.executor = e.executor) (hinterleaving : e'.interleaving = e.interleaving) :
    Performed e stops d source c (e'.performSnapshot stops d c source) := by
  unfold performSnapshot
  rw [hcompiler]
  split
  · next err => exact performFailure_performed h hgoes (.unavailable err rfl) e'
  next s =>
  split
  · next hunready => exact performFailure_performed h hgoes (.unready s rfl (by simpa using hunready)) e'
  next hready =>
  have hready : s.state.reaches .complete = true := by simpa using hready
  dsimp only
  split
  · next err hcompiled => exact performFailure_performed h hgoes (.uncompiled s err rfl hready hcompiled) _
  · next g hcompiled => exact performGraph_performed h hgoes ⟨rfl, hready, hcompiled⟩ hexecutor hinterleaving

/-- Whatever stops it, a fresh cycle that is performed ends, and a move is refused only if a stop came. All that
counts of the engine is how it compiles and runs. -/
theorem perform_performed (h : c.Fresh) (source : Except EngineError Snapshot) {e' : Engine}
    (hcompiler : e'.compiler = e.compiler) (hexecutor : e'.executor = e.executor)
    (hinterleaving : e'.interleaving = e.interleaving) :
    Performed e stops d source c (e'.perform stops d c source) := by
  by_cases hstop : stops .takingSnapshot = true
  · have hrefused : Refused (e'.performSnapshot stops d (c.stopAt stops .takingSnapshot) source) _ :=
      refused_performSnapshot (h.stopAt hstop) source
    exact (hrefused.of_stopAt.orStopped _).performed (.stopped hstop) hstop
  · have hsame : c.stopAt stops .takingSnapshot = c := if_neg hstop
    rw [perform, hsame]
    exact (performSnapshot_performed h (by simpa using hstop) source hcompiler hexecutor hinterleaving).orStopped _

/-! ### The engine afterwards -/

theorem engine_ofMove (e : Engine) (c : Cycle) (moved : Except EngineError Cycle) :
    (Performance.ofMove e c moved).engine = e := by
  cases moved <;> rfl

theorem engine_performFailure (e : Engine) (stops : Stops) (c : Cycle) (failure : CycleFailure) :
    (e.performFailure stops c failure).engine = e :=
  engine_ofMove ..

theorem engine_performGraph (e : Engine) (stops : Stops) (c : Cycle) (s : Snapshot) (g : Graph) :
    (e.performGraph stops c s g).engine = e := by
  unfold performGraph Performance.orStopped
  dsimp only
  split
  · exact engine_ofMove ..
  · unfold performRun
    dsimp only
    split
    · rfl
    · exact engine_ofMove ..

/-- Performing changes nothing of the engine but its compiler, which may have been asked for the graph. -/
theorem engine_perform (e : Engine) (stops : Stops) (d : ViewDefinition) (c : Cycle)
    (source : Except EngineError Snapshot) :
    ∃ compiler, (compiler = e.compiler ∨
        ∃ s, source = .ok s ∧ compiler = (e.compiler.compile d s.availability).2) ∧
      (e.perform stops d c source).engine = { e with compiler } := by
  unfold perform performSnapshot Performance.orStopped
  dsimp only
  split
  · exact ⟨_, .inl rfl, engine_performFailure ..⟩
  next s =>
  split
  · exact ⟨_, .inl rfl, engine_performFailure ..⟩
  split
  · exact ⟨_, .inr ⟨s, rfl, rfl⟩, engine_performFailure ..⟩
  · exact ⟨_, .inr ⟨s, rfl, rfl⟩, engine_performGraph ..⟩

end

end Engine

namespace BatchManager

/-- How the cycle of a batch ends. -/
inductive Performed (e : Engine) (job : BatchJob) (s : Snapshot) (d : ViewDefinition) (c : Cycle) : Prop
  | unready (unready : s.state.reaches .complete = false) (state : c.state = .executionFailed)
    (result : c.result = none)
  | uncompiled (err : EngineError) (compiled : (e.compiler.compile d s.availability).1 = .error err)
    (state : c.state = .executionFailed) (result : c.result = none)
  | stopped (g : CompiledGraph) (compiled : (e.compiler.compile d s.availability).1 = .ok g)
    (stops : (e.executor.runUnder e.interleaving g.graph s { attached := false }).cancelled = true)
    (state : c.state = .executionFailed) (result : c.result = none)
  | executed (g : CompiledGraph) (ready : s.state.reaches .complete = true)
    (compiled : (e.compiler.compile d s.availability).1 = .ok g) (state : c.state = .executed)
    (graph : c.graph = some g.graph)
    (goes : (e.executor.runUnder e.interleaving g.graph s { attached := false }).cancelled = false)
    (result : c.result = some (ResultModel.build c.id job.valuationTime g.graph
      (e.executor.runUnder e.interleaving g.graph s { attached := false }).cache
      (e.executor.runUnder e.interleaving g.graph s { attached := false }).failures d.options))

/-- The cycle that is performed for a job, before it begins. -/
def waitingCycle (e : Engine) (job : BatchJob) (d : ViewDefinition) : Cycle :=
  { (e.newCycle (processOf job.batch) (CycleOptions.atTime job.valuationTime) d.options).1 with
    control := { attached := false } }

theorem fresh_waitingCycle (e : Engine) (job : BatchJob) (d : ViewDefinition) : (waitingCycle e job d).Fresh :=
  ⟨rfl, rfl, rfl, rfl⟩

/-- Performing a cycle for a job is not refused, and changes nothing of the engine but its compiler and its
supply of identifiers. -/
theorem performJob_spec (e : Engine) (job : BatchJob) (s : Snapshot) (d : ViewDefinition) :
    (performJob e job s d).error = none ∧ Performed e job s d (performJob e job s d).cycle ∧
      ∃ compiler, (compiler = e.compiler ∨ compiler = (e.compiler.compile d s.availability).2) ∧
        (performJob e job s d).engine = { e with serial := e.serial + 1, compiler } := by
  obtain ⟨hends, hid, herror⟩ :
      Engine.Performed e Stops.none d (.ok s) (waitingCycle e job d) (performJob e job s d) :=
    Engine.perform_performed (fresh_waitingCycle e job d) (.ok s) rfl rfl rfl
  refine ⟨?_, ?_, ?_⟩
  · cases hcase : (performJob e job s d).error with
    | none => rfl
    | some err =>
      obtain ⟨point, hpoint⟩ := herror (by rw [hcase]; rfl)
      cases hpoint
  · cases hends with
    | failed failure hfails hstate _ hresult =>
      -- Nothing stops the cycle, so it lacks something or its run was cancelled by a call.
      obtain hstop | ⟨_, -, -, hlacks⟩ | ⟨_, -, hstop, -⟩ | ⟨_, _, -, -, hstop⟩ |
        ⟨s', g, -, hobtains, -, -, hcancelled⟩ := hfails
      · cases hstop
      · obtain ⟨_, hs⟩ | ⟨s', hs, hunready⟩ | ⟨s', err, hs, -, hcompiled⟩ := hlacks <;> cases hs
        · exact .unready hunready hstate hresult
        · exact .uncompiled err hcompiled hstate hresult
      · cases hstop
      · rcases hstop with hstop | hstop <;> cases hstop
      · cases hobtains.given
        exact .stopped g hobtains.compiled hcancelled hstate hresult
    | executed s' g hgoes hstate _ hgraph hresult =>
      cases hgoes.obtains.given
      exact .executed g hgoes.obtains.ready hgoes.obtains.compiled hstate hgraph hgoes.uncancelled
        (by rw [hid]; exact hresult)
  · obtain ⟨compiler, hcompiler, hengine⟩ := Engine.engine_perform { e with serial := e.serial + 1 } Stops.none d
      (waitingCycle e job d) (.ok s)
    refine ⟨compiler, hcompiler.imp_right ?_, hengine⟩
    rintro ⟨s', hs, rfl⟩
    cases hs
    rfl

end BatchManager
end Valuation
