import Valuation.Proofs.Batch.Invariant

/-!
# What is saved of a batch reproduces it

The record of a batch holds the values that its snapshot was sealed with, and the results of its cycle. The cycle
may have run long before, while the snapshot was only complete, but the values have been the same since then. So
the results come out again when the graph of the cycle is run on the saved values, under any strategy
(`ended_reproduces`).
-/
namespace Valuation

/-- Running a graph again on the values of a record publishes the results of the record, and fails for the same
specifications. -/
def BatchRecord.Reproduces (record : BatchRecord) (g : Graph) (options : ResultOptions) : Prop :=
  ∀ id, ∃ x, Snapshot.ofValues id record.snapshotValues = .ok x ∧
    ∀ strategy : Strategy, 0 < strategy.workers → ∃ e, Executor.ofStrategy strategy = .ok e ∧
      ∀ (i : Interleaving) (control : Control), (∀ k, i.raised k = false) → control.cancelled = false →
        (control.attached = true → g.NeverCancels) →
        (e.runUnder i g x control).cancelled = false ∧
          ∀ (cycle : CycleId) (time : Instant),
            let model := ResultModel.build cycle time g (e.runUnder i g x control).cache
              (e.runUnder i g x control).failures options
            model.allValues = record.results ∧
              ∀ t, model.failures.contains t = true ↔ t ∈ record.failures.map (·.1)

namespace BatchManager
namespace Session

/-! ## Sealing -/

/-- A snapshot was sealed with some values in the course of some moves. -/
def SealedWith (s : Session) (moves : List Move) (id : SnapshotId)
    (values : List (MarketDataKey × DataValue)) : Prop :=
  ∃ before, before ++ [.change id .markComplete] <+: moves ∧ ∃ x x',
    (s.after before).manager.snapshots.get? id = some x ∧ x.markComplete = .ok x' ∧ x'.values.toList = values

section
variable {s : Session}

theorem SealedWith.concat {moves : List Move} {id : SnapshotId} {values : List (MarketDataKey × DataValue)}
    (h : s.SealedWith moves id values) (m : Move) : s.SealedWith (moves ++ [m]) id values := by
  obtain ⟨before, hbefore, hsealing⟩ := h
  exact ⟨before, hbefore.trans (List.prefix_append ..), hsealing⟩

/-- A snapshot that is sealed in the end, and was not there in the beginning, has been sealed with its values. -/
theorem sealedWith_of_isSealed (hnew : ∀ id, s.manager.snapshots.get? id = none) {moves : List Move}
    {id : SnapshotId} {x : Snapshot} (hx : (s.after moves).manager.snapshots.get? id = some x)
    (hsealed : x.isSealed = true) : s.SealedWith moves id x.values.toList := by
  induction moves using List.reverseRecOn generalizing x with
  | nil => exact nomatch (hnew id).symm.trans hx
  | append_singleton moves m ih =>
    rw [after_concat] at hx
    obtain heq | htakes := (s.after moves).step_cases m
    · rw [heq] at hx
      exact (ih hx hsealed).concat m
    generalize (s.after moves).step m = s' at htakes hx
    cases htakes with
    | create =>
      rw [Table.get?_insert] at hx
      split at hx
      · cases hx
        cases hsealed
      · exact (ih hx hsealed).concat _
    | @change id' call y y' hy hcall =>
      rw [Table.get?_insert] at hx
      split at hx
      · next hid =>
        subst hid
        obtain rfl := Option.some.inj hx
        obtain rfl := Snapshot.eq_markComplete_of_isSealed hcall hsealed
        exact ⟨moves, List.prefix_refl _, y, _, hy, hcall, rfl⟩
      · exact (ih hx hsealed).concat _
    | first | again | read | perform | record | beginEnd | save | finishEnd | compile | wait =>
      exact (ih hx hsealed).concat _

/-- What a snapshot was sealed with, it still has. -/
theorem WellFormed.of_sealedWith (h : s.WellFormed) {moves : List Move} {id : SnapshotId}
    {values : List (MarketDataKey × DataValue)} (hsealing : s.SealedWith moves id values) :
    ∃ x, (s.after moves).manager.snapshots.get? id = some x ∧ x.values.toList = values := by
  obtain ⟨before, ⟨rest, rfl⟩, x, x', hx, hseal, rfl⟩ := hsealing
  have hafter : ((s.after before).change id .markComplete).manager.snapshots.get? id = some x' := by
    have hupdate : (s.after before).manager.updateSnapshot id (fun y => Snapshot.Call.markComplete.apply y) =
        .ok { (s.after before).manager with
          snapshots := (s.after before).manager.snapshots.insert id x' } :=
      bind_eq_ok.2 ⟨x, snapshot_eq_ok.2 hx, bind_eq_ok.2 ⟨x', hseal, rfl⟩⟩
    simp [change, hupdate]
  have hsealed : x'.isSealed = true := by
    obtain ⟨-, rfl⟩ := Snapshot.markComplete_eq_ok hseal
    rfl
  have hbefore := (h.after before).1.step (.change id .markComplete)
  obtain ⟨x'', hx'', -, hsame⟩ := (hbefore.1.after rest).2.snapshots id x' hafter
  refine ⟨x'', ?_, by rw [hsame hsealed]⟩
  rw [after_append, after_append]
  exact hx''

end

/-! ## Records -/

theorem recordOf_of_result_eq_none {run : BatchRun} {c : Cycle} (hc : run.cycle = some c) (hnone : c.result = none)
    (x : Snapshot) (now : Instant) : (recordOf run x now).results = [] ∧ (recordOf run x now).failures = [] := by
  simp [recordOf, hc, hnone]

/-- A record of a cycle that shows results reproduces them, if it holds the values that these are of. -/
theorem reproduces_recordOf {run : BatchRun} {c : Cycle} (hc : run.cycle = some c) {x y : Snapshot}
    (hy : y.WellFormed) (hvalues : y.values = x.values) {options : ResultOptions} {g : Graph} (hg : g.Runnable)
    {o : ExecutionOutcome} (ho : o.Agrees g x) {time : Instant}
    (hresult : c.result = some (ResultModel.build c.id time g o.cache o.failures options)) (now : Instant) :
    (recordOf run y now).Reproduces g options := by
  have hresults : (recordOf run y now).results =
      (ResultModel.build c.id time g o.cache o.failures options).allValues := by
    simp [recordOf, hc, hresult]
  have hfailures : (recordOf run y now).failures.map (·.1) = o.failures.keys := by
    simp [recordOf, hc, hresult, ResultModel.build_failures, Table.keys, Table.toList]
  intro id
  obtain ⟨z, hz, hzvalues, -⟩ := Snapshot.ofValues_eq_ok id hy.sorted.nodup_keys
  have hget : ∀ k, z.get? k = x.get? k := fun k => by
    rw [Snapshot.get?, hzvalues, Snapshot.get?, ← hvalues]
    exact Table.get?_ofList_toList hy.sorted k
  refine ⟨z, hz, fun strategy hworkers => ?_⟩
  obtain ⟨e, he⟩ := Executor.ofStrategy_isOk hworkers
  refine ⟨e, he, fun i control hraised hgoes hquiet => ?_⟩
  have hcancelled : (e.runUnder i g z control).cancelled = false :=
    Executor.cancelled_eq_false hg z hgoes hquiet e hraised
  have hagrees := Executor.runUnder_agrees hg e i z control hcancelled
  refine ⟨hcancelled, fun cycle time' => ⟨?_, fun t => ?_⟩⟩
  · rw [hresults]
    refine ResultModel.allValues_build_congr (fun t => ?_) ..
    rw [hagrees.cached, ho.cached, g.valueOf?_congr hget]
  · rw [hfailures, ResultModel.build_failures, ← Table.contains_iff, Table.contains, Table.contains,
      hagrees.failed, ho.failed, g.verdictOf?_congr hget]

/-! ## Histories -/

/-- Take any session, and an end in it whose record is of a cycle that was run in the same attempt. The record has
the values that the snapshot was sealed with. If the cycle has executed, running its graph on these values again
gives the results and the failures of the record; if not, the record has none. -/
theorem ended_reproduces {e : Engine} (hcompiler : e.compiler.Current) (moves : List Move)
    {ended : EndCall} (hended : ended ∈ (after { engine := e } moves).ends)
    {run : RunCall} (hrun : run ∈ (after { engine := e } moves).runs)
    {c : Cycle} (hcycle : ended.cycle = some c) (hran : run.cycle = some c) (hbatch : run.batch = ended.batch)
    (hattempt : run.attempt = ended.record.attempt) :
    ended.record.cycle = some c.id ∧
      (∀ values, SealedWith { engine := e } moves ended.record.snapshot values ↔
        values = ended.record.snapshotValues) ∧
      (c.state = .executed →
        ∃ g, c.graph = some g ∧ ended.record.Reproduces g run.definition.options) ∧
      (c.state ≠ .executed → ended.record.results = [] ∧ ended.record.failures = []) := by
  have h := (faithful_start hcompiler).after moves
  obtain ⟨entry, y, now, hrecord, hentry, hjob, hstarted, hy, hsealed⟩ := (h.ends ended hended).taken
  rw [hcycle] at hentry
  have hvalid := h.runs run hrun
  have hsame : run.job = entry.job := by
    rw [hrecord] at hattempt
    refine h.attempts.unique run.attempt _ _ hvalid.started (hattempt ▸ hstarted) ?_
    rw [hvalid.batch, hbatch, hjob]
  obtain ⟨x, x', hx', hlater, hshows⟩ := h.shows run hrun c hran
  rw [hsame] at hx'
  obtain rfl : x' = y := Option.some.inj (hx'.symm.trans hy)
  rw [hrecord]
  refine ⟨by simp [recordOf, hentry], fun values => ⟨fun hsealing => ?_, ?_⟩, fun hexecuted => ?_, fun hfailed => ?_⟩
  · obtain ⟨z, hz, rfl⟩ := (wellFormed_start e).of_sealedWith hsealing
    obtain rfl : x' = z := Option.some.inj (hy.symm.trans hz)
    rfl
  · rintro rfl
    exact sealedWith_of_isSealed (fun _ => rfl) hy hsealed
  · cases hshows with
    | nothing state => exact absurd hexecuted state
    | results g runnable ready state graph o agrees time result =>
      exact ⟨g, graph, reproduces_recordOf hentry (h.snapshots _ x' hy) (hlater.values_eq ready) runnable agrees
        result now⟩
  · cases hshows with
    | nothing _ result => exact recordOf_of_result_eq_none hentry result x' now
    | results _ _ _ state => exact absurd state hfailed

/-! ### A batch of the demonstration -/

/-- A run reads a batch whose snapshot is complete. -/
def demoRead : List Move :=
  [.start Demo.job, .create default, .change default (.addValues [(Demo.quoted.marketDataKey, .text "100")]),
    .change default (.fixTime default), .read Demo.job.batch Demo.singleView]

/-- The snapshot then. -/
def demoSnapshot : Snapshot :=
  (Snapshot.new default).after [.addValues [(Demo.quoted.marketDataKey, .text "100")], .fixTime default]

/-- What is run is recorded, and the batch is ended once its snapshot is sealed. -/
def demoEnd : List Move :=
  [.record 0, .change default .markComplete, .beginEnd Demo.job.batch, .save 0 (.ok ()), .finishEnd 0]

/-- The session in between, when the run has performed its cycle. -/
def demoRan (compiler : GraphCompiler) (c : Cycle) : Session :=
  { after { engine := Demo.quotes } demoRead with
    engine := { Demo.quotes with serial := 1, compiler }
    runs := [{
      batch := Demo.job.batch, attempt := 1, job := Demo.job, definition := Demo.singleView, cycle := some c }] }

/-- The value that the snapshot has is what the cycle comes to. -/
theorem demo_ran : ∃ compiler c, c.state = .executed ∧
    (∃ model, c.result = some model ∧ model.allValues = [⟨Demo.quoted, .text "100"⟩]) ∧
    after { engine := Demo.quotes } (demoRead ++ [.perform 0 {}]) = demoRan compiler c := by
  have hcompiler : Demo.quotes.compiler.Current := GraphCompiler.current_ofRepository _ _
  have hsnapshot : (after { engine := Demo.quotes } demoRead).manager.snapshots.get? default =
    some demoSnapshot := rfl
  obtain ⟨c, compiler, hc, -, hperform⟩ :=
    perform_eq (after { engine := Demo.quotes } demoRead) (k := 0) rfl rfl hsnapshot {}
  obtain ⟨hstate, _, rfl, hresult⟩ :=
    hc.executed_of_compile hcompiler rfl (Demo.compile_quoted rfl) fun _ => rfl
  refine ⟨compiler, c, hstate, ⟨_, hresult, rfl⟩, ?_⟩
  rw [after_concat, hperform]
  rfl

/-- A batch of the demonstration is run while its snapshot is complete, and ends with a record of what the value in
the snapshot has come to. -/
theorem demo_reproduces : ∃ moves ended run c,
    Demo.quotes.compiler.Current ∧
    ended ∈ (after { engine := Demo.quotes } moves).ends ∧ run ∈ (after { engine := Demo.quotes } moves).runs ∧
    ended.cycle = some c ∧ run.cycle = some c ∧ run.batch = ended.batch ∧ run.attempt = ended.record.attempt ∧
    c.state = .executed ∧ ended.record.snapshotValues = [(Demo.quoted.marketDataKey, .text "100")] ∧
    ended.record.results = [⟨Demo.quoted, .text "100"⟩] ∧
    ∃ g, c.graph = some g ∧ ended.record.Reproduces g run.definition.options := by
  have hcompiler : Demo.quotes.compiler.Current := GraphCompiler.current_ofRepository _ _
  obtain ⟨compiler, c, hstate, ⟨model, hmodel, hvalues⟩, hperformed⟩ := demo_ran
  have hafter : after { engine := Demo.quotes } (demoRead ++ [.perform 0 {}] ++ demoEnd) =
      (demoRan compiler c).after demoEnd := by
    rw [after_append, hperformed]
  obtain ⟨ended, run, hended, hrun, hcycle, hran, hbatch, hattempt, hsealed, b, hb, x, now, hrecord⟩ : ∃ ended run,
      ended ∈ ((demoRan compiler c).after demoEnd).ends ∧ run ∈ ((demoRan compiler c).after demoEnd).runs ∧
      ended.cycle = some c ∧ run.cycle = some c ∧ run.batch = ended.batch ∧ run.attempt = ended.record.attempt ∧
      ended.record.snapshotValues = [(Demo.quoted.marketDataKey, .text "100")] ∧
      ∃ b : BatchRun, b.cycle = some c ∧ ∃ x now, ended.record = recordOf b x now :=
    ⟨_, _, List.mem_singleton.2 rfl, List.mem_singleton.2 rfl, rfl, rfl, rfl, rfl, rfl, _, rfl, _, _, rfl⟩
  have hresults : ended.record.results = [⟨Demo.quoted, .text "100"⟩] := by
    simp [hrecord, recordOf, hb, hmodel, hvalues]
  rw [← hafter] at hended hrun
  obtain ⟨-, -, hreproduces, -⟩ := ended_reproduces hcompiler _ hended hrun hcycle hran hbatch hattempt
  exact ⟨_, ended, run, c, hcompiler, hended, hrun, hcycle, hran, hbatch, hattempt, hstate, hsealed,
    hresults, hreproduces hstate⟩

end Session
end BatchManager
end Valuation
