import Valuation.Proofs.Execution.Outcome

/-!
# Every node is accounted for

However the nodes in flight interleave and whenever a run is cancelled, its outcome accounts for every node
once, by how the node ended (`runUnder_accounts`): a node that executed has all its outputs cached, one that
failed has a failure for each of them, and one that was not started has neither. Only a run that was
cancelled leaves nodes that are not started.
-/
namespace Valuation

/-- An outcome goes by how each node ended. -/
structure ExecutionOutcome.Accounts (o : ExecutionOutcome) (g : Graph) (ending : Nat → NodeStatus) : Prop where
  total : o.statistics.total = g.size
  sum : o.statistics.executed + o.statistics.failed + o.statistics.notStarted = o.statistics.total
  count_executed : o.statistics.executed = (List.range g.size).countP fun i => ending i = .executed
  count_failed : o.statistics.failed = (List.range g.size).countP fun i => ending i = .failed
  count_notStarted : o.statistics.notStarted = (List.range g.size).countP fun i => ending i = .notStarted
  executed : ∀ i t, ending i = .executed → t ∈ g.outputsOf i →
    o.cache.contains t = true ∧ o.failures.contains t = false
  failed : ∀ i t, ending i = .failed → t ∈ g.outputsOf i →
    o.failures.contains t = true ∧ o.cache.contains t = false
  notStarted : ∀ i t, ending i = .notStarted → t ∈ g.outputsOf i →
    o.cache.contains t = false ∧ o.failures.contains t = false
  cached_only : ∀ t, o.cache.contains t = true → ∃ i < g.size, t ∈ g.outputsOf i
  failed_only : ∀ t, o.failures.contains t = true → ∃ i < g.size, t ∈ g.outputsOf i
  complete : o.cancelled = false → ∀ i < g.size, ending i ≠ .notStarted

namespace Run

theorem sum_count_status (xs : List NodeStatus) :
    xs.count .executed + xs.count .failed + (xs.count .notStarted + xs.count .running) = xs.length := by
  induction xs with
  | nil => rfl
  | cons x xs ih =>
    simp only [List.count_cons, List.length_cons]
    cases x with
    | notStarted => simp; omega
    | running => simp; omega
    | executed => simp; omega
    | failed => simp; omega

section
variable {g : Graph} {s : Snapshot} {c : Control} {raised : Nat → Bool} {r : Run} {cancelled : Bool}

theorem AtRest.count_running (h : AtRest g s c raised r cancelled) : r.status.count .running = 0 := by
  rw [count_status, List.countP_eq_zero]
  exact fun i _ hi => h.idle i (of_decide_eq_true hi)

/-- Once a run is at rest, an output is cached just if its node has executed. -/
theorem AtRest.contains_cache_iff (hg : g.Runnable) (h : AtRest g s c raised r cancelled) {i : Nat}
    {t : Specification} (ht : t ∈ g.outputsOf i) : r.cache.contains t = true ↔ r.statusOf i = .executed := by
  rw [ComputationCache.contains_iff]
  refine ⟨fun ⟨v, hv⟩ => ?_, fun hi => h.cached_of_executed hg hi ht⟩
  exact (h.statusOf_of_cached hg hv ht).resolve_left (h.idle i)

/-- Once a run is at rest, a specification is cached just if its producer has executed. -/
theorem AtRest.contains_cache_iff_exists (hg : g.Runnable) (h : AtRest g s c raised r cancelled)
    {t : Specification} :
    r.cache.contains t = true ↔ ∃ i, g.producerOf? t = some i ∧ r.statusOf i = .executed := by
  constructor
  · intro hcached
    obtain ⟨v, hv⟩ := (r.cache.contains_iff t).1 hcached
    obtain ⟨i, hi, hiv⟩ := h.cache_sound t v hv
    exact ⟨i, g.producerOf?_of_value? hg hiv, hi.resolve_left (h.idle i)⟩
  · rintro ⟨i, hi, hexecuted⟩
    have ht := Graph.mem_outputsOf_iff.2 ((hg.producerOf?_eq_some_iff t i).1 hi)
    exact (h.contains_cache_iff hg ht).2 hexecuted

/-- An output has a failure just if its node has failed. -/
theorem AtRest.contains_failures_iff (hg : g.Runnable) (h : AtRest g s c raised r cancelled) {i : Nat}
    {t : Specification} (ht : t ∈ g.outputsOf i) : r.failures.contains t = true ↔ r.statusOf i = .failed :=
  ⟨fun hfails => h.statusOf_of_failure hg hfails ht, fun hi => h.failure_complete i t hi ht⟩

/-- Nothing is cached and has a failure as well. -/
theorem AtRest.not_failed_of_cached (hg : g.Runnable) (h : AtRest g s c raised r cancelled)
    {t : Specification} {w : DataValue} (hw : r.cache.get? t = some w) : r.failures.contains t = false := by
  obtain ⟨i, hi, hexecuted⟩ := (h.contains_cache_iff_exists hg).1 ((r.cache.contains_iff t).2 ⟨w, hw⟩)
  have ht := Graph.mem_outputsOf_iff.2 ((hg.producerOf?_eq_some_iff t i).1 hi)
  refine Bool.eq_false_iff.2 fun hfails => ?_
  cases hexecuted.symm.trans ((h.contains_failures_iff hg ht).1 hfails)

/-- A run at rest has either values or failures for the outputs of a node, by how the node ended. -/
theorem AtRest.accounts (hg : g.Runnable) (h : AtRest g s c raised r cancelled) :
    (r.outcome cancelled).Accounts g r.statusOf := by
  have hlength : r.status.length = r.graph.size := by rw [h.graph, h.length_status]
  have hcount : ∀ status, r.status.count status = (List.range g.size).countP fun i => r.statusOf i = status := by
    intro status
    rw [count_status, h.length_status]
  have hcached : ∀ i t, t ∈ g.outputsOf i → r.cache.contains t = decide (r.statusOf i = .executed) :=
    fun i t ht => Bool.eq_iff_iff.2 ((h.contains_cache_iff hg ht).trans decide_eq_true_iff.symm)
  have hfailed : ∀ i t, t ∈ g.outputsOf i → r.failures.contains t = decide (r.statusOf i = .failed) :=
    fun i t ht => Bool.eq_iff_iff.2 ((h.contains_failures_iff hg ht).trans decide_eq_true_iff.symm)
  refine ⟨congrArg Graph.size h.graph, ?_, hcount .executed, hcount .failed, ?_, ?_, ?_, ?_, ?_, ?_, ?_⟩
  · exact (sum_count_status r.status).trans hlength
  · have hnone := h.count_running
    simp only [outcome, statistics, hnone]
    exact hcount .notStarted
  · intro i t hi ht
    simp [outcome, hcached i t ht, hfailed i t ht, hi]
  · intro i t hi ht
    simp [outcome, hcached i t ht, hfailed i t ht, hi]
  · intro i t hi ht
    simp [outcome, hcached i t ht, hfailed i t ht, hi]
  · intro t ht
    obtain ⟨v, hv⟩ := (r.cache.contains_iff t).1 ht
    obtain ⟨i, -, hiv⟩ := h.cache_sound t v hv
    have hti := g.mem_outputsOf_of_value? hg hiv
    exact ⟨i, Graph.lt_size_of_mem_outputsOf hti, hti⟩
  · intro t ht
    obtain ⟨reason, hreason⟩ := Option.isSome_iff_exists.1 ht
    obtain ⟨i, -, hti, -⟩ := h.failure_sound t reason hreason
    exact ⟨i, Graph.lt_size_of_mem_outputsOf hti, hti⟩
  · intro hgoes i hi hwaits
    rcases h.settled hgoes i hi with hended | hended
    · cases hwaits.symm.trans hended
    · cases hwaits.symm.trans hended

end

end Run

namespace Executor

variable {compiler : GraphCompiler} {d : ViewDefinition} {a : Availability} {g : Graph}

/-- Every run of a compiled graph accounts for every node, under every strategy with workers, under every
interleaving, and whether and whenever it is cancelled. -/
theorem runUnder_accounts (hcompile : compiler.compileUncached d a = .ok g) {strategy : Strategy}
    (hworkers : 0 < strategy.workers) :
    ∃ e, ofStrategy strategy = .ok e ∧ ∀ (x : Interleaving) (s : Snapshot) (c : Control),
      (e.runUnder x g s c).Accounts g (e.drive x g s c).1.statusOf := by
  have hg := Graph.runnable_of_compile hcompile
  obtain ⟨e, he⟩ := ofStrategy_isOk hworkers
  exact ⟨e, he, fun x s c => (drive_atRest hg e x s c).accounts hg⟩

theorem demo_accounts : ∃ r g e, Demo.repository = .ok r ∧
    (GraphCompiler.ofRepository r 1).compileUncached (Demo.definition 2) Demo.everything = .ok g ∧
    0 < (Strategy.nodeParallel 2).workers ∧ ofStrategy (.nodeParallel 2) = .ok e ∧
    (e.runUnder Demo.cancelledMidway g (Demo.snapshot 2) {}).Accounts g
      (e.drive Demo.cancelledMidway g (Demo.snapshot 2) {}).1.statusOf := by
  obtain ⟨r, g, hr, -, hg⟩ := Demo.exists_graph 2
  have hworkers : 0 < (Strategy.nodeParallel 2).workers := by decide
  obtain ⟨e, he, haccounts⟩ := runUnder_accounts hg hworkers
  exact ⟨r, g, e, hr, hg, hworkers, he, haccounts Demo.cancelledMidway (Demo.snapshot 2) {}⟩

end Executor
end Valuation
