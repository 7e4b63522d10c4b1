import Valuation.Proofs.Demo
import Valuation.Proofs.Execution.Strategy

/-!
# What a run leaves behind

Every strategy with workers takes every compiled graph to the outcome that the graph means
(`ofStrategy_agrees`). When workers go on with which nodes in flight, and the order in which these end, shows in
one place only: which of the failures before a node its own failure names.
-/
namespace Valuation

/-- No function of a graph asks for cancellation. -/
def Graph.NeverCancels (g : Graph) : Prop :=
  ∀ n ∈ g.nodes, ∀ f, n.kind = .function f → ∀ t i outputs, (f.execute t i outputs).cancels = false

/-- The outcome of a run is what its graph means. -/
structure ExecutionOutcome.Agrees (o : ExecutionOutcome) (g : Graph) (s : Snapshot) : Prop where
  cached : ∀ t, o.cache.get? t = g.valueOf? s t
  failed : ∀ t, (o.failures.get? t).isSome ↔ ∃ v, g.verdictOf? s t = some v ∧ v.isOk = false
  reason : ∀ t reason, (∀ u, reason ≠ .dependencyFailure u) →
    (o.failures.get? t = some reason ↔ g.verdictOf? s t = some (.failed reason))
  upstream : ∀ t, (∃ u, o.failures.get? t = some (.dependencyFailure u)) ↔
    g.verdictOf? s t = some .upstream
  statistics : o.statistics =
    { total := g.size
      executed := (List.range g.size).countP fun i => (g.evaluate s i).isOk
      failed := (List.range g.size).countP fun i => !(g.evaluate s i).isOk
      notStarted := 0 }
  not_cancelled : o.cancelled = false

namespace Run

variable {g : Graph} {s : Snapshot} {r : Run}

theorem count_status (r : Run) (status : NodeStatus) :
    r.status.count status = (List.range r.status.length).countP fun i => r.statusOf i = status := by
  have hmap : r.status = (List.range r.status.length).map r.statusOf := by
    refine List.ext_getElem (by simp) fun i hi _ => ?_
    simp [statusOf, hi]
  conv_lhs => rw [hmap, List.count_eq_countP, List.countP_map]
  refine List.countP_congr fun i _ => ?_
  simp

theorem verdictOf?_eq_some_iff (hg : g.Runnable) {t : Specification} {v : Verdict} :
    g.verdictOf? s t = some v ↔ ∃ i, t ∈ g.outputsOf i ∧ g.evaluate s i = v := by
  rw [Graph.verdictOf?, Option.map_eq_some_iff]
  refine exists_congr fun i => and_congr_left fun _ => ?_
  rw [hg.producerOf?_eq_some_iff, Graph.mem_outputsOf_iff]

theorem isOk_of_allows {v : Verdict} {reason : FailureReason} (h : v.Allows reason) : v.isOk = false := by
  cases v with
  | ok values => exact h.elim
  | failed _ => rfl
  | upstream => rfl

/-- A reason that names no other node is the node's own. -/
theorem eq_failed_of_allows {v : Verdict} {reason : FailureReason} (h : v.Allows reason)
    (hown : ∀ u, reason ≠ .dependencyFailure u) : v = .failed reason := by
  cases v with
  | ok values => exact h.elim
  | failed reason' => exact congrArg Verdict.failed (show reason = reason' from h).symm
  | upstream =>
    obtain ⟨u, hu⟩ := h
    exact absurd hu (hown u)

/-- A reason that names another node is that of a node behind a failure. -/
theorem eq_upstream_of_allows (hg : g.Runnable) {i : Nat} {u : Specification}
    (h : (g.evaluate s i).Allows (.dependencyFailure u)) : g.evaluate s i = .upstream := by
  cases hverdict : g.evaluate s i with
  | ok values =>
    rw [hverdict] at h
    exact h.elim
  | failed reason =>
    rw [hverdict] at h
    have hown := g.isOwn_of_evaluate hg hverdict
    rw [← show FailureReason.dependencyFailure u = reason from h] at hown
    exact hown.elim
  | upstream => rfl

/-! ## A run that has settled -/

section
variable (hg : g.Runnable) (h : Faithful g s r) (hsettled : Settled g r)

include h hsettled in
theorem executed_iff_isOk {i : Nat} (hi : i < g.size) :
    r.statusOf i = .executed ↔ (g.evaluate s i).isOk = true := by
  refine ⟨h.executed i, fun hok => (hsettled i hi).resolve_right fun hst => ?_⟩
  rw [h.failed i hst] at hok
  cases hok

include h hsettled in
theorem failed_iff_not_isOk {i : Nat} (hi : i < g.size) :
    r.statusOf i = .failed ↔ (g.evaluate s i).isOk = false := by
  refine ⟨h.failed i, fun hfails => (hsettled i hi).resolve_left fun hst => ?_⟩
  rw [h.executed i hst] at hfails
  cases hfails

include h hsettled in
theorem statistics_eq : r.statistics =
    { total := g.size
      executed := (List.range g.size).countP fun i => (g.evaluate s i).isOk
      failed := (List.range g.size).countP fun i => !(g.evaluate s i).isOk
      notStarted := 0 } := by
  have hnone : ∀ status, status ≠ .executed → status ≠ .failed → r.status.count status = 0 := by
    intro status he hf
    rw [count_status, h.length_status, List.countP_eq_zero]
    intro i hi hst
    rcases hsettled i (List.mem_range.1 hi) with hi | hi
    · exact he ((of_decide_eq_true hst).symm.trans hi)
    · exact hf ((of_decide_eq_true hst).symm.trans hi)
  have hexecuted : r.status.count .executed =
      (List.range g.size).countP fun i => (g.evaluate s i).isOk := by
    rw [count_status, h.length_status]
    refine List.countP_congr fun i hi => ?_
    rw [decide_eq_true_eq]
    exact executed_iff_isOk h hsettled (List.mem_range.1 hi)
  have hfailed : r.status.count .failed =
      (List.range g.size).countP fun i => !(g.evaluate s i).isOk := by
    rw [count_status, h.length_status]
    refine List.countP_congr fun i hi => ?_
    rw [decide_eq_true_eq, Bool.not_eq_true']
    exact failed_iff_not_isOk h hsettled (List.mem_range.1 hi)
  rw [statistics, h.graph, hexecuted, hfailed, hnone _ (by simp) (by simp), hnone _ (by simp) (by simp)]

include hg h in
theorem verdict_of_failure {t : Specification} {reason : FailureReason}
    (ht : r.failures.get? t = some reason) : ∃ v, g.verdictOf? s t = some v ∧ v.Allows reason := by
  obtain ⟨i, -, hti, hallows⟩ := h.failure_sound t reason ht
  exact ⟨_, (verdictOf?_eq_some_iff hg).2 ⟨i, hti, rfl⟩, hallows⟩

include hg h hsettled

theorem failure_of_verdict {t : Specification} {v : Verdict} (hv : g.verdictOf? s t = some v)
    (hfails : v.isOk = false) : ∃ reason, r.failures.get? t = some reason ∧ v.Allows reason := by
  obtain ⟨i, hti, rfl⟩ := (verdictOf?_eq_some_iff hg).1 hv
  obtain ⟨n, hn, -⟩ := Graph.mem_outputsOf_iff.1 hti
  have hst := (failed_iff_not_isOk h hsettled (List.getElem?_eq_some_iff.1 hn).1).2 hfails
  obtain ⟨reason, hreason⟩ := Option.isSome_iff_exists.1 (h.failure_complete i t hst hti)
  obtain ⟨v, hv', hallows⟩ := verdict_of_failure hg h hreason
  rw [hv] at hv'
  exact ⟨reason, hreason, Option.some.inj hv' ▸ hallows⟩

theorem cache_eq_valueOf? (t : Specification) : r.cache.get? t = g.valueOf? s t := by
  refine Option.ext fun v => ⟨fun hv => ?_, fun hv => ?_⟩
  · obtain ⟨i, -, hv⟩ := h.cache_sound t v hv
    rw [Graph.valueOf?, Graph.verdictOf?, g.producerOf?_of_value? hg hv]
    exact hv
  · obtain ⟨verdict, hverdict, hv⟩ := Option.bind_eq_some_iff.1 hv
    obtain ⟨i, hi, rfl⟩ := Option.map_eq_some_iff.1 hverdict
    obtain ⟨n, hn, -⟩ := (hg.producerOf?_eq_some_iff t i).1 hi
    have hexecuted := (executed_iff_isOk h hsettled (List.getElem?_eq_some_iff.1 hn).1).2
      (Verdict.isOk_of_value? hv)
    exact h.cache_complete i t v hexecuted hv

theorem failure_isSome_iff (t : Specification) :
    (r.failures.get? t).isSome ↔ ∃ v, g.verdictOf? s t = some v ∧ v.isOk = false := by
  rw [Option.isSome_iff_exists]
  constructor
  · rintro ⟨reason, hreason⟩
    obtain ⟨v, hv, hallows⟩ := verdict_of_failure hg h hreason
    exact ⟨v, hv, isOk_of_allows hallows⟩
  · rintro ⟨v, hv, hfails⟩
    obtain ⟨reason, hreason, -⟩ := failure_of_verdict hg h hsettled hv hfails
    exact ⟨reason, hreason⟩

theorem failure_eq_some_iff {reason : FailureReason} (hown : ∀ u, reason ≠ .dependencyFailure u)
    (t : Specification) :
    r.failures.get? t = some reason ↔ g.verdictOf? s t = some (.failed reason) := by
  constructor
  · intro ht
    obtain ⟨v, hv, hallows⟩ := verdict_of_failure hg h ht
    cases v with
    | ok values => exact hallows.elim
    | failed reason' => rw [hv, show reason = reason' from hallows]
    | upstream =>
      obtain ⟨u, hu⟩ := hallows
      exact absurd hu (hown u)
  · intro hv
    obtain ⟨reason', hreason, hallows⟩ := failure_of_verdict hg h hsettled hv rfl
    exact hreason.trans (congrArg some hallows)

theorem dependencyFailure_iff (t : Specification) :
    (∃ u, r.failures.get? t = some (.dependencyFailure u)) ↔ g.verdictOf? s t = some .upstream := by
  constructor
  · rintro ⟨u, ht⟩
    obtain ⟨v, hv, hallows⟩ := verdict_of_failure hg h ht
    cases v with
    | ok values => exact hallows.elim
    | failed reason =>
      obtain ⟨i, -, hi⟩ := (verdictOf?_eq_some_iff hg).1 hv
      rw [← show FailureReason.dependencyFailure u = reason from hallows] at hi
      exact (g.isOwn_of_evaluate hg hi).elim
    | upstream => exact hv
  · intro hv
    obtain ⟨reason, hreason, u, rfl⟩ := failure_of_verdict hg h hsettled hv rfl
    exact ⟨u, hreason⟩

/-- A run that has settled leaves behind what its graph means. -/
theorem outcome_agrees : (r.outcome false).Agrees g s := by
  refine ⟨cache_eq_valueOf? hg h hsettled, failure_isSome_iff hg h hsettled,
    fun t reason hown => failure_eq_some_iff hg h hsettled hown t, dependencyFailure_iff hg h hsettled, ?_, rfl⟩
  exact statistics_eq h hsettled

end

end Run

namespace Executor

open Run

/-- A run whose flag nobody raises, and none of whose calls asks for cancellation, goes on to the end. -/
theorem isCancelled_eq_false {g : Graph} {s : Snapshot} {c : Control} {raised : Nat → Bool} {r : Run}
    (h : Coherent g s c raised r) (hc : c.cancelled = false) (hraised : ∀ k, raised k = false)
    (hquiet : c.attached = true → g.NeverCancels) : r.isCancelled = false := by
  rw [isCancelled, h.control_eq hraised, hc, Bool.false_or, Bool.and_eq_false_imp]
  intro ha
  rw [h.cancelRequested, List.any_eq_false]
  intro v hv
  obtain ⟨n, f, hn, hcall⟩ := (h.called v hv).isCall
  rw [hcall.evaluation, hquiet ha n (List.mem_of_getElem? hn) f hcall.kind]
  simp

theorem cancelled_eq_false {g : Graph} (hg : g.Runnable) (s : Snapshot) {c : Control}
    (hc : c.cancelled = false) (hquiet : c.attached = true → g.NeverCancels) (e : Executor)
    {x : Interleaving} (hraised : ∀ k, x.raised k = false) : (e.drive x g s c).2 = false := by
  have hrest := drive_atRest hg e x s c
  have hgoes := isCancelled_eq_false hrest.toCoherent hc hraised hquiet
  exact Bool.eq_false_iff.2 fun hcancelled => by simp [hrest.seen hcancelled] at hgoes

/-- A run that was not cancelled comes to what its graph means, under every interleaving. -/
theorem runUnder_agrees {g : Graph} (hg : g.Runnable) (e : Executor) (x : Interleaving) (s : Snapshot)
    (c : Control) (hgoes : (e.runUnder x g s c).cancelled = false) : (e.runUnder x g s c).Agrees g s := by
  have hrest := drive_atRest hg e x s c
  have hcancelled : (e.drive x g s c).2 = false := hgoes
  have hagrees := outcome_agrees hg hrest.toFaithful (hrest.settled hcancelled)
  rwa [← hcancelled] at hagrees

theorem ofStrategy_isOk {strategy : Strategy} (h : 0 < strategy.workers) :
    ∃ e, ofStrategy strategy = .ok e := by
  cases strategy with
  | singleThreaded => exact ⟨_, rfl⟩
  | nodeParallel workers => exact ⟨_, if_neg (Nat.ne_of_gt h)⟩
  | jobDispatch calcNodes => exact ⟨_, if_neg (Nat.ne_of_gt h)⟩

variable {compiler : GraphCompiler} {d : ViewDefinition} {a : Availability} {g : Graph}

/-- A strategy with workers runs every compiled graph to the outcome that the graph means, unless it is
cancelled: whenever workers go on with which nodes in flight, and whatever order these end in. -/
theorem ofStrategy_agrees (hcompile : compiler.compileUncached d a = .ok g) (s : Snapshot) {c : Control}
    (hc : c.cancelled = false) (hquiet : c.attached = true → g.NeverCancels) {strategy : Strategy}
    (hworkers : 0 < strategy.workers) :
    (∀ i n, g.node? i = some n → g.evaluate s i = n.verdict s (g.valueOf? s)) ∧
      ∃ e, ofStrategy strategy = .ok e ∧
        ∀ x : Interleaving, (∀ k, x.raised k = false) → (e.runUnder x g s c).Agrees g s := by
  have hg := Graph.runnable_of_compile hcompile
  obtain ⟨e, he⟩ := ofStrategy_isOk hworkers
  refine ⟨fun i n hn => g.evaluate_eq hg hn, e, he, fun x hraised => ?_⟩
  exact runUnder_agrees hg e x s c (cancelled_eq_false hg s hc hquiet e hraised)

/-- Workers go on with one node while others are queued, and nodes end out of order. -/
theorem demo_agrees : ∃ r g e, Demo.repository = .ok r ∧
    (GraphCompiler.ofRepository r 1).compileUncached (Demo.definition 2) Demo.everything = .ok g ∧
    g.NeverCancels ∧ ofStrategy (.jobDispatch 2) = .ok e ∧ (∀ k, Demo.outOfOrder.raised k = false) ∧
    (e.runUnder Demo.outOfOrder g (Demo.snapshot 2) {}).Agrees g (Demo.snapshot 2) := by
  obtain ⟨r, g, hr, hfunctions, hg⟩ := Demo.exists_graph 2
  have hquiet : g.NeverCancels := by
    intro n hn f hf
    exact Demo.cancels_eq_false (hfunctions ▸ Graph.function_mem_of_compile hg hn hf)
  have hworkers : 0 < (Strategy.jobDispatch 2).workers := by decide
  have hraised : ∀ k, Demo.outOfOrder.raised k = false := fun _ => rfl
  obtain ⟨-, e, he, hagrees⟩ :=
    ofStrategy_agrees hg (Demo.snapshot 2) (c := {}) rfl (fun _ => hquiet) hworkers
  exact ⟨r, g, e, hr, hg, hquiet, he, hraised, hagrees Demo.outOfOrder hraised⟩

end Executor
end Valuation
