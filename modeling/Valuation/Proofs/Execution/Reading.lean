import Valuation.Proofs.Execution.Run
import Valuation.Execution.Strategy
import Valuation.Proofs.OrderedSet

/-!
# What a run reads of a snapshot

A run looks at a snapshot in one place only, where it computes a node for market data, and there under the key of
the node. So two runs of a graph against snapshots that agree on the keys of the graph go alike step by step
(`Twins`), and leave the same behind (`runUnder_eq_of_agree`).
-/
namespace Valuation

namespace Graph

/-- Two snapshots say the same about all keys that a graph reads. -/
def AgreeOn (g : Graph) (s s' : Snapshot) : Prop := ∀ key ∈ g.marketDataKeys, s.get? key = s'.get? key

theorem mem_marketDataKeys {g : Graph} {i : Nat} {n : Node} (hn : g.node? i = some n) {key : MarketDataKey}
    (hkey : n.kind = .marketData key) : key ∈ g.marketDataKeys := by
  refine (OrderedSet.mem_ofList _ key).2 (List.mem_filterMap.2 ⟨n, List.mem_of_getElem? hn, ?_⟩)
  rw [Node.marketDataKey?, hkey]

end Graph

namespace Run

/-- Two moments of runs of a graph are alike, but for the snapshots that the runs are against. -/
structure Twins (g : Graph) (s s' : Snapshot) (r r' : Run) : Prop where
  graph : r.graph = g
  snapshot : r.snapshot = s
  same : r' = { r with snapshot := s' }

/-- In addition, something else has come of both alike. -/
structure TwinsWith {α : Type} (g : Graph) (s s' : Snapshot) (p p' : Run × α) : Prop where
  runs : Twins g s s' p.1 p'.1
  same : p'.2 = p.2

section
variable {g : Graph} {s s' : Snapshot} {r r' : Run}

theorem twins_start (g : Graph) (s s' : Snapshot) (c : Control) : Twins g s s' (start g s c) (start g s' c) :=
  ⟨rfl, rfl, rfl⟩

/-! ## Steps that read nothing -/

theorem Twins.statusOf_eq (h : Twins g s s' r r') (i : Nat) : r'.statusOf i = r.statusOf i := by
  rw [h.same]
  rfl

theorem Twins.isCancelled_eq (h : Twins g s s' r r') : r'.isCancelled = r.isCancelled := by
  rw [h.same]
  rfl

theorem Twins.setStatus (h : Twins g s s' r r') (i : Nat) (status : NodeStatus) :
    Twins g s s' (r.setStatus i status) (r'.setStatus i status) := by
  obtain ⟨hg, hs, rfl⟩ := h
  exact ⟨hg, hs, rfl⟩

theorem Twins.observe (h : Twins g s s' r r') (raised : Bool) : Twins g s s' (r.observe raised) (r'.observe raised) := by
  obtain ⟨hg, hs, rfl⟩ := h
  cases raised with
  | false => exact ⟨hg, hs, rfl⟩
  | true => exact ⟨hg, hs, rfl⟩

theorem Twins.release (h : Twins g s s' r r') (i : Nat) : Twins g s s' (r.release i) (r'.release i) := by
  obtain ⟨hg, hs, rfl⟩ := h
  rw [release_eq, release_eq]
  exact ⟨hg, hs, rfl⟩

theorem Twins.foldl {α : Type} {f : Run → α → Run}
    (hf : ∀ {r r' : Run}, Twins g s s' r r' → ∀ x, Twins g s s' (f r x) (f r' x)) (h : Twins g s s' r r')
    (xs : List α) : Twins g s s' (xs.foldl f r) (xs.foldl f r') := by
  induction xs generalizing r r' with
  | nil => exact h
  | cons x xs ih => exact ih (hf h x)

theorem Twins.complete (h : Twins g s s' r r') (i : Nat) : Twins g s s' (r.complete i) (r'.complete i) := by
  have hgraph : r'.graph = r.graph := by rw [h.same]
  unfold Run.complete
  rw [hgraph]
  exact (h.setStatus i .executed).foldl Twins.release _

theorem Twins.failDependent (h : Twins g s s' r r') (dependency : Specification) (i : Nat) :
    Twins g s s' (r.failDependent dependency i) (r'.failDependent dependency i) := by
  have hstatus := h.statusOf_eq i
  unfold Run.failDependent
  rw [hstatus]
  split
  · obtain ⟨hg, hs, rfl⟩ := h
    exact ⟨hg, hs, rfl⟩
  · exact h

theorem Twins.fail (h : Twins g s s' r r') (i : Nat) (reason : FailureReason) :
    Twins g s s' (r.fail i reason) (r'.fail i reason) := by
  have halone : Twins g s s' (r.failAlone i reason) (r'.failAlone i reason) := by
    obtain ⟨hg, hs, rfl⟩ := h
    exact ⟨hg, hs, rfl⟩
  have hgraph : r'.graph = r.graph := by rw [h.same]
  cases houtputs : r.graph.outputsOf i with
  | nil =>
    have hfail : ∀ r : Run, r.graph.outputsOf i = [] → r.fail i reason = r.failAlone i reason := by
      intro r hnil
      simp only [Run.fail, failAlone, hnil]
    rw [hfail r houtputs, hfail r' (hgraph ▸ houtputs)]
    exact halone
  | cons dependency rest =>
    rw [fail_eq houtputs, fail_eq (hgraph ▸ houtputs), hgraph]
    exact halone.foldl (fun h j => h.failDependent dependency j) _

theorem Twins.write (h : Twins g s s' r r') (values : Except FailureReason (List ComputedValue)) :
    TwinsWith g s s' (r.write values) (r'.write values) := by
  obtain ⟨hg, hs, rfl⟩ := h
  unfold Run.write
  split
  · exact ⟨⟨hg, hs, rfl⟩, rfl⟩
  · split
    · next heq =>
      simp only [heq]
      exact ⟨⟨hg, hs, rfl⟩, rfl⟩
    · next heq =>
      simp only [heq]
      exact ⟨⟨hg, hs, rfl⟩, rfl⟩

theorem Twins.finish (h : Twins g s s' r r') (i : Nat) (values : Except FailureReason (List ComputedValue)) :
    Twins g s s' (r.finish i values) (r'.finish i values) := by
  obtain ⟨hruns, hsame⟩ := h.write values
  unfold Run.finish
  generalize r.write values = p, r'.write values = p' at hruns hsame
  obtain ⟨r₁, result⟩ := p
  obtain ⟨r₁', result'⟩ := p'
  obtain rfl : result' = result := hsame
  cases result' with
  | error reason => exact hruns.fail i reason
  | ok _ => exact hruns.complete i

/-- Whether a node is ready, and which, is the same. -/
theorem Twins.nextReady (h : Twins g s s' r r') :
    r.nextReady = none ∧ r'.nextReady = none ∨
      ∃ i r₁ r₁', r.nextReady = some (i, r₁) ∧ r'.nextReady = some (i, r₁') ∧ Twins g s s' r₁ r₁' := by
  obtain ⟨hg, hs, rfl⟩ := h
  cases hfirst : firstReady r.status r.ready with
  | none => exact .inl ⟨by simp [Run.nextReady, hfirst], by simp [Run.nextReady, hfirst]⟩
  | some next =>
    have hnext : ∀ s'' : Snapshot, ({ r with snapshot := s'' } : Run).nextReady =
        some (next.1, { r with ready := next.2, snapshot := s'' }.setStatus next.1 .running) := fun s'' => by
      simp only [Run.nextReady, hfirst, Option.map_some]
    exact .inr ⟨next.1, _, _, hnext r.snapshot, hnext s', hg, hs, rfl⟩

/-! ## The one that reads -/

theorem Twins.call (h : Twins g s s' r r') (i : Nat) (n : Node) (f : CalculationFunction) (inputs : FunctionInputs) :
    TwinsWith g s s' (r.call i n f inputs) (r'.call i n f inputs) := by
  obtain ⟨hg, hs, rfl⟩ := h
  exact ⟨⟨hg, hs, rfl⟩, rfl⟩

theorem readMarketData_congr {key : MarketDataKey} (n : Node) (h : s.get? key = s'.get? key) :
    n.readMarketData key s' = n.readMarketData key s := by
  unfold Node.readMarketData
  rw [h]

variable (hreads : g.AgreeOn s s')
include hreads

theorem Twins.compute (h : Twins g s s' r r') (i : Nat) (inputs : Option FunctionInputs) :
    TwinsWith g s s' (r.compute i inputs) (r'.compute i inputs) := by
  have hgraph : r'.graph = r.graph := by rw [h.same]
  have hcache : r'.cache = r.cache := by rw [h.same]
  have hsnapshot : r'.snapshot = s' := by rw [h.same]
  unfold Run.compute
  rw [hgraph, h.graph]
  cases hn : g.node? i with
  | none => exact ⟨h, rfl⟩
  | some n =>
    dsimp only
    cases hkind : n.kind with
    | marketData key =>
      refine ⟨h, ?_⟩
      rw [h.snapshot, hsnapshot]
      exact readMarketData_congr n (hreads key (Graph.mem_marketDataKeys hn hkind))
    | function f =>
      cases inputs with
      | some inputs => exact h.call i n f inputs
      | none =>
        dsimp only
        rw [hcache]
        cases n.gatherInputs r.cache with
        | error reason => exact ⟨h, rfl⟩
        | ok inputs => exact h.call i n f inputs

theorem Twins.compute_finish (h : Twins g s s' r r') (i : Nat) (inputs : Option FunctionInputs) :
    Twins g s s' ((r.compute i inputs).1.finish i (r.compute i inputs).2)
      ((r'.compute i inputs).1.finish i (r'.compute i inputs).2) := by
  obtain ⟨hruns, hsame⟩ := h.compute hreads i inputs
  rw [hsame]
  exact hruns.finish i _

theorem Twins.execute (h : Twins g s s' r r') (i : Nat) : Twins g s s' (r.execute i) (r'.execute i) :=
  h.compute_finish hreads i none

end

end Run

namespace Executor

open Run

section
variable {g : Graph} {s s' : Snapshot} {r r' : Run} (hreads : g.AgreeOn s s')
include hreads

/-! ## Strategies -/

theorem twins_sweep (raised : Nat → Bool) (rest : List Nat) (h : Twins g s s' r r') :
    TwinsWith g s s' (sweep raised rest r) (sweep raised rest r') := by
  induction rest generalizing r r' with
  | nil => exact ⟨h, rfl⟩
  | cons i rest ih =>
    rw [sweep, sweep]
    replace h := h.observe (raised rest.length)
    generalize r.observe (raised rest.length) = r₁, r'.observe (raised rest.length) = r₁' at h
    rw [h.isCancelled_eq, h.statusOf_eq]
    split
    · exact ⟨h, rfl⟩
    split
    · exact ih h
    · exact ih ((h.setStatus i .running).execute hreads i)

theorem twins_work (copyInputs : Bool) (job : Job) (h : Twins g s s' r r') :
    TwinsWith g s s' (work copyInputs r job) (work copyInputs r' job) := by
  unfold work
  split
  · exact h.compute hreads job.node job.inputs
  · split
    · exact ⟨h, rfl⟩
    · exact h.write _

theorem twins_workOn (copyInputs : Bool) (ks : List Nat) (jobs : List Job) (h : Twins g s s' r r') :
    TwinsWith g s s' (workOn copyInputs ks r jobs) (workOn copyInputs ks r' jobs) := by
  induction ks generalizing r r' jobs with
  | nil => exact ⟨h, rfl⟩
  | cons k ks ih =>
    rw [workOn, workOn]
    split
    · exact ih jobs h
    · next job _ =>
      obtain ⟨hruns, hsame⟩ := twins_work hreads copyInputs job h
      dsimp only
      rw [hsame]
      exact ih _ hruns

theorem twins_finishJob (job : Job) (h : Twins g s s' r r') :
    Twins g s s' (finishJob r job) (finishJob r' job) := by
  unfold finishJob
  split
  · exact h.compute_finish hreads job.node job.inputs
  · exact h.finish job.node _

theorem twins_submit (copyInputs : Bool) (jobs : List Job) (i : Nat) (h : Twins g s s' r r') :
    TwinsWith g s s' (submit copyInputs r jobs i) (submit copyInputs r' jobs i) := by
  have hgraph : r'.graph = r.graph := by rw [h.same]
  have hcache : r'.cache = r.cache := by rw [h.same]
  unfold submit
  rw [hgraph, hcache]
  split
  · exact ⟨h, rfl⟩
  split
  · exact ⟨h, rfl⟩
  split
  · exact ⟨h.execute hreads i, rfl⟩
  · split
    · exact ⟨h, rfl⟩
    · exact ⟨h.fail i _, rfl⟩

theorem twins_submitReady (copyInputs : Bool) (meanwhile : Nat → List Nat) (fuel : Nat) (jobs : List Job)
    (h : Twins g s s' r r') :
    TwinsWith g s s' (submitReady copyInputs meanwhile fuel r jobs) (submitReady copyInputs meanwhile fuel r' jobs) := by
  induction fuel generalizing r r' jobs with
  | zero => exact ⟨h, rfl⟩
  | succ fuel ih =>
    rw [submitReady, submitReady]
    obtain ⟨hnone, hnone'⟩ | ⟨i, r₁, r₁', hnext, hnext', hruns⟩ := h.nextReady
    · rw [hnone, hnone']
      exact ⟨h, rfl⟩
    · rw [hnext, hnext']
      dsimp only
      obtain ⟨hsubmitted, hjobs⟩ := twins_submit hreads copyInputs jobs i hruns
      rw [hjobs]
      obtain ⟨hworked, hjobs⟩ := twins_workOn hreads copyInputs (meanwhile fuel) _ hsubmitted
      rw [hjobs]
      exact ih _ hworked

theorem twins_rounds (copyInputs : Bool) (x : Interleaving) (fuel : Nat) (jobs : List Job) (h : Twins g s s' r r') :
    TwinsWith g s s' (rounds copyInputs x fuel r jobs) (rounds copyInputs x fuel r' jobs) := by
  induction fuel generalizing r r' jobs with
  | zero => exact ⟨h, h.isCancelled_eq⟩
  | succ fuel ih =>
    rw [rounds, rounds]
    replace h := h.observe (x.raised fuel)
    generalize r.observe (x.raised fuel) = r₁, r'.observe (x.raised fuel) = r₁' at h
    have hgraph : r₁'.graph = r₁.graph := by rw [h.same]
    have hqueued : TwinsWith g s s'
        (if r₁.isCancelled then (r₁, jobs)
          else submitReady copyInputs (x.meanwhile fuel) (r₁.graph.size + 1) r₁ jobs)
        (if r₁.isCancelled then (r₁', jobs)
          else submitReady copyInputs (x.meanwhile fuel) (r₁.graph.size + 1) r₁' jobs) := by
      split
      · exact ⟨h, rfl⟩
      · exact twins_submitReady hreads copyInputs (x.meanwhile fuel) _ jobs h
    dsimp only
    rw [h.isCancelled_eq, hgraph]
    generalize (if r₁.isCancelled then (r₁, jobs)
      else submitReady copyInputs (x.meanwhile fuel) (r₁.graph.size + 1) r₁ jobs) = queued,
      (if r₁.isCancelled then (r₁', jobs)
        else submitReady copyInputs (x.meanwhile fuel) (r₁.graph.size + 1) r₁' jobs) = queued' at hqueued
    obtain ⟨hruns, hjobs⟩ := hqueued
    rw [hjobs]
    obtain ⟨hworked, hjobs⟩ := twins_workOn hreads copyInputs (x.early fuel) queued.2 hruns
    rw [hjobs]
    split
    · exact ⟨hworked, rfl⟩
    · exact ih _ (twins_finishJob hreads _ hworked)

/-- Runs of a graph against snapshots that agree on the keys of the graph leave the same behind, whether they are
cancelled or not. -/
theorem runUnder_eq_of_agree (e : Executor) (x : Interleaving) (c : Control) :
    e.runUnder x g s c = e.runUnder x g s' c := by
  have hstart := twins_start g s s' c
  have hdrive : TwinsWith g s s' (e.drive x g s c) (e.drive x g s' c) := by
    cases e with
    | singleThreaded => exact twins_sweep hreads x.raised g.order hstart
    | nodeParallel => exact twins_rounds hreads false x (g.size + 1) [] hstart
    | jobDispatch => exact twins_rounds hreads true x (g.size + 1) [] hstart
  obtain ⟨hruns, hcancelled⟩ := hdrive
  unfold runUnder
  dsimp only
  rw [hcancelled, hruns.same]
  rfl

end

end Executor
end Valuation
