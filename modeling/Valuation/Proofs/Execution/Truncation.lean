import Valuation.Proofs.Execution.Cancellation
import Valuation.Proofs.Execution.Dispatch

/-!
# What a cancelled run leaves out

A cancelled run comes to a part of what the same graph comes to when it is not cancelled: every value is the
same, and so is every failure, but for which of the failures before a node its own failure names
(`Run.within_of_agrees`). One node after the other, the part is a beginning of the order: the calls of the
nodes up to the first one whose call asks for cancellation (`sweep_calls`).
-/
namespace Valuation

/-- What is in an outcome is in another too. A failure behind another one may name a different one there. -/
structure ExecutionOutcome.Within (o o' : ExecutionOutcome) : Prop where
  cached : ∀ t v, o.cache.get? t = some v → o'.cache.get? t = some v
  failed : ∀ t reason, o.failures.get? t = some reason → o'.failures.get? t = some reason ∨
    (∃ u, reason = .dependencyFailure u) ∧ ∃ u, o'.failures.get? t = some (.dependencyFailure u)

namespace Graph

/-- What the call of a node comes to, on the inputs that the graph means for it. Market data is not called,
nor is a node behind a failure. -/
def meantCall? (g : Graph) (s : Snapshot) (i : Nat) : Option Evaluation :=
  match g.node? i with
  | none => none
  | some n =>
    match n.kind, g.evaluate s i with
    | .marketData _, _ | .function _, .upstream => none
    | .function f, _ => some (f.execute n.target (.ofList (n.inputValues (g.valueOf? s))) n.outputs)

/-- The calls of some nodes that the graph means, in their order. -/
def meantCalls (g : Graph) (s : Snapshot) (nodes : List Nat) : List (Nat × Evaluation) :=
  nodes.filterMap fun i => (g.meantCall? s i).map fun e => (i, e)

/-- Whether the call of a node asks for cancellation. -/
def requests (g : Graph) (s : Snapshot) (i : Nat) : Bool := (g.meantCall? s i).any (·.cancels)

/-- The nodes that are got to before a run is cancelled, one after the other: those up to the first one whose
call asks for cancellation, if that counts; all if there is none; and none if the flag is up beforehand. -/
def untilRequest (g : Graph) (s : Snapshot) (c : Control) (nodes : List Nat) : List Nat :=
  if c.cancelled then []
  else if c.attached then nodes.take (nodes.findIdx (g.requests s) + 1)
  else nodes

section
variable {g : Graph} {s : Snapshot} {i : Nat}

theorem meantCalls_cons (g : Graph) (s : Snapshot) (i : Nat) (nodes : List Nat) :
    g.meantCalls s (i :: nodes) = ((g.meantCall? s i).map fun e => (i, e)).toList ++ g.meantCalls s nodes := by
  rw [meantCalls, List.filterMap_cons]
  cases g.meantCall? s i with
  | none => rfl
  | some e => rfl

@[simp] theorem untilRequest_nil (g : Graph) (s : Snapshot) (c : Control) : g.untilRequest s c [] = [] := by
  simp [untilRequest]

@[simp] theorem untilRequest_of_cancelled (g : Graph) (s : Snapshot) (attached : Bool) (nodes : List Nat) :
    g.untilRequest s ⟨true, attached⟩ nodes = [] :=
  if_pos rfl

/-- The next node is got to, and those after it unless its call asks for cancellation. -/
theorem untilRequest_cons (g : Graph) (s : Snapshot) (attached : Bool) (i : Nat) (nodes : List Nat) :
    g.untilRequest s ⟨false, attached⟩ (i :: nodes) =
      i :: g.untilRequest s ⟨attached && g.requests s i, attached⟩ nodes := by
  cases attached with
  | false => simp [untilRequest]
  | true =>
    cases hi : g.requests s i with
    | true => simp [untilRequest, List.findIdx_cons, hi]
    | false => simp [untilRequest, List.findIdx_cons, hi]

theorem meantCall?_eq_none (h : g.evaluate s i = .upstream) : g.meantCall? s i = none := by
  unfold meantCall?
  rw [h]
  split
  · rfl
  · split
    · rfl
    · rfl
    · next hne => exact absurd rfl hne

theorem meantCall?_marketData {n : Node} {key : MarketDataKey} (hn : g.node? i = some n)
    (hkey : n.kind = .marketData key) : g.meantCall? s i = none := by
  simp [meantCall?, hn, hkey]

theorem meantCall?_function {n : Node} {f : CalculationFunction} (hn : g.node? i = some n)
    (hf : n.kind = .function f) (hown : g.evaluate s i ≠ .upstream) :
    g.meantCall? s i = some (f.execute n.target (.ofList (n.inputValues (g.valueOf? s))) n.outputs) := by
  rw [meantCall?, hn]
  dsimp only
  rw [hf]
  cases hv : g.evaluate s i with
  | ok values => rfl
  | failed reason => rfl
  | upstream => exact absurd hv hown

end

end Graph

namespace Run

variable {g : Graph} {s : Snapshot} {r : Run}

/-- A moment of a run has nothing that an outcome as the graph means it lacks. -/
theorem within_of_agrees (hg : g.Runnable) (h : Faithful g s r) {o : ExecutionOutcome} (hagrees : o.Agrees g s)
    (cancelled : Bool) : (r.outcome cancelled).Within o := by
  refine ⟨fun t v hv => ?_, fun t reason ht => ?_⟩
  · obtain ⟨i, -, hiv⟩ := h.cache_sound t v hv
    rw [hagrees.cached, Graph.valueOf?, Graph.verdictOf?, g.producerOf?_of_value? hg hiv]
    exact hiv
  · obtain ⟨verdict, hverdict, hallows⟩ := verdict_of_failure hg h ht
    cases verdict with
    | ok values => exact hallows.elim
    | failed own =>
      obtain rfl : reason = own := hallows
      obtain ⟨i, -, hi⟩ := (verdictOf?_eq_some_iff hg).1 hverdict
      have hown : ∀ u, reason ≠ .dependencyFailure u := by
        rintro u rfl
        exact g.isOwn_of_evaluate hg hi
      exact .inl ((hagrees.reason t reason hown).2 hverdict)
    | upstream => exact .inr ⟨hallows, (hagrees.upstream t).2 hverdict⟩

/-- A running node makes the call that the graph means for it, if there is one. -/
theorem Faithful.compute_meant (hg : g.Runnable) (h : Faithful g s r) {i : Nat} (hi : r.statusOf i = .running) :
    ∃ call : Option Invocation, (r.compute i none).1 = r.note call ∧
      call.map (fun v => (v.node, v.evaluation)) = (g.meantCall? s i).map fun e => (i, e) := by
  obtain ⟨n, hn⟩ := h.exists_node (i := i) (by simp [hi])
  cases hkind : n.kind with
  | marketData key =>
    refine ⟨none, ?_, by rw [g.meantCall?_marketData hn hkind]; rfl⟩
    rw [compute_marketData (by rw [h.graph]; exact hn) hkind, note_none]
  | function f =>
    rw [g.meantCall?_function hn hkind (h.evaluate_ne_upstream hg (.inl hi))]
    unfold Run.compute
    rw [h.graph, hn]
    dsimp only
    rw [hkind]
    dsimp only
    rw [h.gatherInputs hg hi hn]
    exact ⟨some _, rfl, rfl⟩

/-- Executing a running node makes that call, and no other. -/
theorem Faithful.execute_meant (hg : g.Runnable) (h : Faithful g s r) {i : Nat} (hi : r.statusOf i = .running) :
    ∃ calls, HasCalled r (r.execute i) calls ∧
      calls.map (fun v => (v.node, v.evaluation)) = ((g.meantCall? s i).map fun e => (i, e)).toList := by
  obtain ⟨call, hcompute, hmeant⟩ := h.compute_meant hg hi
  refine ⟨call.toList, hasCalled_execute hcompute, ?_⟩
  rw [← hmeant]
  cases call with
  | none => rfl
  | some v => rfl

end Run

namespace Executor

open Run

section
variable {g : Graph} {s : Snapshot} {c : Control} {raised : Nat → Bool} {r : Run}

/-- Whether the calls made ask for cancellation is what the graph means. -/
theorem any_cancels_eq {calls : List Invocation} {i : Nat}
    (h : calls.map (fun v => (v.node, v.evaluation)) = ((g.meantCall? s i).map fun e => (i, e)).toList) :
    calls.any (·.evaluation.cancels) = g.requests s i := by
  have hany : calls.any (·.evaluation.cancels) =
      (calls.map fun v => (v.node, v.evaluation)).any (·.2.cancels) := by
    rw [List.any_map]
    rfl
  rw [hany, h, Graph.requests]
  cases g.meantCall? s i with
  | none => rfl
  | some e => simp

/-- Going through the rest of the order makes the calls that the graph means for the nodes up to the first one
that asks for cancellation. -/
theorem sweep_calls (hg : g.Runnable) {before rest nodes : List Nat} (horder : g.order = before ++ rest)
    (hraised : ∀ k, raised k = false) (h : Coherent g s c raised r) (hswept : Swept r before)
    (hsent : Sent g s r nodes) (hnodes : ∀ j ∈ nodes, j ∈ before) :
    ∃ calls, HasCalled r (sweep raised rest r).1 calls ∧
      calls.map (fun v => (v.node, v.evaluation)) =
        g.meantCalls s (g.untilRequest s ⟨r.isCancelled, c.attached⟩ rest) := by
  induction rest generalizing before r nodes with
  | nil => exact ⟨[], (KeepsRecord.refl r).hasCalled, by rw [Graph.untilRequest_nil]; rfl⟩
  | cons i rest ih =>
    have hnext : g.order = (before ++ [i]) ++ rest := by rw [horder, List.append_cons]
    rw [sweep, hraised]
    simp only [observe, Bool.false_eq_true, if_false]
    by_cases hcancelled : r.isCancelled = true
    · rw [if_pos hcancelled, hcancelled, Graph.untilRequest_of_cancelled]
      exact ⟨[], (KeepsRecord.refl r).hasCalled, rfl⟩
    rw [if_neg hcancelled, Bool.eq_false_iff.2 hcancelled, Graph.untilRequest_cons, Graph.meantCalls_cons]
    split
    · next hfailed =>
      have hbehind := hsent.evaluate_eq_upstream hfailed fun hi => (hswept.next hg horder h).1 (hnodes i hi)
      have hnone := g.meantCall?_eq_none hbehind
      have hquiet : g.requests s i = false := by rw [Graph.requests, hnone]; rfl
      obtain ⟨calls, hcalls, hmeant⟩ :=
        ih hnext h (hswept.skip hfailed) hsent fun j hj => List.mem_append_left _ (hnodes j hj)
      refine ⟨calls, hcalls, ?_⟩
      rw [hmeant, hnone, hquiet, Bool.and_false, Bool.eq_false_iff.2 hcancelled]
      rfl
    · next hfailed =>
      obtain ⟨-, hbegun, hst, -⟩ := hswept.begin hg horder h hfailed
      obtain ⟨hcoherent, hswept', hsent'⟩ := hsent.executeNext hg horder h hswept hfailed
      have hnodes' : ∀ j ∈ nodes ++ [i], j ∈ before ++ [i] := by
        intro j hj
        rw [List.mem_append] at hj ⊢
        exact hj.imp_left (hnodes j)
      obtain ⟨own, hown, hmeant⟩ := hbegun.toFaithful.execute_meant hg hst.statusOf_self
      replace hown : HasCalled r ((r.setStatus i .running).execute i) own :=
        ⟨hown.journal, hown.cancelRequested, hown.control⟩
      obtain ⟨calls, hcalls, hrest⟩ := ih hnext hcoherent hswept' hsent' hnodes'
      refine ⟨own ++ calls, hown.trans hcalls, ?_⟩
      have hstops : ((r.setStatus i .running).execute i).isCancelled = (c.attached && g.requests s i) := by
        rw [hown.isCancelled_eq, Bool.eq_false_iff.2 hcancelled, Bool.false_or, h.control_eq hraised,
          any_cancels_eq hmeant]
      rw [List.map_append, hmeant, hrest, hstops]

/-- One node after the other, a run calls the nodes up to the first one that asks for cancellation. -/
theorem journal_singleThreaded (hg : g.Runnable) {x : Interleaving} (hraised : ∀ k, x.raised k = false)
    (s : Snapshot) (c : Control) :
    (singleThreaded.runUnder x g s c).journal.map (fun v => (v.node, v.evaluation)) =
      g.meantCalls s (g.untilRequest s c g.order) := by
  obtain ⟨calls, hcalls, hmeant⟩ := sweep_calls hg (List.nil_append g.order).symm hraised
    (coherent_start hg s c x.raised) (swept_start g s c) (sent_start g s c) (by simp)
  have hstart : (start g s c).isCancelled = c.cancelled := by simp [isCancelled, start]
  have hjournal : (singleThreaded.runUnder x g s c).journal = calls := hcalls.journal
  rw [hjournal, hmeant, hstart]

end

/-! ## Whole runs -/

/-- What cancellation makes of a run: it starts no more nodes once it has seen that it is to stop, but those that
have started end; and what it comes to is within every run of the graph that is not cancelled. There are such
runs, those that leave requests aside. -/
structure Truncated (e : Executor) (x : Interleaving) (g : Graph) (s : Snapshot) (c : Control) : Prop where
  logged : (e.driveLogged x g s c).1 = e.drive x g s c
  dispatched : Dispatched g s (e.drive x g s c).1 (e.drive x g s c).2 (e.driveLogged x g s c).2
  within : ∀ (e' : Executor) (x' : Interleaving) (c' : Control), (e'.runUnder x' g s c').cancelled = false →
    (e.runUnder x g s c).Within (e'.runUnder x' g s c')
  uncancelled : ∀ (e' : Executor) (x' : Interleaving), (∀ k, x'.raised k = false) →
    (e'.runUnder x' g s { attached := false }).cancelled = false
  calls : e = .singleThreaded → (∀ k, x.raised k = false) →
    (e.runUnder x g s c).journal.map (fun v => (v.node, v.evaluation)) =
      g.meantCalls s (g.untilRequest s c g.order)

variable {compiler : GraphCompiler} {d : ViewDefinition} {a : Availability} {g : Graph}

/-- Whether and whenever it is cancelled, from outside or by its calls, every run of a compiled graph is a
truncated one, under every strategy with workers and under every interleaving. -/
theorem runUnder_truncated (hcompile : compiler.compileUncached d a = .ok g) {strategy : Strategy}
    (hworkers : 0 < strategy.workers) :
    ∃ e, ofStrategy strategy = .ok e ∧ ∀ (x : Interleaving) (s : Snapshot) (c : Control), e.Truncated x g s c := by
  have hg := Graph.runnable_of_compile hcompile
  obtain ⟨e, he⟩ := ofStrategy_isOk hworkers
  refine ⟨e, he, fun x s c => ⟨e.driveLogged_fst x g s c, driveLogged_dispatched hg e x s c, ?_, ?_, ?_⟩⟩
  · intro e' x' c' hgoes
    exact within_of_agrees hg (drive_atRest hg e x s c).toFaithful (runUnder_agrees hg e' x' s c' hgoes) _
  · exact fun e' x' hraised => cancelled_eq_false hg s rfl (absurd · Bool.false_ne_true) e' hraised
  · rintro rfl hraised
    exact journal_singleThreaded hg hraised s c

theorem demo_truncated : ∃ r g e, Demo.repository = .ok r ∧
    (GraphCompiler.ofRepository r 1).compileUncached (Demo.definition 2) Demo.everything = .ok g ∧
    0 < (Strategy.nodeParallel 2).workers ∧ ofStrategy (.nodeParallel 2) = .ok e ∧
    e.Truncated Demo.cancelledMidway g (Demo.snapshot 2) {} := by
  obtain ⟨r, g, hr, -, hg⟩ := Demo.exists_graph 2
  have hworkers : 0 < (Strategy.nodeParallel 2).workers := by decide
  obtain ⟨e, he, htruncated⟩ := runUnder_truncated hg hworkers
  exact ⟨r, g, e, hr, hg, hworkers, he, htruncated Demo.cancelledMidway (Demo.snapshot 2) {}⟩

end Executor
end Valuation
