import Valuation.Proofs.Execution.Outcome
import Valuation.Proofs.Specification
import Valuation.Proofs.Table

/-!
# Which functions a run calls, and with what

However the nodes in flight interleave and whenever a run is cancelled, it calls the function of a node at most
once, when all inputs of the node are cached, and with just these inputs (`runUnder_callsInOrder`). Nothing
behind a failure is called. So the inputs of a node are never missing, its outputs are never there already,
and no failure is put down to either.
-/
namespace Valuation

/-! ## The inputs of a call -/

/-- The inputs of a call are the values given, each once. -/
theorem FunctionInputs.toList_ofList_perm {values : List ComputedValue}
    (h : (values.map (·.specification)).Nodup) :
    (FunctionInputs.ofList values).toList.Perm (values.map fun v => (v.specification, v.value)) := by
  refine Table.toList_ofList_perm ?_
  rwa [List.map_map]

namespace Node

variable {n : Node} {c : ComputationCache} {inputs : FunctionInputs}

theorem toList_perm_of_gatherInputs (h : n.gatherInputs c = .ok inputs) (hnodup : n.inputs.Nodup) :
    inputs.toList.Perm ((c.getMany n.inputs).map fun v => (v.specification, v.value)) := by
  obtain ⟨hall, rfl⟩ := gatherInputs_eq_ok_iff.1 h
  refine FunctionInputs.toList_ofList_perm ?_
  rwa [ComputationCache.specifications_getMany hall]

/-- The inputs that are gathered are the declared ones at their cached values. -/
theorem mem_toList_of_gatherInputs (h : n.gatherInputs c = .ok inputs) (hnodup : n.inputs.Nodup)
    {t : Specification} {w : DataValue} : (t, w) ∈ inputs.toList ↔ t ∈ n.inputs ∧ c.get? t = some w := by
  rw [(toList_perm_of_gatherInputs h hnodup).mem_iff, List.mem_map]
  constructor
  · rintro ⟨v, hv, heq⟩
    cases heq
    exact ComputationCache.mem_getMany.1 hv
  · intro htw
    exact ⟨⟨t, w⟩, ComputationCache.mem_getMany.2 htw, rfl⟩

theorem size_of_gatherInputs (h : n.gatherInputs c = .ok inputs) (hnodup : n.inputs.Nodup) :
    inputs.size = n.inputs.length := by
  have hall := (gatherInputs_eq_ok_iff.1 h).1
  calc inputs.size
      = ((c.getMany n.inputs).map fun v => (v.specification, v.value)).length :=
        (toList_perm_of_gatherInputs h hnodup).length_eq
    _ = ((c.getMany n.inputs).map (·.specification)).length := by rw [List.length_map, List.length_map]
    _ = n.inputs.length := by rw [ComputationCache.specifications_getMany hall]

end Node

/-! ## The calls of an outcome -/

/-- What an outcome tells of the calls of its run. -/
structure ExecutionOutcome.CallsInOrder (o : ExecutionOutcome) (g : Graph) : Prop where
  once : (o.journal.map (·.node)).Nodup
  function : ∀ v ∈ o.journal, ∃ n f, g.node? v.node = some n ∧ n.kind = .function f ∧
    v.functionId = f.id ∧ v.target = n.target ∧ v.evaluation = f.execute n.target v.inputs n.outputs
  ready : ∀ v ∈ o.journal, ∀ n, g.node? v.node = some n → ∀ t ∈ n.inputs, v.cache.contains t = true
  inputs : ∀ v ∈ o.journal, ∀ n, g.node? v.node = some n → v.inputs.size = n.inputs.length ∧
    ∀ t w, (t, w) ∈ v.inputs.toList ↔ t ∈ n.inputs ∧ v.cache.get? t = some w
  kept : ∀ v ∈ o.journal, ∀ t w, v.cache.get? t = some w → o.cache.get? t = some w
  behind : ∀ v ∈ o.journal, ∀ i, (∃ t ∈ g.outputsOf i, o.failures.contains t = true) →
    ¬Relation.TransGen g.Feeds i v.node
  reasons : ∀ t reason, o.failures.get? t = some reason →
    ∀ u, reason ≠ .missingInput u ∧ reason ≠ .duplicateValue u

namespace Run

variable {g : Graph} {s : Snapshot} {r : Run}

/-- No node behind one that has failed is called. -/
theorem Called.not_behind (h : Tracks g s r) {v : Invocation} (hv : Called g r v) {i : Nat}
    (hi : r.statusOf i = .failed) : ¬Relation.TransGen g.Feeds i v.node := by
  intro hbehind
  obtain ⟨k, hik, hk⟩ := Relation.TransGen.tail'_iff.1 hbehind
  have hexecuted : r.statusOf i = .executed := by
    rcases Relation.reflTransGen_iff_eq_or_transGen.1 hik with rfl | hik
    · exact hv.dependencies k hk
    · exact h.executed_of_transGen hik (hv.dependencies k hk)
  cases hi.symm.trans hexecuted

/-- A failure is a node's own, or another node's. -/
theorem Tracks.reason_of_failure (h : Tracks g s r) (hg : g.Runnable) {t : Specification}
    {reason : FailureReason} (ht : r.failures.get? t = some reason) :
    reason.IsOwn ∨ ∃ u, reason = .dependencyFailure u := by
  obtain ⟨i, -, -, hallows⟩ := h.failure_sound t reason ht
  cases hv : g.evaluate s i with
  | ok values => exact (hv ▸ hallows : Verdict.Allows (.ok values) reason).elim
  | failed own =>
    have heq : reason = own := (hv ▸ hallows : Verdict.Allows (.failed own) reason)
    exact .inl (heq ▸ g.isOwn_of_evaluate hg hv)
  | upstream => exact .inr (hv ▸ hallows : Verdict.Allows .upstream reason)

/-- A moment of a run tells of its calls what the outcome of a run does. -/
theorem Coherent.callsInOrder (hg : g.Runnable) {c : Control} {raised : Nat → Bool}
    (h : Coherent g s c raised r) (cancelled : Bool) : (r.outcome cancelled).CallsInOrder g := by
  refine ⟨h.nodup, fun v hv => ?_, fun v hv n hn => ?_, fun v hv n hn => ?_, fun v hv => ?_,
    fun v hv i hi => ?_, fun t reason ht u => ?_⟩
  · obtain ⟨n, f, hn, hcall⟩ := (h.called v hv).isCall
    exact ⟨n, f, hn, hcall.kind, hcall.functionId, hcall.target, hcall.evaluation⟩
  · obtain ⟨m, f, hm, hcall⟩ := (h.called v hv).isCall
    obtain rfl : n = m := Option.some.inj (hn.symm.trans hm)
    exact (Node.gatherInputs_eq_ok_iff.1 hcall.inputs).1
  · obtain ⟨m, f, hm, hcall⟩ := (h.called v hv).isCall
    obtain rfl : n = m := Option.some.inj (hn.symm.trans hm)
    have hnodup := hg.inputs_nodup v.node n hn
    exact ⟨Node.size_of_gatherInputs hcall.inputs hnodup,
      fun t w => Node.mem_toList_of_gatherInputs hcall.inputs hnodup⟩
  · exact (h.called v hv).cached
  · obtain ⟨t, ht, hfails⟩ := hi
    exact (h.called v hv).not_behind h.toTracks (h.statusOf_of_failure hg hfails ht)
  · rcases h.reason_of_failure hg ht with hown | ⟨w, rfl⟩
    · cases reason <;> simp_all [FailureReason.IsOwn]
    · simp

end Run

namespace Executor

variable {compiler : GraphCompiler} {d : ViewDefinition} {a : Availability} {g : Graph}

/-- Every run of a compiled graph calls functions in order, under every strategy with workers, under every
interleaving, and whether and whenever it is cancelled. -/
theorem runUnder_callsInOrder (hcompile : compiler.compileUncached d a = .ok g) {strategy : Strategy}
    (hworkers : 0 < strategy.workers) :
    ∃ e, ofStrategy strategy = .ok e ∧ ∀ (x : Interleaving) (s : Snapshot) (c : Control),
      (e.runUnder x g s c).CallsInOrder g := by
  have hg := Graph.runnable_of_compile hcompile
  obtain ⟨e, he⟩ := ofStrategy_isOk hworkers
  exact ⟨e, he, fun x s c => (drive_atRest hg e x s c).callsInOrder hg _⟩

theorem demo_callsInOrder : ∃ r g e, Demo.repository = .ok r ∧
    (GraphCompiler.ofRepository r 1).compileUncached (Demo.definition 2) Demo.everything = .ok g ∧
    0 < (Strategy.jobDispatch 2).workers ∧ ofStrategy (.jobDispatch 2) = .ok e ∧
    (e.runUnder Demo.cancelledMidway g (Demo.snapshot 2) {}).CallsInOrder g := by
  obtain ⟨r, g, hr, -, hg⟩ := Demo.exists_graph 2
  have hworkers : 0 < (Strategy.jobDispatch 2).workers := by decide
  obtain ⟨e, he, hcalls⟩ := runUnder_callsInOrder hg hworkers
  exact ⟨r, g, e, hr, hg, hworkers, he, hcalls Demo.cancelledMidway (Demo.snapshot 2) {}⟩

end Executor
end Valuation
