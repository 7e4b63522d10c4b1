import Valuation.Proofs.Execution.Progress

/-!
# The calls of a run

A run calls the function of a node on the values that are cached for the node's inputs, once all that the
node depends on has executed (`Run.Called`). It calls no node twice, and it has been asked for cancellation
just if one of its calls did so (`Run.Recorded`). Moments that only move forward keep this
(`Recorded.later`), and so does one more call, of a node that has not been called (`Recorded.note`).
-/
namespace Valuation

/-- A call of the function of a node, on what was cached for the node's inputs. -/
structure Invocation.IsCallOf (v : Invocation) (n : Node) (f : CalculationFunction) : Prop where
  kind : n.kind = .function f
  functionId : v.functionId = f.id
  target : v.target = n.target
  inputs : n.gatherInputs v.cache = .ok v.inputs
  evaluation : v.evaluation = f.execute n.target v.inputs n.outputs

namespace Run

/-- A call of a node that has started, made when all that the node depends on had executed. -/
structure Called (g : Graph) (r : Run) (v : Invocation) : Prop where
  isCall : ∃ n f, g.node? v.node = some n ∧ v.IsCallOf n f
  begun : r.statusOf v.node ≠ .notStarted
  dependencies : ∀ j ∈ g.dependenciesOf v.node, r.statusOf j = .executed
  cached : ∀ t w, v.cache.get? t = some w → r.cache.get? t = some w

/-- What holds of the journal at every moment of a run. -/
structure Recorded (g : Graph) (r : Run) : Prop where
  called : ∀ v ∈ r.journal, Called g r v
  nodup : (r.journal.map (·.node)).Nodup
  cancelRequested : r.cancelRequested = r.journal.any (·.evaluation.cancels)

/-- A run with one more call, if there is one. -/
def note (r : Run) (call : Option Invocation) : Run :=
  { r with
    journal := r.journal ++ call.toList
    cancelRequested := r.cancelRequested || call.any (·.evaluation.cancels) }

@[simp] theorem note_none (r : Run) : r.note none = r := by
  simp [note]

theorem isCancelled_note {r : Run} (h : r.isCancelled = true) (call : Option Invocation) :
    (r.note call).isCancelled = true := by
  rcases Bool.or_eq_true_iff.1 h with h | h
  · simp [isCancelled, note, h]
  · simp only [Bool.and_eq_true] at h
    simp [isCancelled, note, h]

section
variable {g : Graph} {r r' : Run}

theorem Called.later {v : Invocation} (h : Called g r v) (hlater : Later r r') : Called g r' v :=
  ⟨h.isCall, fun hwaits => h.begun (hlater.waits _ hwaits),
    fun j hj => hlater.executed j (h.dependencies j hj),
    fun t w hw => hlater.cached t w (h.cached t w hw)⟩

theorem Recorded.later (h : Recorded g r) (hlater : Later r r') (hjournal : r'.journal = r.journal)
    (hrequested : r'.cancelRequested = r.cancelRequested) : Recorded g r' := by
  refine ⟨fun v hv => (h.called v ?_).later hlater, ?_, ?_⟩
  · exact hjournal ▸ hv
  · rw [hjournal]
    exact h.nodup
  · rw [hjournal, hrequested]
    exact h.cancelRequested

theorem Recorded.keeps (h : Recorded g r) (hlater : Later r r') (hkeeps : KeepsRecord r r') : Recorded g r' :=
  h.later hlater hkeeps.journal hkeeps.cancelRequested

theorem later_note (r : Run) (call : Option Invocation) : Later r (r.note call) :=
  ⟨rfl, fun _ => id, fun _ => .inr, fun _ => id, fun _ _ => id, fun h => isCancelled_note h call⟩

/-- A call of a node that has not been called before. -/
theorem Recorded.note (h : Recorded g r) {call : Option Invocation}
    (hcall : ∀ v ∈ call, Called g r v ∧ ∀ w ∈ r.journal, w.node ≠ v.node) : Recorded g (r.note call) := by
  cases call with
  | none => rwa [note_none]
  | some v =>
    obtain ⟨hcalled, hnew⟩ := hcall v rfl
    have hlater := later_note r (some v)
    refine ⟨fun w hw => ?_, ?_, ?_⟩
    · rcases List.mem_append.1 hw with hw | hw
      · exact (h.called w hw).later hlater
      · obtain rfl := List.mem_singleton.1 hw
        exact hcalled.later hlater
    · simpa [Run.note, List.nodup_append, h.nodup] using hnew
    · simp [Run.note, h.cancelRequested]

/-- A node that has not started has not been called. -/
theorem Recorded.uncalled (h : Recorded g r) {i : Nat} (hwaits : r.statusOf i = .notStarted) :
    ∀ v ∈ r.journal, v.node ≠ i := by
  rintro v hv rfl
  exact (h.called v hv).begun hwaits

theorem recorded_start (g : Graph) (s : Snapshot) (c : Control) : Recorded g (start g s c) :=
  ⟨fun _ hv => absurd hv List.not_mem_nil, List.nodup_nil, rfl⟩

end

end Run
end Valuation
