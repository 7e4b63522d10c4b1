import Valuation.Proofs.Execution.Cancellation
import Valuation.Proofs.Specification
import Valuation.Proofs.Table

/-!
# The failures of a run are listed in order

A failure is filed under the specification that failed, so a run lists its failures in the order of these, each
once, whichever way it goes (`sorted_failures`).
-/
namespace Valuation

/-- Filing keeps a table in order. -/
theorem Table.sorted_foldl {κ υ α : Type} [Ord κ] {f : Table κ υ → α → Table κ υ}
    (hf : ∀ t x, t.Sorted → (f t x).Sorted) (xs : List α) {t : Table κ υ} (h : t.Sorted) :
    (xs.foldl f t).Sorted := by
  induction xs generalizing t with
  | nil => exact h
  | cons x xs ih => exact ih (hf t x h)

theorem Table.Sorted.insertNew {κ υ : Type} [DecidableEq κ] [Ord κ] [Std.TransOrd κ] [Std.LawfulEqOrd κ]
    {t : Table κ υ} (h : t.Sorted) (key : κ) (value : υ) : (t.insertNew key value).Sorted := by
  unfold Table.insertNew
  split
  · exact h
  · exact h.insert key value

namespace Run

variable {r : Run}

/-! ## Steps -/

theorem failures_compute (r : Run) (i : Nat) (inputs : Option FunctionInputs) :
    (r.compute i inputs).1.failures = r.failures := by
  obtain ⟨call, -, h⟩ := r.compute_eq_note i inputs
  rw [h]
  rfl

theorem failures_write (r : Run) (values : Except FailureReason (List ComputedValue)) :
    (r.write values).1.failures = r.failures := by
  unfold write
  split
  · rfl
  · split <;> rfl

theorem failures_complete (r : Run) (i : Nat) : (r.complete i).failures = r.failures := by
  have hrelease : ∀ (js : List Nat) (r : Run), (js.foldl release r).failures = r.failures := by
    intro js
    induction js with
    | nil => exact fun _ => rfl
    | cons j js ih =>
      intro r
      rw [List.foldl_cons, ih, release_eq]
  exact hrelease _ _

theorem sorted_failDependent (h : r.failures.Sorted) (dependency : Specification) (i : Nat) :
    (r.failDependent dependency i).failures.Sorted := by
  unfold failDependent
  split
  · exact Table.sorted_foldl (fun t o ht => ht.insertNew o _) _ h
  · exact h

theorem sorted_fail (h : r.failures.Sorted) (i : Nat) (reason : FailureReason) :
    (r.fail i reason).failures.Sorted := by
  have halone : (r.failAlone i reason).failures.Sorted := Table.sorted_foldl (fun t o ht => ht.insert o _) _ h
  cases houtputs : r.graph.outputsOf i with
  | nil =>
    simp only [fail, houtputs]
    exact h
  | cons dependency rest =>
    rw [fail_eq houtputs]
    generalize r.graph.downstream i = js, r.failAlone i reason = r₁ at halone ⊢
    induction js generalizing r₁ with
    | nil => exact halone
    | cons j js ih => exact ih _ (sorted_failDependent halone dependency j)

theorem sorted_finish (h : r.failures.Sorted) (i : Nat) (values : Except FailureReason (List ComputedValue)) :
    (r.finish i values).failures.Sorted := by
  have hwrite := failures_write r values
  unfold finish
  split
  · next r₁ reason heq =>
    rw [heq] at hwrite
    exact sorted_fail (hwrite ▸ h) i reason
  · next r₁ _ heq =>
    rw [heq] at hwrite
    rw [failures_complete]
    exact hwrite ▸ h

theorem sorted_execute (h : r.failures.Sorted) (i : Nat) : (r.execute i).failures.Sorted :=
  sorted_finish ((failures_compute r i none).symm ▸ h) i _

theorem failures_observe (r : Run) (raised : Bool) : (r.observe raised).failures = r.failures := by
  cases raised <;> rfl

theorem failures_nextReady {i : Nat} {r' : Run} (h : r.nextReady = some (i, r')) : r'.failures = r.failures := by
  obtain ⟨⟨k, rest⟩, -, heq⟩ := Option.map_eq_some_iff.1 h
  cases heq
  rfl

end Run

namespace Executor

open Run

variable {r : Run}

/-! ## Strategies -/

theorem sorted_sweep (raised : Nat → Bool) (rest : List Nat) (h : r.failures.Sorted) :
    (sweep raised rest r).1.failures.Sorted := by
  induction rest generalizing r with
  | nil => exact h
  | cons i rest ih =>
    have hobserve : (r.observe (raised rest.length)).failures.Sorted := (failures_observe r _).symm ▸ h
    unfold sweep
    dsimp only
    split
    · exact hobserve
    split
    · exact ih hobserve
    · have hstart : ((r.observe (raised rest.length)).setStatus i .running).failures.Sorted := hobserve
      exact ih (sorted_execute hstart i)

section
variable (copyInputs : Bool)

theorem failures_workOn (ks : List Nat) (r : Run) (jobs : List Job) :
    (workOn copyInputs ks r jobs).1.failures = r.failures := by
  have hwork : ∀ (r : Run) (job : Job), (work copyInputs r job).1.failures = r.failures := by
    intro r job
    unfold work
    split
    · exact failures_compute ..
    · split
      · rfl
      · exact failures_write ..
  induction ks generalizing r jobs with
  | nil => rfl
  | cons k ks ih =>
    unfold workOn
    split
    · exact ih r jobs
    · exact (ih ..).trans (hwork ..)

theorem sorted_finishJob (h : r.failures.Sorted) (job : Job) : (finishJob r job).failures.Sorted := by
  unfold finishJob
  split
  · exact sorted_finish ((failures_compute r _ _).symm ▸ h) _ _
  · exact sorted_finish h _ _

theorem sorted_submit (h : r.failures.Sorted) (jobs : List Job) (i : Nat) :
    (submit copyInputs r jobs i).1.failures.Sorted := by
  unfold submit
  split
  · exact h
  split
  · exact h
  split
  · exact sorted_execute h i
  split
  · exact h
  · exact sorted_fail h i _

theorem sorted_submitReady (meanwhile : Nat → List Nat) (fuel : Nat) (h : r.failures.Sorted) (jobs : List Job) :
    (submitReady copyInputs meanwhile fuel r jobs).1.failures.Sorted := by
  induction fuel generalizing r jobs with
  | zero => exact h
  | succ fuel ih =>
    unfold submitReady
    split
    · exact h
    next i r₁ hnext =>
    have hsubmit := sorted_submit copyInputs ((failures_nextReady hnext).symm ▸ h) jobs i
    exact ih ((failures_workOn copyInputs ..).symm ▸ hsubmit) _

theorem sorted_rounds (x : Interleaving) (fuel : Nat) (h : r.failures.Sorted) (jobs : List Job) :
    (rounds copyInputs x fuel r jobs).1.failures.Sorted := by
  induction fuel generalizing r jobs with
  | zero => exact h
  | succ fuel ih =>
    rw [rounds]
    replace h : (r.observe (x.raised fuel)).failures.Sorted := (failures_observe r _).symm ▸ h
    generalize r.observe (x.raised fuel) = r₁ at h
    have hqueued : (if r₁.isCancelled then (r₁, jobs)
        else submitReady copyInputs (x.meanwhile fuel) (r₁.graph.size + 1) r₁ jobs).1.failures.Sorted := by
      split
      · exact h
      · exact sorted_submitReady copyInputs _ _ h jobs
    dsimp only
    generalize (if r₁.isCancelled then (r₁, jobs)
      else submitReady copyInputs (x.meanwhile fuel) (r₁.graph.size + 1) r₁ jobs) = queued at hqueued
    replace hqueued := (failures_workOn copyInputs (x.early fuel) queued.1 queued.2).symm ▸ hqueued
    split
    · exact hqueued
    · exact ih (sorted_finishJob hqueued _) _

end

/-- Every run lists its failures in the order of what failed. -/
theorem sorted_failures (e : Executor) (x : Interleaving) (g : Graph) (s : Snapshot) (c : Control) :
    (e.runUnder x g s c).failures.Sorted := by
  have hstart : (Run.start g s c).failures.Sorted := Table.sorted_empty
  cases e with
  | singleThreaded => exact sorted_sweep x.raised g.order hstart
  | nodeParallel => exact sorted_rounds false x (g.size + 1) hstart []
  | jobDispatch => exact sorted_rounds true x (g.size + 1) hstart []

end Executor
end Valuation
