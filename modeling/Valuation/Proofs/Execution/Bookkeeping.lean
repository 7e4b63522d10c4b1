import Mathlib.Data.Finset.Card
import Mathlib.Data.Finset.Filter
import Valuation.Proofs.Execution.Blame

/-!
# The books of a run

A run counts for each node what it waits for, and queues a node when nothing is left. The books are right in every
moment of every run: the count of a node is the number of its producers that have not executed, and of the waiting
nodes just those with count zero are queued, once each (`Run.Booked`). Each step keeps this (`Booked.apply`), and
so does every run (`Traces.booked`). No count is taken below zero, and what lies behind a node that fails by itself
has not started or has failed before (`drive_booked`).
-/
namespace Valuation

open Relation

namespace Graph

/-- The producers of the inputs of a node. -/
def producersOf (g : Graph) (i : Nat) : Finset Nat :=
  (((g.node? i).elim [] Node.inputs).filterMap g.producerOf?).toFinset

theorem Runnable.toFinset_dependenciesOf {g : Graph} (hg : g.Runnable) (i : Nat) :
    (g.dependenciesOf i).toFinset = g.producersOf i := by
  ext j
  rw [List.mem_toFinset, hg.mem_dependenciesOf, producersOf, List.mem_toFinset, List.mem_filterMap]
  cases g.node? i with
  | none => simp
  | some n => simp

end Graph

namespace Run

/-- The books of a run are right: the count of a node is the number of its producers that have not executed, and
of the waiting nodes just those with count zero are queued, once each. -/
structure Booked (g : Graph) (r : Run) : Prop where
  length_pending : r.pending.length = g.size
  pending : ∀ i, r.pending.getD i 0 = {j ∈ g.producersOf i | r.statusOf j ≠ .executed}.card
  ready_nodup : r.ready.Nodup
  mem_ready_iff : ∀ i, r.statusOf i = .notStarted → (i ∈ r.ready ↔ i < g.size ∧ r.pending.getD i 0 = 0)

section
variable {g : Graph} {s : Snapshot} {c : Control} {r r' : Run} {i j : Nat} {step : Step} {moments : List Moment}

/-- The counts are right in every moment that agrees with the meaning of the graph, and so is what is queued. -/
theorem Faithful.booked (hg : g.Runnable) (h : Faithful g s r) (hlength : r.pending.length = g.size)
    (hnodup : r.ready.Nodup) : Booked g r := by
  refine ⟨hlength, fun i => ?_, hnodup, fun i hi => ?_⟩
  · have hdeps : (g.dependenciesOf i).Nodup := (hg.dependencies_sorted i).imp Nat.ne_of_lt
    rw [h.pending, List.countP_eq_length_filter, ← List.toFinset_card_of_nodup (hdeps.filter _),
      List.toFinset_filter, hg.toFinset_dependenciesOf]
    simp
  · have hzero : r.pending.getD i 0 = 0 ↔ ∀ j ∈ g.dependenciesOf i, r.statusOf j = .executed := by
      rw [h.pending, List.countP_eq_zero]
      simp
    rw [hzero]
    exact ⟨fun hready => h.ready_sound i hready, fun ⟨hlt, hall⟩ => h.ready_complete i hlt hi hall⟩

theorem SameNodes.booked (h : SameNodes r r') (hr : Booked g r) : Booked g r' := by
  have hstatus : r'.statusOf = r.statusOf := funext h.statusOf_eq
  refine ⟨?_, ?_, ?_, ?_⟩
  · rw [h.pending]
    exact hr.length_pending
  · rw [h.pending, hstatus]
    exact hr.pending
  · rw [h.ready]
    exact hr.ready_nodup
  · rw [h.pending, h.ready, hstatus]
    exact hr.mem_ready_iff

/-! ## What a step does to the books -/

theorem firstReady_sublist {status : List NodeStatus} {ready rest : List Nat}
    (h : firstReady status ready = some (i, rest)) : rest.Sublist ready := by
  induction ready with
  | nil => cases h
  | cons j ready ih =>
    unfold firstReady at h
    split at h
    · cases h
      exact List.sublist_cons_self ..
    · exact (ih h).cons j

theorem fail_books (r : Run) (i : Nat) (reason : FailureReason) :
    (r.fail i reason).pending = r.pending ∧ (r.fail i reason).ready = r.ready := by
  have hrest : ∀ (dependency : Specification) (js : List Nat) (r : Run),
      (js.foldl (failDependent dependency) r).pending = r.pending ∧
        (js.foldl (failDependent dependency) r).ready = r.ready := by
    intro dependency js
    induction js with
    | nil => exact fun r => ⟨rfl, rfl⟩
    | cons j js ih =>
      intro r
      obtain ⟨hpending, hready⟩ := ih (failDependent dependency r j)
      have hone : (failDependent dependency r j).pending = r.pending ∧
          (failDependent dependency r j).ready = r.ready := by
        unfold failDependent
        split
        · exact ⟨rfl, rfl⟩
        · exact ⟨rfl, rfl⟩
      exact ⟨hpending.trans hone.1, hready.trans hone.2⟩
  unfold fail
  dsimp only
  split
  · exact ⟨rfl, rfl⟩
  · exact hrest ..

@[simp] theorem length_countDown (pending js : List Nat) : (countDown pending js).length = pending.length := by
  induction js generalizing pending with
  | nil => rfl
  | cons j js ih => exact (ih _).trans List.length_set

/-- A node that is queued when another has executed was not queued before: it waited for that one. -/
theorem Faithful.ready_complete_nodup (hg : g.Runnable) (h : Faithful g s r) (hi : r.statusOf i = .running)
    (hnodup : r.ready.Nodup) : (r.complete i).ready.Nodup := by
  have hbehind := hg.nodup_dependentsOf i
  rw [Run.complete, h.graph, foldl_release hbehind]
  refine List.nodup_append.2 ⟨hnodup, hbehind.filter _, ?_⟩
  rintro j hj _ hk rfl
  have hfeeds : i ∈ g.dependenciesOf j := (hg.mem_dependentsOf i j).1 (List.mem_filter.1 hk).1
  cases hi.symm.trans ((h.ready_sound j hj).2 i hfeeds)

/-- Every step keeps the books right. -/
theorem Booked.apply (hg : g.Runnable) (hr : Faithful g s r) (h : Booked g r) (hlaw : step.Lawful g s r)
    (hr' : Faithful g s (step.apply r)) : Booked g (step.apply r) := by
  cases hlaw with
  | look => exact h
  | mark => exact hr'.booked hg h.length_pending h.ready_nodup
  | take =>
    cases hnext : r.nextReady with
    | none =>
      have hsame : Step.take.apply r = r := by simp [Step.apply, hnext]
      rwa [hsame]
    | some next =>
      obtain ⟨⟨i, rest⟩, hfirst, rfl⟩ := Option.map_eq_some_iff.1 hnext
      have htaken : Step.take.apply r = { r with ready := rest }.setStatus i .running := by
        simp [Step.apply, hnext]
      rw [htaken] at hr' ⊢
      exact hr'.booked hg h.length_pending (h.ready_nodup.sublist (firstReady_sublist hfirst))
  | @complete i hi =>
    have hbehind : (r.graph.dependentsOf i).Nodup := hr.graph ▸ hg.nodup_dependentsOf i
    have hlength : (r.complete i).pending.length = r.pending.length := by
      rw [Run.complete, foldl_release hbehind]
      exact length_countDown ..
    exact hr'.booked hg (hlength.trans h.length_pending) (hr.ready_complete_nodup hg hi h.ready_nodup)
  | @fail i reason hi _ =>
    obtain ⟨hpending, hready⟩ := r.fail_books i reason
    exact hr'.booked hg (hpending ▸ h.length_pending) (hready ▸ h.ready_nodup)

/-- The books are right in every moment if they are so in the first. -/
theorem Traces.booked (hg : g.Runnable) (h : Traces g s r moments r') (hr : Booked g r) :
    (∀ m ∈ moments, Booked g m.run ∧ Booked g m.next) ∧ Booked g r' := by
  induction moments generalizing r with
  | nil => exact ⟨fun _ hm => absurd hm List.not_mem_nil, h.chained.booked hr⟩
  | cons m moments ih =>
    obtain ⟨⟨hsame, hchained⟩, hlawful⟩ := h
    obtain ⟨⟨hfaithful, hlaw, hnext⟩, hothers⟩ := List.forall_mem_cons.1 hlawful
    have hm : Booked g m.run := hsame.booked hr
    have hstep : Booked g m.next := hm.apply hg hfaithful hlaw hnext
    obtain ⟨hrest, hend⟩ := ih ⟨hchained, hothers⟩ hstep
    exact ⟨List.forall_mem_cons.2 ⟨⟨hm, hstep⟩, hrest⟩, hend⟩

theorem booked_start (hg : g.Runnable) (s : Snapshot) (c : Control) : Booked g (start g s c) := by
  have horder : g.order.Nodup := hg.order_perm.nodup_iff.2 List.nodup_range
  exact (faithful_start hg s c).booked hg ((List.length_map _).trans hg.dependencies_length) (horder.filter _)

/-! ## Ending a node -/

/-- A node that executes was waited for by every node that it releases, so that no count is taken below zero. -/
theorem Faithful.release_pos (hg : g.Runnable) (h : Faithful g s r) (hi : r.statusOf i = .running)
    {before after : List Nat} (hbehind : g.dependentsOf i = before ++ j :: after) :
    0 < (before.foldl release (r.setStatus i .executed)).pending.getD j 0 := by
  have hnodup : (before ++ j :: after).Nodup := hbehind ▸ hg.nodup_dependentsOf i
  obtain ⟨hbefore, -, hapart⟩ := List.nodup_append.1 hnodup
  have hj : j ∉ before := fun hj => hapart j hj j (List.mem_cons_self ..) rfl
  have hfeeds : i ∈ g.dependenciesOf j := (hg.mem_dependentsOf i j).1 (by simp [hbehind])
  have hcount : (before.foldl release (r.setStatus i .executed)).pending.getD j 0 = r.pending.getD j 0 := by
    rw [foldl_release hbefore]
    exact (getD_countDown hbefore r.pending j).trans (if_neg hj)
  rw [hcount, h.pending, List.countP_pos_iff]
  exact ⟨i, hfeeds, by simp [hi]⟩

/-- What lies behind a running node has not started, or has failed. -/
theorem Faithful.behind_of_running (h : Faithful g s r) (hi : r.statusOf i = .running)
    (hij : TransGen g.Feeds i j) : r.statusOf j = .notStarted ∨ r.statusOf j = .failed := by
  obtain ⟨k, hik, hkj⟩ := TransGen.tail'_iff.1 hij
  have hk : r.statusOf k ≠ .executed := by
    intro hk
    rcases reflTransGen_iff_eq_or_transGen.1 hik with rfl | hik
    · cases hi.symm.trans hk
    · cases hi.symm.trans (h.executed_of_transGen hik hk)
  cases hj : r.statusOf j with
  | notStarted => exact .inl rfl
  | failed => exact .inr rfl
  | running => exact absurd (h.begun j (.inl hj) k hkj) hk
  | executed => exact absurd (h.begun j (.inr hj) k hkj) hk

/-- The books of a run are right from the first moment to the last. No count is taken below zero, and what lies
behind a node that fails by itself has not started or has failed before. -/
structure KeepsBooks (g : Graph) (r : Run) (moments : List Moment) (r' : Run) : Prop where
  chained : Chained r moments r'
  started : Booked g r
  booked : ∀ m ∈ moments, Booked g m.run ∧ Booked g m.next
  ended : Booked g r'
  complete : ∀ m ∈ moments, ∀ i, m.step = .complete i →
    ∀ before j after, g.dependentsOf i = before ++ j :: after →
      0 < (before.foldl release (m.run.setStatus i .executed)).pending.getD j 0
  fail : ∀ m ∈ moments, ∀ i reason, m.step = .fail i reason → ∀ j, TransGen g.Feeds i j →
    m.run.statusOf j = .notStarted ∨ m.run.statusOf j = .failed

theorem Traces.keepsBooks (hg : g.Runnable) (h : Traces g s r moments r') (hr : Booked g r) :
    KeepsBooks g r moments r' := by
  obtain ⟨hbooked, hend⟩ := h.booked hg hr
  refine ⟨h.chained, hr, hbooked, hend, fun m hm i hstep before j after hbehind => ?_,
    fun m hm i reason hstep j hij => ?_⟩
  · obtain ⟨hfaithful, hlaw, -⟩ := h.lawful m hm
    rw [hstep] at hlaw
    cases hlaw with
    | complete hi => exact hfaithful.release_pos hg hi hbehind
  · obtain ⟨hfaithful, hlaw, -⟩ := h.lawful m hm
    rw [hstep] at hlaw
    cases hlaw with
    | fail hi _ => exact hfaithful.behind_of_running hi hij

end

end Run

namespace Executor

open Run

variable {compiler : GraphCompiler} {d : ViewDefinition} {a : Availability} {g : Graph}

/-- Every run of a compiled graph keeps its books, under every strategy and every interleaving, and whether or not
the run is cancelled. -/
theorem drive_booked (hcompile : compiler.compileUncached d a = .ok g) (e : Executor) (x : Interleaving)
    (s : Snapshot) (c : Control) :
    (e.driveTraced x g s c).1 = e.drive x g s c ∧
      KeepsBooks g (start g s c) (e.driveTraced x g s c).2 (e.drive x g s c).1 := by
  have hg := Graph.runnable_of_compile hcompile
  exact ⟨e.driveTraced_fst x g s c, (drive_traces hg e x s c).keepsBooks hg (booked_start hg s c)⟩

theorem demo_booked : ∃ r g, Demo.repository = .ok r ∧
    (GraphCompiler.ofRepository r 1).compileUncached (Demo.definition 2) Demo.everything = .ok g ∧
    KeepsBooks g (start g (Demo.snapshot 1) {}) (jobDispatch.driveTraced Demo.cancelledMidway g (Demo.snapshot 1) {}).2
      (jobDispatch.drive Demo.cancelledMidway g (Demo.snapshot 1) {}).1 := by
  obtain ⟨r, g, hr, -, hg⟩ := Demo.exists_graph 2
  exact ⟨r, g, hr, hg, (drive_booked hg .jobDispatch Demo.cancelledMidway (Demo.snapshot 1) {}).2⟩

end Executor
end Valuation
