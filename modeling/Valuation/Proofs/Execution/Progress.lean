import Valuation.Proofs.Execution.Cache
import Valuation.Proofs.Execution.Run

/-!
# What holds throughout a run

`Run.Faithful` ties every moment of a run to the meaning of its graph: what is cached has the values that
`Graph.evaluate` gives it, what has failed is recorded as a failure, the counts say what is left to wait
for, and whatever may start is queued. Starting a node keeps this (`Faithful.begin`), and so does ending it
(`Faithful.fail`, `Faithful.complete`), in whatever order nodes end. Whether the run is to stop does not
matter for any of it.
-/
namespace Valuation

open Relation

/-- How a verdict may be recorded as a failure. -/
def Verdict.Allows : Verdict → FailureReason → Prop
  | .ok _, _ => False
  | .failed reason, recorded => recorded = reason
  | .upstream, recorded => ∃ t, recorded = .dependencyFailure t

namespace Run

/-- The state of a run agrees with the meaning of its graph. -/
structure Tracks (g : Graph) (s : Snapshot) (r : Run) : Prop where
  graph : r.graph = g
  snapshot : r.snapshot = s
  length_status : r.status.length = g.size
  executed : ∀ i, r.statusOf i = .executed → (g.evaluate s i).isOk = true
  failed : ∀ i, r.statusOf i = .failed → (g.evaluate s i).isOk = false
  begun : ∀ i, r.statusOf i = .running ∨ r.statusOf i = .executed →
    ∀ j ∈ g.dependenciesOf i, r.statusOf j = .executed
  pending : ∀ i, r.pending.getD i 0 = (g.dependenciesOf i).countP fun j => r.statusOf j ≠ .executed
  ready_sound : ∀ i ∈ r.ready, i < g.size ∧ ∀ j ∈ g.dependenciesOf i, r.statusOf j = .executed
  ready_complete : ∀ i < g.size, r.statusOf i = .notStarted →
    (∀ j ∈ g.dependenciesOf i, r.statusOf j = .executed) → i ∈ r.ready
  cache_sound : ∀ t v, r.cache.get? t = some v →
    ∃ i, (r.statusOf i = .running ∨ r.statusOf i = .executed) ∧ (g.evaluate s i).value? t = some v
  cache_complete : ∀ i t v, r.statusOf i = .executed → (g.evaluate s i).value? t = some v →
    r.cache.get? t = some v
  failure_sound : ∀ t reason, r.failures.get? t = some reason →
    ∃ i, r.statusOf i = .failed ∧ t ∈ g.outputsOf i ∧ (g.evaluate s i).Allows reason
  failure_complete : ∀ i t, r.statusOf i = .failed → t ∈ g.outputsOf i → (r.failures.get? t).isSome

/-- In addition, nothing that waits has a failure before it. -/
structure Faithful (g : Graph) (s : Snapshot) (r : Run) : Prop extends Tracks g s r where
  waiting : ∀ i, r.statusOf i = .notStarted → ∀ j ∈ g.dependenciesOf i, r.statusOf j ≠ .failed

/-- Nodes only move forward, what is cached stays, and a run that is to stop is so for good. -/
structure Later (r r' : Run) : Prop where
  length_status : r'.status.length = r.status.length
  waits : ∀ j, r'.statusOf j = .notStarted → r.statusOf j = .notStarted
  runs : ∀ j, r'.statusOf j = .running → r.statusOf j = .notStarted ∨ r.statusOf j = .running
  executed : ∀ j, r.statusOf j = .executed → r'.statusOf j = .executed
  cached : ∀ t v, r.cache.get? t = some v → r'.cache.get? t = some v
  cancelled : r.isCancelled = true → r'.isCancelled = true

/-- One node has ended, and perhaps others have failed that had not started, those behind a failure. -/
structure Ended (r r' : Run) (i : Nat) : Prop where
  ended : r'.statusOf i = .executed ∨ r'.statusOf i = .failed
  others : ∀ j, j ≠ i → r'.statusOf j = r.statusOf j ∨
    r.statusOf j = .notStarted ∧ r'.statusOf j = .failed
  behind : ∀ j, j ≠ i → r.statusOf j = .notStarted → r'.statusOf j = .failed →
    r'.statusOf i = .failed ∧ j ∈ r.graph.downstream i

theorem Later.refl (r : Run) : Later r r := ⟨rfl, fun _ => id, fun _ => .inr, fun _ => id, fun _ _ => id, id⟩

theorem Later.trans {r r' r'' : Run} (h : Later r r') (h' : Later r' r'') : Later r r'' := by
  refine ⟨h'.length_status.trans h.length_status, fun j hj => h.waits j (h'.waits j hj), fun j hj => ?_,
    fun j hj => h'.executed j (h.executed j hj), fun t v hv => h'.cached t v (h.cached t v hv),
    fun hc => h'.cancelled (h.cancelled hc)⟩
  rcases h'.runs j hj with hj | hj
  · exact .inl (h.waits j hj)
  · exact h.runs j hj

section
variable {g : Graph} {s : Snapshot} {r : Run}

theorem Tracks.lt_size (h : Tracks g s r) {i : Nat} (hi : r.statusOf i ≠ .notStarted) : i < g.size :=
  h.length_status ▸ lt_of_statusOf_ne hi

theorem Tracks.exists_node (h : Tracks g s r) {i : Nat} (hi : r.statusOf i ≠ .notStarted) :
    ∃ n, g.node? i = some n :=
  ⟨_, List.getElem?_eq_getElem (h.lt_size hi)⟩

/-- What is cached is an output of a node that has started and not failed. -/
theorem Tracks.statusOf_of_cached (h : Tracks g s r) (hg : g.Runnable) {t : Specification}
    {v : DataValue} (hv : r.cache.get? t = some v) {i : Nat} (ht : t ∈ g.outputsOf i) :
    r.statusOf i = .running ∨ r.statusOf i = .executed := by
  obtain ⟨k, hk, hkv⟩ := h.cache_sound t v hv
  obtain rfl : i = k := hg.eq_of_mem_outputsOf ht (g.mem_outputsOf_of_value? hg hkv)
  exact hk

/-- What has a failure is an output of a node that has failed. -/
theorem Tracks.statusOf_of_failure (h : Tracks g s r) (hg : g.Runnable) {t : Specification}
    (hfails : r.failures.contains t = true) {i : Nat} (ht : t ∈ g.outputsOf i) : r.statusOf i = .failed := by
  obtain ⟨reason, hreason⟩ := Option.isSome_iff_exists.1 hfails
  obtain ⟨k, hk, htk, -⟩ := h.failure_sound t reason hreason
  obtain rfl : i = k := hg.eq_of_mem_outputsOf ht htk
  exact hk

/-- The outputs of a node that has executed are cached. -/
theorem Tracks.cached_of_executed (h : Tracks g s r) (hg : g.Runnable) {i : Nat}
    (hi : r.statusOf i = .executed) {t : Specification} (ht : t ∈ g.outputsOf i) :
    ∃ v, r.cache.get? t = some v := by
  obtain ⟨n, hn, ht⟩ := Graph.mem_outputsOf_iff.1 ht
  obtain ⟨v, hv⟩ := Option.isSome_iff_exists.1 ((g.value?_isSome_iff hg hn).2 ⟨h.executed i hi, ht⟩)
  exact ⟨v, h.cache_complete i t v hi hv⟩

/-- All that a node that has executed depends on, at once or not, has executed. -/
theorem Tracks.executed_of_transGen (h : Tracks g s r) {i j : Nat} (hji : TransGen g.Feeds j i)
    (hi : r.statusOf i = .executed) : r.statusOf j = .executed := by
  induction hji with
  | single hj => exact h.begun _ (.inr hi) j hj
  | tail _ hk ih => exact ih (h.begun _ (.inr hi) _ hk)

/-- What was called, and whether the run is to stop, has no part in it. -/
theorem Faithful.retold (h : Faithful g s r) (control : Control) (journal : List Invocation)
    (cancelRequested : Bool) : Faithful g s { r with control, journal, cancelRequested } :=
  ⟨⟨h.graph, h.snapshot, h.length_status, h.executed, h.failed, h.begun, h.pending, h.ready_sound,
    h.ready_complete, h.cache_sound, h.cache_complete, h.failure_sound, h.failure_complete⟩, h.waiting⟩

/-! ## Failing -/

/-- A node that cannot succeed is marked as failed. -/
theorem Tracks.markFailed (h : Tracks g s r) {k : Nat} (hk : k < g.size)
    (hstatus : r.statusOf k ≠ .executed) (hverdict : (g.evaluate s k).isOk = false)
    (failures : Table Specification FailureReason)
    (hsound : ∀ t reason, failures.get? t = some reason →
      r.failures.get? t = some reason ∨ t ∈ g.outputsOf k ∧ (g.evaluate s k).Allows reason)
    (hcomplete : ∀ t, (r.failures.get? t).isSome ∨ t ∈ g.outputsOf k → (failures.get? t).isSome) :
    Tracks g s ({ r with failures }.setStatus k .failed) := by
  have hst : Changes r ({ r with failures }.setStatus k .failed) k .failed :=
    changes_setStatus rfl (h.length_status ▸ hk) .failed
  have hexecuted := hst.statusOf_eq_iff .executed hstatus (by simp)
  refine ⟨h.graph, h.snapshot, ?_, ?_, ?_, ?_, ?_, ?_, ?_, fun t v hv => ?_, fun i t v hi hv => ?_, ?_, ?_⟩
  · rw [length_status_setStatus]
    exact h.length_status
  · intro i hi
    exact h.executed i ((hexecuted i).1 hi)
  · intro i hi
    rw [hst] at hi
    split at hi
    · next hki => exact hki ▸ hverdict
    · exact h.failed i hi
  · intro i hi j hj
    rw [hexecuted]
    refine h.begun i ?_ j hj
    rw [hexecuted, hst] at hi
    refine hi.imp_left fun hrunning => ?_
    split at hrunning
    · cases hrunning
    · exact hrunning
  · intro i
    simp only [ne_eq, hexecuted]
    exact h.pending i
  · intro i hi
    simp only [hexecuted]
    exact h.ready_sound i hi
  · intro i hi hwaits hall
    rw [hst] at hwaits
    simp only [hexecuted] at hall
    split at hwaits
    · cases hwaits
    · exact h.ready_complete i hi hwaits hall
  · obtain ⟨i, hi, hv⟩ := h.cache_sound t v hv
    have hki : k ≠ i := by
      rintro rfl
      rw [Verdict.isOk_of_value? hv] at hverdict
      cases hverdict
    exact ⟨i, by rwa [hst.statusOf_of_ne (Ne.symm hki)], hv⟩
  · exact h.cache_complete i t v ((hexecuted i).1 hi) hv
  · intro t reason ht
    rcases hsound t reason ht with hold | hnew
    · obtain ⟨i, hi, hti⟩ := h.failure_sound t reason hold
      exact ⟨i, by rw [hst, hi, ite_self], hti⟩
    · exact ⟨k, by rw [hst, if_pos rfl], hnew⟩
  · intro i t hi ht
    refine hcomplete t ?_
    rw [hst] at hi
    split at hi
    · next hki => exact .inr (hki ▸ ht)
    · exact .inl (h.failure_complete i t hi ht)

theorem Tracks.failDependent (h : Tracks g s r) {k : Nat} (hk : k < g.size)
    (hverdict : g.evaluate s k = .upstream) (dependency : Specification) :
    Tracks g s (failDependent dependency r k) := by
  unfold Run.failDependent
  split
  · next hwaits =>
    refine h.markFailed hk (by simp [hwaits]) (by rw [hverdict]; rfl) _ (fun t reason ht => ?_) fun t ht => ?_
    · rw [h.graph, Table.get?_foldl_insertNew, Option.or_eq_some_iff] at ht
      refine ht.imp_right fun hnew => ?_
      rw [Option.ite_none_right_eq_some, Option.some.injEq] at hnew
      rw [hverdict]
      exact ⟨hnew.2.1, dependency, hnew.2.2.symm⟩
    · rw [h.graph, Table.get?_foldl_insertNew, Option.isSome_or, Bool.or_eq_true]
      exact ht.imp_right fun hmem => by rw [if_pos hmem]; rfl
  · exact h

theorem Tracks.foldl_failDependent (h : Tracks g s r) {js : List Nat}
    (hjs : ∀ j ∈ js, j < g.size ∧ g.evaluate s j = .upstream) (dependency : Specification) :
    Tracks g s (js.foldl (Run.failDependent dependency) r) := by
  induction js generalizing r with
  | nil => exact h
  | cons j js ih =>
    rw [List.forall_mem_cons] at hjs
    exact ih (h.failDependent hjs.1.1 hjs.1.2 dependency) hjs.2

theorem Tracks.failAlone (h : Tracks g s r) {k : Nat} (hk : r.statusOf k = .running)
    {reason : FailureReason} (hverdict : g.evaluate s k = .failed reason) :
    Tracks g s (r.failAlone k reason) := by
  have hlt : k < g.size := h.lt_size (by simp [hk])
  refine h.markFailed hlt (by simp [hk]) (by rw [hverdict]; rfl) _ (fun t found ht => ?_) fun t ht => ?_
  · rw [h.graph, Table.get?_foldl_insert] at ht
    split at ht
    · next hmem => exact .inr ⟨hmem, by rw [hverdict]; exact (Option.some.inj ht).symm⟩
    · exact .inl ht
  · rw [h.graph, Table.get?_foldl_insert]
    split
    · rfl
    · next hmem => exact ht.resolve_right hmem

/-- A node fails, and with it all that waits behind it. -/
theorem Faithful.fail (hg : g.Runnable) (h : Faithful g s r) {i : Nat} (hi : r.statusOf i = .running)
    {reason : FailureReason} (hverdict : g.evaluate s i = .failed reason) :
    Faithful g s (r.fail i reason) ∧ Ended r (r.fail i reason) i := by
  have hlt : i < g.size := h.lt_size (by simp [hi])
  have hfails : (g.evaluate s i).isOk = false := by rw [hverdict]; rfl
  have houtputs := hg.outputsOf_ne_nil hlt
  obtain ⟨dependency, rest, hcons⟩ := List.exists_cons_of_ne_nil houtputs
  have hbehind : ∀ j ∈ g.downstream i, j < g.size ∧ g.evaluate s j = .upstream := by
    intro j hj
    obtain ⟨k, -, hkj⟩ := TransGen.tail'_iff.1 (hg.mem_downstream_iff.1 hj)
    exact ⟨hg.lt_size_of_mem_dependentsOf k j hkj, g.evaluate_downstream hg hfails hj⟩
  have htracks : Tracks g s (r.fail i reason) := by
    rw [fail_eq (by rw [h.graph]; exact hcons), h.graph]
    exact (h.toTracks.failAlone hi hverdict).foldl_failDependent hbehind dependency
  have hst : ∀ j, (r.fail i reason).statusOf j =
      if i = j ∨ j ∈ g.downstream i ∧ r.statusOf j = .notStarted then .failed else r.statusOf j := by
    intro j
    rw [statusOf_fail (h.length_status ▸ hlt) (by rw [h.graph]; exact houtputs), h.graph, h.length_status]
    have hiff : (j ∈ g.downstream i ∧ j < g.size ∧ r.statusOf j = .notStarted) ↔
        j ∈ g.downstream i ∧ r.statusOf j = .notStarted :=
      and_congr_right fun hj => and_iff_right (hbehind j hj).1
    simp only [hiff]
  have hself : (r.fail i reason).statusOf i = .failed := by
    rw [hst]
    simp
  refine ⟨⟨htracks, fun j hj k hk hkfailed => ?_⟩, ⟨.inr hself, fun j hji => ?_, fun j hji hj hfailed => ?_⟩⟩
  · -- a node that still waits lies neither at nor behind the failure, so no more does what it depends on
    rw [hst] at hj hkfailed
    split at hj
    · cases hj
    next hwaits =>
    have hnot : j ∉ g.downstream i := fun hmem => hwaits (.inr ⟨hmem, hj⟩)
    have hkj : j ∈ g.dependentsOf k := (hg.mem_dependentsOf k j).2 hk
    split at hkfailed
    · next hat =>
      rw [hg.mem_downstream_iff] at hnot
      rcases hat with rfl | ⟨hmem, -⟩
      · exact hnot (.single hkj)
      · exact hnot ((hg.mem_downstream_iff.1 hmem).tail hkj)
    · exact h.waiting j hj k hk hkfailed
  · rw [hst]
    split
    · next hat => exact .inr ⟨(hat.resolve_left (Ne.symm hji)).2, rfl⟩
    · exact .inl rfl
  · rw [hst] at hfailed
    split at hfailed
    · next hat =>
      rw [h.graph]
      exact ⟨hself, (hat.resolve_left (Ne.symm hji)).1⟩
    · cases hj.symm.trans hfailed

/-! ## Starting -/

/-- A node starts once all that it depends on has executed. The queue may lose what no longer waits. -/
theorem Faithful.begin (h : Faithful g s r) {i : Nat} (hi : i < g.size) (hwaits : r.statusOf i = .notStarted)
    (hdeps : ∀ j ∈ g.dependenciesOf i, r.statusOf j = .executed) {ready : List Nat}
    (hsub : ∀ j ∈ ready, j ∈ r.ready)
    (hkeep : ∀ j ∈ r.ready, r.statusOf j = .notStarted → j = i ∨ j ∈ ready) :
    Faithful g s ({ r with ready }.setStatus i .running) := by
  have hst : Changes r ({ r with ready }.setStatus i .running) i .running :=
    changes_setStatus rfl (h.length_status ▸ hi) .running
  have hexecuted := hst.statusOf_eq_iff .executed (by simp [hwaits]) (by simp)
  have hfailed := hst.statusOf_eq_iff .failed (by simp [hwaits]) (by simp)
  refine ⟨⟨h.graph, h.snapshot, ?_, ?_, ?_, ?_, ?_, ?_, ?_, fun t v hv => ?_, fun j t v hj hv => ?_, ?_, ?_⟩,
    ?_⟩
  · rw [length_status_setStatus]
    exact h.length_status
  · intro j hj
    exact h.executed j ((hexecuted j).1 hj)
  · intro j hj
    exact h.failed j ((hfailed j).1 hj)
  · intro j hj k hk
    rw [hexecuted]
    rw [hexecuted, hst] at hj
    by_cases hij : i = j
    · exact hdeps k (hij ▸ hk)
    · rw [if_neg hij] at hj
      exact h.begun j hj k hk
  · intro j
    simp only [ne_eq, hexecuted]
    exact h.pending j
  · intro j hj
    simp only [hexecuted]
    exact h.ready_sound j (hsub j hj)
  · intro j hj hjwaits hall
    rw [hst] at hjwaits
    simp only [hexecuted] at hall
    split at hjwaits
    · cases hjwaits
    · next hij =>
      exact (hkeep j (h.ready_complete j hj hjwaits hall) hjwaits).resolve_left (Ne.symm hij)
  · obtain ⟨k, hk, hv⟩ := h.cache_sound t v hv
    have hki : k ≠ i := by
      rintro rfl
      simp [hwaits] at hk
    exact ⟨k, by rwa [hst.statusOf_of_ne hki], hv⟩
  · exact h.cache_complete j t v ((hexecuted j).1 hj) hv
  · intro t reason ht
    simp only [hfailed]
    exact h.failure_sound t reason ht
  · intro j t hj
    exact h.failure_complete j t ((hfailed j).1 hj)
  · intro j hj k hk
    rw [Ne, hfailed]
    rw [hst] at hj
    split at hj
    · cases hj
    · exact h.waiting j hj k hk

/-! ## Executing -/

section
variable {r' : Run} {i : Nat} (h : Tracks g s r) (hst : Changes r r' i .executed)
include hst

theorem statusOf_of_executed {j : Nat} (hj : r.statusOf j = .executed) : r'.statusOf j = .executed := by
  rw [hst, hj, ite_self]

include h

/-- Dependents of a node that has executed wait for one dependency less. -/
theorem Tracks.pending_of_executed (hg : g.Runnable) (hi : r.statusOf i = .running)
    (hcount : ∀ j, r'.pending.getD j 0 =
      if j ∈ g.dependentsOf i then r.pending.getD j 0 - 1 else r.pending.getD j 0) (j : Nat) :
    r'.pending.getD j 0 = (g.dependenciesOf j).countP fun k => r'.statusOf k ≠ .executed := by
  have hone : ∀ k, decide (r'.statusOf k ≠ .executed) =
      (decide (r.statusOf k ≠ .executed) && decide (k ≠ i)) := by
    intro k
    rw [hst]
    by_cases hik : i = k
    · simp [hik]
    · simp [hik, Ne.symm hik]
  have hnodup : (g.dependenciesOf j).Nodup := (hg.dependencies_sorted j).imp Nat.ne_of_lt
  rw [hcount, countP_of_ne hnodup (by simp [hi]) hone, ← h.pending j]
  simp only [← hg.mem_dependentsOf]

/-- The queue still holds what can start, and all of it. -/
theorem Tracks.ready_of_executed (hg : g.Runnable)
    (hpending : ∀ j, r'.pending.getD j 0 =
      (g.dependenciesOf j).countP fun k => r'.statusOf k ≠ .executed)
    (hready : ∀ j, j ∈ r'.ready ↔ j ∈ r.ready ∨
      j ∈ g.dependentsOf i ∧ r'.pending.getD j 0 = 0 ∧ r'.statusOf j = .notStarted) :
    (∀ j ∈ r'.ready, j < g.size ∧ ∀ k ∈ g.dependenciesOf j, r'.statusOf k = .executed) ∧
      ∀ j < g.size, r'.statusOf j = .notStarted →
        (∀ k ∈ g.dependenciesOf j, r'.statusOf k = .executed) → j ∈ r'.ready := by
  have hnone : ∀ j, r'.pending.getD j 0 = 0 ↔ ∀ k ∈ g.dependenciesOf j, r'.statusOf k = .executed := by
    intro j
    rw [hpending, List.countP_eq_zero]
    simp
  refine ⟨fun j hj => ?_, fun j hj hwaits hall => ?_⟩
  · rcases (hready j).1 hj with hj | ⟨hj, hzero, -⟩
    · obtain ⟨hlt, hall⟩ := h.ready_sound j hj
      exact ⟨hlt, fun k hk => statusOf_of_executed hst (hall k hk)⟩
    · exact ⟨hg.lt_size_of_mem_dependentsOf i j hj, (hnone j).1 hzero⟩
  · rw [hready]
    by_cases hdep : j ∈ g.dependentsOf i
    · exact .inr ⟨hdep, (hnone j).2 hall, hwaits⟩
    · refine .inl (h.ready_complete j hj ?_ fun k hk => ?_)
      · rw [hst] at hwaits
        split at hwaits
        · cases hwaits
        · exact hwaits
      · have hki : k ≠ i := fun e => hdep ((hg.mem_dependentsOf i j).2 (e ▸ hk))
        rw [← hst.statusOf_of_ne hki]
        exact hall k hk

end

/-- A node whose values are cached executes, and what waits for nothing else is queued. -/
theorem Faithful.complete (hg : g.Runnable) (h : Faithful g s r) {i : Nat} (hi : r.statusOf i = .running)
    (hok : (g.evaluate s i).isOk = true)
    (hcached : ∀ t v, (g.evaluate s i).value? t = some v → r.cache.get? t = some v) :
    Faithful g s (r.complete i) ∧ Ended r (r.complete i) i := by
  have hlt : i < g.size := h.lt_size (by simp [hi])
  have hnodup : (r.graph.dependentsOf i).Nodup := h.graph ▸ hg.nodup_dependentsOf i
  obtain ⟨pending, ready, hr', hcount, hqueue⟩ := complete_eq hnodup
  generalize r.complete i = r' at hr'
  rw [h.graph] at hcount hqueue
  have hst : Changes r r' i .executed := by
    rw [hr']
    show Changes r ({ r with pending, ready }.setStatus i .executed) i .executed
    exact changes_setStatus rfl (h.length_status ▸ hlt) .executed
  have hfailed := hst.statusOf_eq_iff .failed (by simp [hi]) (by simp)
  have hpending := h.pending_of_executed hst hg hi (by rw [hr']; exact hcount)
  obtain ⟨hsound, hcomplete⟩ := h.ready_of_executed hst hg hpending (by rw [hr']; exact hqueue)
  refine ⟨⟨⟨?_, ?_, ?_, ?_, ?_, ?_, hpending, hsound, hcomplete, fun t v hv => ?_, fun j t v hj hv => ?_, ?_,
    ?_⟩, ?_⟩, ⟨?_, ?_, ?_⟩⟩
  · rw [hr']
    exact h.graph
  · rw [hr']
    exact h.snapshot
  · rw [hr']
    exact List.length_set.trans h.length_status
  · intro j hj
    rw [hst] at hj
    split at hj
    · next hij => exact hij ▸ hok
    · exact h.executed j hj
  · intro j hj
    exact h.failed j ((hfailed j).1 hj)
  · intro j hj k hk
    refine statusOf_of_executed hst (h.begun j ?_ k hk)
    by_cases hji : j = i
    · exact .inl (hji ▸ hi)
    · rwa [hst.statusOf_of_ne hji] at hj
  · rw [hr'] at hv
    obtain ⟨k, hk, hv⟩ := h.cache_sound t v hv
    refine ⟨k, ?_, hv⟩
    rw [hst]
    split
    · exact .inr rfl
    · exact hk
  · rw [hr']
    by_cases hji : j = i
    · exact hcached t v (hji ▸ hv)
    · exact h.cache_complete j t v (hst.statusOf_of_ne hji ▸ hj) hv
  · intro t reason ht
    simp only [hfailed]
    rw [hr'] at ht
    exact h.failure_sound t reason ht
  · intro j t hj ht
    rw [hr']
    exact h.failure_complete j t ((hfailed j).1 hj) ht
  · intro j hj k hk
    rw [Ne, hfailed]
    rw [hst] at hj
    split at hj
    · cases hj
    · exact h.waiting j hj k hk
  · exact .inl hst.statusOf_self
  · intro j hji
    exact .inl (hst.statusOf_of_ne hji)
  · intro j hji hj hjfailed
    rw [hst.statusOf_of_ne hji, hj] at hjfailed
    cases hjfailed

/-! ## The beginning -/

theorem statusOf_start (g : Graph) (s : Snapshot) (c : Control) (i : Nat) :
    (start g s c).statusOf i = .notStarted := by
  simp only [statusOf, start, List.getD_eq_getElem?_getD, List.getElem?_replicate]
  split
  · rfl
  · rfl

/-- A run begins with nothing done and with everything queued that waits for nothing. -/
theorem faithful_start (hg : g.Runnable) (s : Snapshot) (c : Control) : Faithful g s (start g s c) := by
  have hst := statusOf_start g s c
  have hpending : ∀ i, (start g s c).pending.getD i 0 = (g.dependenciesOf i).length := by
    intro i
    simp only [start, Graph.dependenciesOf, List.getD_eq_getElem?_getD, List.getElem?_map]
    cases g.dependencies[i]? with
    | none => rfl
    | some ps => rfl
  have hready : ∀ i, i ∈ (start g s c).ready ↔ i < g.size ∧ g.dependenciesOf i = [] := by
    intro i
    have hmem : i ∈ g.order ↔ i < g.size := by rw [hg.order_perm.mem_iff, List.mem_range]
    have hiff : i ∈ (start g s c).ready ↔ i ∈ g.order ∧ (start g s c).pending.getD i 0 = 0 := by
      simp [start]
    rw [hiff, hmem, hpending, List.length_eq_zero_iff]
  have hno : ∀ {p : Prop} {i : Nat} {status : NodeStatus}, status ≠ .notStarted →
      (start g s c).statusOf i = status → p := by
    intro p i status hne hi
    exact absurd (hi.symm.trans (hst i)) hne
  refine ⟨⟨rfl, rfl, List.length_replicate, ?_, ?_, ?_, ?_, ?_, ?_, ?_, ?_, ?_, ?_⟩, ?_⟩
  · exact fun i hi => hno (by simp) hi
  · exact fun i hi => hno (by simp) hi
  · rintro i (hi | hi)
    · exact hno (by simp) hi
    · exact hno (by simp) hi
  · intro i
    simp only [hst]
    rw [hpending, List.countP_eq_length.2 (by simp)]
  · intro i hi
    obtain ⟨hlt, hnil⟩ := (hready i).1 hi
    exact ⟨hlt, by simp [hnil]⟩
  · intro i hlt _ hall
    refine (hready i).2 ⟨hlt, List.eq_nil_iff_forall_not_mem.2 fun j hj => ?_⟩
    exact hno (by simp) (hall j hj)
  · intro t v hv
    cases hv
  · exact fun i t v hi => hno (by simp) hi
  · intro t reason ht
    cases ht
  · exact fun i t hi => hno (by simp) hi
  · intro i _ j _ hj
    exact hno (by simp) hj

end

end Run
end Valuation
