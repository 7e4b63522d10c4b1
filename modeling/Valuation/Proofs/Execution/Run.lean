import Mathlib.Data.List.Nodup
import Valuation.Execution.Run

/-!
# The steps of a run

What each operation of a run does to the statuses, the counts, the queue and the failures. A node that
executes counts its dependents down and queues those that have nothing left to wait for
(`complete_eq`); failing changes statuses and failures only (`statusOf_foldl_failDependent`). Neither
touches what was called or cached (`KeepsRecord`).
-/
namespace Valuation

namespace Table

variable {κ υ : Type} [DecidableEq κ] [Ord κ]

theorem get?_foldl_insert (keys : List κ) (value : υ) (t : Table κ υ) (k : κ) :
    (keys.foldl (fun t key => t.insert key value) t).get? k =
      if k ∈ keys then some value else t.get? k := by
  induction keys generalizing t with
  | nil => simp
  | cons key keys ih =>
    rw [List.foldl_cons, ih, get?_insert]
    by_cases hk : k ∈ keys
    · simp [hk]
    · simp [hk, eq_comm]

theorem get?_foldl_insertNew (keys : List κ) (value : υ) (t : Table κ υ) (k : κ) :
    (keys.foldl (fun t key => t.insertNew key value) t).get? k =
      (t.get? k).or (if k ∈ keys then some value else none) := by
  induction keys generalizing t with
  | nil => simp
  | cons key keys ih =>
    rw [List.foldl_cons, ih, get?_insertNew]
    by_cases hkey : key = k
    · subst hkey
      cases ht : t.get? key <;> simp [contains, ht]
    · by_cases hc : t.contains key <;> simp [hc, hkey, Ne.symm hkey]

end Table

namespace Run

/-! ## Statuses -/

@[simp] theorem statusOf_setStatus (r : Run) (i j : Nat) (s : NodeStatus) :
    (r.setStatus i s).statusOf j =
      if i = j ∧ i < r.status.length then s else r.statusOf j := by
  simp only [statusOf, setStatus, List.getD_eq_getElem?_getD, List.getElem?_set]
  by_cases hij : i = j
  · subst hij
    by_cases hi : i < r.status.length <;> simp [hi]
  · simp [hij]

theorem lt_of_statusOf_ne {r : Run} {i : Nat} (h : r.statusOf i ≠ .notStarted) : i < r.status.length := by
  by_contra hi
  exact h (by simp [statusOf, hi])

/-- One node has a new status, and all others keep theirs. -/
def Changes (r r' : Run) (i : Nat) (status : NodeStatus) : Prop :=
  ∀ j, r'.statusOf j = if i = j then status else r.statusOf j

theorem changes_setStatus {r r₀ : Run} (hsame : r₀.status = r.status) {i : Nat} (hi : i < r.status.length)
    (status : NodeStatus) : Changes r (r₀.setStatus i status) i status := by
  intro j
  have hj : r₀.statusOf j = r.statusOf j := by rw [statusOf, statusOf, hsame]
  rw [statusOf_setStatus, hsame, hj]
  simp [hi]

section
variable {r r' : Run} {i j : Nat} {new : NodeStatus} (h : Changes r r' i new)
include h

theorem Changes.statusOf_self : r'.statusOf i = new := by
  rw [h, if_pos rfl]

theorem Changes.statusOf_of_ne (hji : j ≠ i) : r'.statusOf j = r.statusOf j := by
  rw [h, if_neg (Ne.symm hji)]

/-- A status other than the old and the new one stays with the same nodes. -/
theorem Changes.statusOf_eq_iff (status : NodeStatus) (hold : r.statusOf i ≠ status) (hnew : new ≠ status)
    (j : Nat) : r'.statusOf j = status ↔ r.statusOf j = status := by
  by_cases hji : j = i
  · subst hji
    rw [h.statusOf_self]
    exact ⟨fun e => absurd e hnew, fun e => absurd e hold⟩
  · rw [h.statusOf_of_ne hji]

end

/-! ## Executing -/

/-- One less for each vertex of a list. -/
def countDown (pending : List Nat) (js : List Nat) : List Nat :=
  js.foldl (fun pending j => pending.set j (pending.getD j 0 - 1)) pending

theorem getD_set (pending : List Nat) (i j : Nat) :
    (pending.set i (pending.getD i 0 - 1)).getD j 0 =
      if i = j then pending.getD j 0 - 1 else pending.getD j 0 := by
  simp only [List.getD_eq_getElem?_getD, List.getElem?_set]
  by_cases hij : i = j
  · subst hij
    by_cases hi : i < pending.length <;> simp [hi]
  · simp [hij]

theorem getD_countDown {js : List Nat} (hnodup : js.Nodup) (pending : List Nat) (i : Nat) :
    (countDown pending js).getD i 0 =
      if i ∈ js then pending.getD i 0 - 1 else pending.getD i 0 := by
  induction js generalizing pending with
  | nil => simp [countDown]
  | cons j js ih =>
    obtain ⟨hj, hnodup⟩ := List.nodup_cons.1 hnodup
    have hrest := ih hnodup (pending.set j (pending.getD j 0 - 1))
    rw [getD_set] at hrest
    rw [countDown, List.foldl_cons]
    refine hrest.trans ?_
    by_cases hij : j = i
    · subst hij
      simp [hj]
    · simp [hij, Ne.symm hij]

/-- One element less counts when it is the only one that no longer does. -/
theorem countP_of_ne {js : List Nat} (hnodup : js.Nodup) {p q : Nat → Bool} {i : Nat} (hp : p i = true)
    (hq : ∀ j, q j = (p j && decide (j ≠ i))) :
    js.countP q = if i ∈ js then js.countP p - 1 else js.countP p := by
  induction js with
  | nil => simp
  | cons j js ih =>
    obtain ⟨hj, hnodup⟩ := List.nodup_cons.1 hnodup
    have hrest := ih hnodup
    rw [List.countP_cons, List.countP_cons, hrest, hq]
    by_cases hij : j = i
    · subst hij
      simp [hj, hp]
    · by_cases hi : i ∈ js
      · have hpos : 0 < js.countP p := List.countP_pos_iff.2 ⟨i, hi, hp⟩
        simp only [hi, List.mem_cons, or_true, if_true, hij, decide_true, Bool.and_true, ne_eq,
          not_false_eq_true]
        omega
      · simp [hi, hij, Ne.symm hij]

theorem release_eq (r : Run) (i : Nat) :
    r.release i = { r with
      pending := r.pending.set i (r.pending.getD i 0 - 1)
      ready := if r.pending.getD i 0 - 1 = 0 ∧ r.statusOf i = .notStarted then r.ready ++ [i]
        else r.ready } := by
  unfold release
  by_cases h : r.pending.getD i 0 - 1 = 0 ∧ r.statusOf i = .notStarted
  · rw [if_pos h]
    exact if_pos h
  · rw [if_neg h]
    exact if_neg h

/-- Releasing several nodes counts each down and queues those with nothing left to wait for. -/
theorem foldl_release {js : List Nat} (hnodup : js.Nodup) (r : Run) :
    js.foldl release r = { r with
      pending := countDown r.pending js
      ready := r.ready ++ js.filter fun j => r.pending.getD j 0 - 1 = 0 ∧ r.statusOf j = .notStarted } := by
  induction js generalizing r with
  | nil => simp [countDown]
  | cons j js ih =>
    obtain ⟨hj, hnodup⟩ := List.nodup_cons.1 hnodup
    have hpending : ∀ k ∈ js, (r.pending.set j (r.pending.getD j 0 - 1)).getD k 0 = r.pending.getD k 0 := by
      intro k hk
      have hjk : j ≠ k := fun e => hj (e ▸ hk)
      rw [getD_set, if_neg hjk]
    have hfilter : (js.filter fun k => (r.pending.set j (r.pending.getD j 0 - 1)).getD k 0 - 1 = 0 ∧
        r.statusOf k = .notStarted) =
        js.filter fun k => r.pending.getD k 0 - 1 = 0 ∧ r.statusOf k = .notStarted :=
      List.filter_congr fun k hk => by rw [hpending k hk]
    rw [List.foldl_cons, ih hnodup, release_eq, List.filter_cons]
    refine congrArg (fun ready => { r with pending := countDown r.pending (j :: js), ready }) ?_
    by_cases h : r.pending.getD j 0 - 1 = 0 ∧ r.statusOf j = .notStarted
    · rw [if_pos h, if_pos (decide_eq_true h), List.append_assoc, List.singleton_append]
      exact congrArg (fun js => r.ready ++ j :: js) hfilter
    · rw [if_neg h, if_neg (by simpa using h)]
      exact congrArg (r.ready ++ ·) hfilter

/-- A node that executes counts its dependents down and queues those with nothing left to wait for. -/
theorem complete_eq {r : Run} {i : Nat} (hnodup : (r.graph.dependentsOf i).Nodup) :
    ∃ pending ready, r.complete i = { r with status := r.status.set i .executed, pending, ready } ∧
      (∀ j, pending.getD j 0 =
        if j ∈ r.graph.dependentsOf i then r.pending.getD j 0 - 1 else r.pending.getD j 0) ∧
      ∀ j, j ∈ ready ↔ j ∈ r.ready ∨ j ∈ r.graph.dependentsOf i ∧ pending.getD j 0 = 0 ∧
        (r.setStatus i .executed).statusOf j = .notStarted := by
  refine ⟨_, _, foldl_release hnodup (r.setStatus i .executed), getD_countDown hnodup r.pending, fun j => ?_⟩
  rw [List.mem_append, List.mem_filter, decide_eq_true_eq]
  refine or_congr_right (and_congr_right fun hj => and_congr_left fun _ => ?_)
  rw [getD_countDown hnodup, if_pos (show j ∈ r.graph.dependentsOf i from hj)]

/-! ## Failing -/

@[simp] theorem length_status_setStatus (r : Run) (i : Nat) (s : NodeStatus) :
    (r.setStatus i s).status.length = r.status.length :=
  List.length_set

@[simp] theorem length_status_failDependent (dependency : Specification) (r : Run) (i : Nat) :
    (failDependent dependency r i).status.length = r.status.length := by
  unfold failDependent
  split
  · exact List.length_set
  · rfl

theorem statusOf_failDependent (dependency : Specification) (r : Run) (i j : Nat) :
    (failDependent dependency r i).statusOf j =
      if i = j ∧ i < r.status.length ∧ r.statusOf j = .notStarted then .failed else r.statusOf j := by
  unfold failDependent
  by_cases hi : r.statusOf i = .notStarted
  · rw [if_pos hi, statusOf_setStatus]
    change (if i = j ∧ i < r.status.length then NodeStatus.failed else r.statusOf j) = _
    by_cases hij : i = j
    · subst hij
      simp [hi]
    · simp [hij]
  · rw [if_neg hi]
    by_cases hij : i = j
    · subst hij
      simp [hi]
    · simp [hij]

/-- Failing dependents changes the statuses of those that have not started. -/
theorem statusOf_foldl_failDependent (dependency : Specification) (js : List Nat) (r : Run) (i : Nat) :
    (js.foldl (failDependent dependency) r).statusOf i =
      if i ∈ js ∧ i < r.status.length ∧ r.statusOf i = .notStarted then .failed else r.statusOf i := by
  induction js generalizing r with
  | nil => simp
  | cons j js ih =>
    rw [List.foldl_cons, ih, statusOf_failDependent, length_status_failDependent]
    by_cases hij : j = i
    · subst hij
      by_cases h : j < r.status.length ∧ r.statusOf j = .notStarted
      · simp [h]
      · simp [h]
    · simp [hij, Ne.symm hij]

/-- A node fails, and nothing else. -/
def failAlone (r : Run) (i : Nat) (reason : FailureReason) : Run :=
  { r with failures := (r.graph.outputsOf i).foldl (fun fs o => fs.insert o reason) r.failures
  }.setStatus i .failed

theorem fail_eq {r : Run} {i : Nat} {dependency : Specification} {rest : List Specification}
    (houtputs : r.graph.outputsOf i = dependency :: rest) (reason : FailureReason) :
    r.fail i reason =
      (r.graph.downstream i).foldl (failDependent dependency) (r.failAlone i reason) := by
  simp only [fail, failAlone, houtputs]
  rfl

/-- Failing changes the status of a node and of those behind it that have not started. -/
theorem statusOf_fail {r : Run} {i : Nat} (hi : i < r.status.length) (houtputs : r.graph.outputsOf i ≠ [])
    (reason : FailureReason) (j : Nat) :
    (r.fail i reason).statusOf j =
      if i = j ∨ j ∈ r.graph.downstream i ∧ j < r.status.length ∧ r.statusOf j = .notStarted then .failed
      else r.statusOf j := by
  obtain ⟨dependency, rest, hcons⟩ := List.exists_cons_of_ne_nil houtputs
  have halone : Changes r (r.failAlone i reason) i .failed := changes_setStatus rfl hi .failed
  have hlength : (r.failAlone i reason).status.length = r.status.length := List.length_set
  rw [fail_eq hcons, statusOf_foldl_failDependent, halone j, hlength]
  by_cases hij : i = j
  · simp [hij]
  · simp [hij]

/-! ## What ending a node leaves alone -/

/-- Nothing is called, cached or asked for between two moments of a run. -/
structure KeepsRecord (r r' : Run) : Prop where
  cache : r'.cache = r.cache
  journal : r'.journal = r.journal
  cancelRequested : r'.cancelRequested = r.cancelRequested
  control : r'.control = r.control

theorem KeepsRecord.refl (r : Run) : KeepsRecord r r := ⟨rfl, rfl, rfl, rfl⟩

theorem KeepsRecord.trans {r r' r'' : Run} (h : KeepsRecord r r') (h' : KeepsRecord r' r'') :
    KeepsRecord r r'' :=
  ⟨h'.cache.trans h.cache, h'.journal.trans h.journal, h'.cancelRequested.trans h.cancelRequested,
    h'.control.trans h.control⟩

theorem KeepsRecord.isCancelled_eq {r r' : Run} (h : KeepsRecord r r') : r'.isCancelled = r.isCancelled := by
  rw [isCancelled, isCancelled, h.control, h.cancelRequested]

theorem keepsRecord_foldl {α : Type} {f : Run → α → Run} (h : ∀ r x, KeepsRecord r (f r x)) (xs : List α)
    (r : Run) : KeepsRecord r (xs.foldl f r) := by
  induction xs generalizing r with
  | nil => exact .refl r
  | cons x xs ih => exact (h r x).trans (ih (f r x))

theorem keepsRecord_complete (r : Run) (i : Nat) : KeepsRecord r (r.complete i) := by
  have hstart : KeepsRecord r (r.setStatus i .executed) := ⟨rfl, rfl, rfl, rfl⟩
  refine hstart.trans (keepsRecord_foldl (fun r j => ?_) _ _)
  rw [release_eq]
  exact ⟨rfl, rfl, rfl, rfl⟩

theorem keepsRecord_fail (r : Run) (i : Nat) (reason : FailureReason) : KeepsRecord r (r.fail i reason) := by
  have halone : KeepsRecord r (r.failAlone i reason) := ⟨rfl, rfl, rfl, rfl⟩
  cases houtputs : r.graph.outputsOf i with
  | nil =>
    simp only [fail, houtputs]
    exact ⟨rfl, rfl, rfl, rfl⟩
  | cons dependency rest =>
    rw [fail_eq houtputs]
    refine halone.trans (keepsRecord_foldl (fun r j => ?_) _ _)
    unfold failDependent
    split
    · exact ⟨rfl, rfl, rfl, rfl⟩
    · exact .refl r

end Run
end Valuation
