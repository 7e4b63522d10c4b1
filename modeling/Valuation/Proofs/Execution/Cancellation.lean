import Valuation.Proofs.Execution.Accounting

/-!
# When a run reports cancellation

A strategy stops handing out nodes once it sees that the run is to stop, and says so. When it looks differs
from strategy to strategy. With nodes in flight it looks before every round, the one in which nothing is left
included, so a run reports every request, one that came when every node had ended already too
(`rounds_cancelled`). One node after the other, it looks before each node only, so what the last node asks for
is not seen (`sweep_cancelled`). Every run that leaves a node unstarted reports cancellation, but not the other
way round (`runUnder_cancelled`).
-/
namespace Valuation
namespace Run

/-- A run has made some more calls, and nobody outside has touched the flag. -/
structure HasCalled (r r' : Run) (calls : List Invocation) : Prop where
  journal : r'.journal = r.journal ++ calls
  cancelRequested : r'.cancelRequested = (r.cancelRequested || calls.any (·.evaluation.cancels))
  control : r'.control = r.control

section
variable {r r' r'' : Run} {calls calls' : List Invocation}

theorem HasCalled.trans (h : HasCalled r r' calls) (h' : HasCalled r' r'' calls') :
    HasCalled r r'' (calls ++ calls') where
  journal := by rw [h'.journal, h.journal, List.append_assoc]
  cancelRequested := by rw [h'.cancelRequested, h.cancelRequested, List.any_append, Bool.or_assoc]
  control := h'.control.trans h.control

theorem KeepsRecord.hasCalled (h : KeepsRecord r r') : HasCalled r r' [] :=
  ⟨by rw [h.journal, List.append_nil], by rw [h.cancelRequested, List.any_nil, Bool.or_false], h.control⟩

theorem HasCalled.isCancelled_eq (h : HasCalled r r' calls) :
    r'.isCancelled = (r.isCancelled || r.control.attached && calls.any (·.evaluation.cancels)) := by
  rw [isCancelled, isCancelled, h.control, h.cancelRequested, Bool.and_or_distrib_left, Bool.or_assoc]

theorem hasCalled_note (r : Run) (call : Option Invocation) : HasCalled r (r.note call) call.toList where
  journal := rfl
  cancelRequested := by cases call <;> simp [note]
  control := rfl

/-! ## The calls of a node -/

/-- Computing a node calls no function but its own. -/
theorem compute_eq_note (r : Run) (i : Nat) (inputs : Option FunctionInputs) :
    ∃ call : Option Invocation, (∀ v ∈ call, v.node = i) ∧ (r.compute i inputs).1 = r.note call := by
  have hcall : ∀ n f given, ∃ call : Option Invocation, (∀ v ∈ call, v.node = i) ∧
      (r.call i n f given).1 = r.note call := fun n f given =>
    ⟨some ⟨i, f.id, n.target, given, f.execute n.target given n.outputs, r.cache⟩,
      fun v hv => Option.some.inj hv ▸ rfl, rfl⟩
  have hnone : ∃ call : Option Invocation, (∀ v ∈ call, v.node = i) ∧ r = r.note call :=
    ⟨none, nofun, (note_none r).symm⟩
  unfold compute
  split
  · exact hnone
  split
  · exact hnone
  split
  · exact hcall ..
  split
  · exact hnone
  · exact hcall ..

theorem compute_marketData {n : Node} {key : MarketDataKey} {i : Nat} (hn : r.graph.node? i = some n)
    (hkind : n.kind = .marketData key) (inputs : Option FunctionInputs) : (r.compute i inputs).1 = r := by
  simp [compute, hn, hkind]

theorem finish_hasCalled (r : Run) (i : Nat) (values : Except FailureReason (List ComputedValue)) :
    HasCalled r (r.finish i values) [] := by
  have hwrite : HasCalled r (r.write values).1 [] := by
    have hcache : ∀ cache, HasCalled r { r with cache } [] :=
      fun _ => ⟨(List.append_nil _).symm, (Bool.or_false _).symm, rfl⟩
    unfold write
    split
    · exact (KeepsRecord.refl r).hasCalled
    · split <;> exact hcache _
  unfold finish
  split
  · next r₁ reason heq =>
    rw [heq] at hwrite
    exact hwrite.trans (keepsRecord_fail r₁ i reason).hasCalled
  · next r₁ _ heq =>
    rw [heq] at hwrite
    exact hwrite.trans (keepsRecord_complete r₁ i).hasCalled

/-- Executing a node makes the call that computing it makes. -/
theorem hasCalled_execute {i : Nat} {call : Option Invocation} (h : (r.compute i none).1 = r.note call) :
    HasCalled r (r.execute i) call.toList := by
  have hnote := hasCalled_note r call
  rw [← h] at hnote
  have hexecute := hnote.trans (finish_hasCalled (r.compute i none).1 i (r.compute i none).2)
  rwa [List.append_nil] at hexecute

/-- Executing a node calls no function but its own. -/
theorem execute_hasCalled (r : Run) (i : Nat) :
    ∃ calls, (∀ v ∈ calls, v.node = i) ∧ HasCalled r (r.execute i) calls := by
  obtain ⟨call, hnode, hcompute⟩ := r.compute_eq_note i none
  exact ⟨call.toList, fun v hv => hnode v (Option.mem_toList.1 hv), hasCalled_execute hcompute⟩

theorem execute_marketData {n : Node} {key : MarketDataKey} {i : Nat} (hn : r.graph.node? i = some n)
    (hkind : n.kind = .marketData key) : HasCalled r (r.execute i) [] := by
  have hnone : (r.compute i none).1 = r.note none := by rw [compute_marketData hn hkind, note_none]
  exact hasCalled_execute hnone

end

end Run

namespace Executor

open Run

/-! ## One after the other -/

/-- Going through nodes stops if the flag is up, or if a call other than that of the last node asks for it. -/
theorem sweep_cancelled {raised : Nat → Bool} (hraised : ∀ k, raised k = false) {rest : List Nat}
    (hnodup : rest.Nodup) (r : Run) :
    ∃ calls, HasCalled r (sweep raised rest r).1 calls ∧ (∀ v ∈ calls, v.node ∈ rest) ∧
      ((sweep raised rest r).2 = true ↔ rest ≠ [] ∧ (r.isCancelled = true ∨ r.control.attached = true ∧
        ∃ v ∈ calls, v.evaluation.cancels = true ∧ rest.getLast? ≠ some v.node)) := by
  induction rest generalizing r with
  | nil => exact ⟨[], (KeepsRecord.refl r).hasCalled, by simp, by simp [sweep]⟩
  | cons i rest ih =>
    obtain ⟨hi, hnodup⟩ := List.nodup_cons.1 hnodup
    -- Of the calls that follow, those of the rest count as before, and that of `i` if anything is left.
    have hlast : ∀ v : Invocation, v.node ∈ rest → ((i :: rest).getLast? ≠ some v.node ↔
        rest.getLast? ≠ some v.node) := fun v hv => by
      rw [List.getLast?_cons_of_ne_nil (List.ne_nil_of_mem hv)]
    have hself : ∀ v : Invocation, v.node = i → ((i :: rest).getLast? ≠ some v.node ↔ rest ≠ []) := by
      rintro v rfl
      cases rest with
      | nil => simp
      | cons j rest =>
        refine iff_of_true (fun heq => hi ?_) (List.cons_ne_nil j rest)
        exact List.mem_of_getLast? (List.getLast?_cons_cons ▸ heq)
    rw [sweep, hraised]
    simp only [observe, Bool.false_eq_true, if_false]
    by_cases hcancelled : r.isCancelled = true
    · rw [if_pos hcancelled]
      exact ⟨[], (KeepsRecord.refl r).hasCalled, by simp, by simp [hcancelled]⟩
    rw [if_neg hcancelled]
    split
    · obtain ⟨calls, hcalls, hmem, hiff⟩ := ih hnodup r
      refine ⟨calls, hcalls, fun v hv => List.mem_cons_of_mem _ (hmem v hv), hiff.trans ?_⟩
      simp only [hcancelled, false_or, ne_eq, reduceCtorEq, not_false_eq_true, true_and]
      constructor
      · rintro ⟨-, hattached, v, hv, hcancels, hne⟩
        exact ⟨hattached, v, hv, hcancels, (hlast v (hmem v hv)).2 hne⟩
      · rintro ⟨hattached, v, hv, hcancels, hne⟩
        exact ⟨List.ne_nil_of_mem (hmem v hv), hattached, v, hv, hcancels, (hlast v (hmem v hv)).1 hne⟩
    · have hstart : HasCalled r (r.setStatus i .running) [] := ⟨(List.append_nil _).symm, (Bool.or_false _).symm, rfl⟩
      obtain ⟨own, hown, hexecute⟩ := (r.setStatus i .running).execute_hasCalled i
      replace hexecute := hstart.trans hexecute
      obtain ⟨calls, hcalls, hmem, hiff⟩ := ih hnodup ((r.setStatus i .running).execute i)
      refine ⟨own ++ calls, hexecute.trans hcalls, fun v hv => ?_, hiff.trans ?_⟩
      · rcases List.mem_append.1 hv with hv | hv
        · exact hown v hv ▸ List.mem_cons_self ..
        · exact List.mem_cons_of_mem _ (hmem v hv)
      rw [hexecute.isCancelled_eq, hexecute.control, Bool.eq_false_iff.2 hcancelled]
      simp only [List.nil_append, Bool.false_or, Bool.and_eq_true, List.any_eq_true, ne_eq, reduceCtorEq,
        not_false_eq_true, true_and, Bool.false_eq_true, false_or]
      constructor
      · rintro ⟨hne, ⟨hattached, v, hv, hcancels⟩ | ⟨hattached, v, hv, hcancels, hlater⟩⟩
        · exact ⟨hattached, v, List.mem_append_left _ hv, hcancels, (hself v (hown v hv)).2 hne⟩
        · exact ⟨hattached, v, List.mem_append_right _ hv, hcancels, (hlast v (hmem v hv)).2 hlater⟩
      · rintro ⟨hattached, v, hv, hcancels, hne⟩
        rcases List.mem_append.1 hv with hv | hv
        · exact ⟨(hself v (hown v hv)).1 hne, .inl ⟨hattached, v, hv, hcancels⟩⟩
        · exact ⟨List.ne_nil_of_mem (hmem v hv),
            .inr ⟨hattached, v, hv, hcancels, (hlast v (hmem v hv)).1 hne⟩⟩

/-! ## Several in flight -/

section
variable (copyInputs : Bool)

theorem length_workOn (ks : List Nat) (r : Run) (jobs : List Job) :
    (workOn copyInputs ks r jobs).2.length = jobs.length := by
  induction ks generalizing r jobs with
  | nil => rfl
  | cons k ks ih =>
    unfold workOn
    split
    · exact ih r jobs
    · exact (ih ..).trans List.length_set

theorem workOn_nil (ks : List Nat) (r : Run) : workOn copyInputs ks r [] = (r, []) := by
  induction ks with
  | nil => rfl
  | cons k ks ih => exact ih

/-- What is queued without leaving a job has called nothing. -/
theorem submit_nil {r r' : Run} {jobs : List Job} {i : Nat} (h : submit copyInputs r jobs i = (r', [])) :
    jobs = [] ∧ HasCalled r r' [] := by
  have hsame : HasCalled r r [] := (KeepsRecord.refl r).hasCalled
  unfold submit at h
  split at h
  · simp at h
  split at h
  · cases h
    exact ⟨rfl, hsame⟩
  · next n hn =>
    split at h
    · next key hkind =>
      cases h
      exact ⟨rfl, execute_marketData hn hkind⟩
    · split at h
      · simp at h
      · next reason _ =>
        cases h
        exact ⟨rfl, (keepsRecord_fail r i reason).hasCalled⟩

theorem submitReady_nil (meanwhile : Nat → List Nat) {fuel : Nat} {r r' : Run} {jobs : List Job}
    (h : submitReady copyInputs meanwhile fuel r jobs = (r', [])) : jobs = [] ∧ HasCalled r r' [] := by
  induction fuel generalizing r jobs with
  | zero =>
    cases h
    exact ⟨rfl, (KeepsRecord.refl _).hasCalled⟩
  | succ fuel ih =>
    unfold submitReady at h
    split at h
    · cases h
      exact ⟨rfl, (KeepsRecord.refl _).hasCalled⟩
    next i r₁ hnext =>
    have hstart : HasCalled r r₁ [] := by
      obtain ⟨⟨k, rest⟩, -, heq⟩ := Option.map_eq_some_iff.1 hnext
      cases heq
      exact ⟨(List.append_nil _).symm, (Bool.or_false _).symm, rfl⟩
    obtain ⟨⟨r₂, jobs₂⟩, hsubmit⟩ : ∃ submitted, submit copyInputs r₁ jobs i = submitted := ⟨_, rfl⟩
    rw [hsubmit] at h
    obtain ⟨hworked, hcalls⟩ := ih h
    have hnil : jobs₂ = [] := by
      have hlength := length_workOn copyInputs (meanwhile fuel) r₂ jobs₂
      rw [hworked] at hlength
      exact List.length_eq_zero_iff.1 hlength.symm
    subst hnil
    rw [workOn_nil] at hcalls
    obtain ⟨hjobs, hsubmitted⟩ := submit_nil copyInputs hsubmit
    exact ⟨hjobs, (hstart.trans hsubmitted).trans hcalls⟩

/-- The last round looks at the flag, and calls nothing any more. -/
theorem rounds_cancelled (x : Interleaving) {fuel : Nat} {r r' : Run} {jobs : List Job} {cancelled : Bool}
    (h : rounds copyInputs x fuel r jobs = (r', cancelled)) : cancelled = r'.isCancelled := by
  induction fuel generalizing r jobs with
  | zero =>
    cases h
    rfl
  | succ fuel ih =>
    rw [rounds] at h
    generalize r.observe (x.raised fuel) = r₁ at h
    obtain ⟨⟨r₂, jobs₂⟩, hqueued⟩ : ∃ queued, (if r₁.isCancelled then (r₁, jobs)
      else submitReady copyInputs (x.meanwhile fuel) (r₁.graph.size + 1) r₁ jobs) = queued := ⟨_, rfl⟩
    obtain ⟨⟨r₃, jobs₃⟩, hworked⟩ : ∃ worked, workOn copyInputs (x.early fuel) r₂ jobs₂ = worked := ⟨_, rfl⟩
    simp only [hqueued, hworked] at h
    split at h
    · next hnone =>
      cases h
      have hnil : jobs₃ = [] := eq_nil_of_getElem?_mod hnone
      have hnil₂ : jobs₂ = [] := by
        have hlength := length_workOn copyInputs (x.early fuel) r₂ jobs₂
        rw [hworked, hnil] at hlength
        exact List.length_eq_zero_iff.1 hlength.symm
      subst hnil₂
      rw [workOn_nil] at hworked
      cases hworked
      split at hqueued
      · cases hqueued
        rfl
      · have hcalls := (submitReady_nil copyInputs _ hqueued).2
        rw [hcalls.isCancelled_eq]
        simp
    · exact ih h

end

/-! ## Whole runs -/

/-- Whether a strategy sees a request for cancellation: the flag was up before the run, or a call of the run
asked for it. One node after the other, there has to be a node to look before. -/
def Sees : Executor → Graph → Control → List Invocation → Prop
  | .singleThreaded, g, c, journal => g.order ≠ [] ∧ (c.cancelled = true ∨ c.attached = true ∧
      ∃ v ∈ journal, v.evaluation.cancels = true ∧ g.order.getLast? ≠ some v.node)
  | .nodeParallel, _, c, journal | .jobDispatch, _, c, journal =>
    c.cancelled = true ∨ c.attached = true ∧ ∃ v ∈ journal, v.evaluation.cancels = true

theorem isCancelled_iff {g : Graph} {s : Snapshot} {c : Control} {raised : Nat → Bool}
    (hraised : ∀ k, raised k = false) {r : Run} (h : Coherent g s c raised r) :
    r.isCancelled = true ↔
      c.cancelled = true ∨ c.attached = true ∧ ∃ v ∈ r.journal, v.evaluation.cancels = true := by
  simp [isCancelled, h.control_eq hraised, h.cancelRequested, List.any_eq_true]

/-- A run whose flag nobody raises meanwhile reports cancellation just if its strategy sees a request. -/
theorem drive_cancelled {g : Graph} (hg : g.Runnable) (e : Executor) {x : Interleaving}
    (hraised : ∀ k, x.raised k = false) (s : Snapshot) (c : Control) :
    (e.drive x g s c).2 = true ↔ e.Sees g c (e.drive x g s c).1.journal := by
  have hrest := drive_atRest hg e x s c
  cases e with
  | singleThreaded =>
    have hnodup : g.order.Nodup := hg.order_perm.nodup_iff.2 List.nodup_range
    obtain ⟨calls, hcalls, -, hiff⟩ := sweep_cancelled hraised hnodup (start g s c)
    have hstart : (start g s c).isCancelled = c.cancelled := by simp [isCancelled, start]
    have hjournal : (sweep x.raised g.order (start g s c)).1.journal = calls := hcalls.journal
    rw [hstart] at hiff
    rw [Sees, drive, hjournal]
    exact hiff
  | nodeParallel =>
    rw [show (nodeParallel.drive x g s c).2 = _ from rounds_cancelled false x rfl]
    exact isCancelled_iff hraised hrest.toCoherent
  | jobDispatch =>
    rw [show (jobDispatch.drive x g s c).2 = _ from rounds_cancelled true x rfl]
    exact isCancelled_iff hraised hrest.toCoherent

variable {compiler : GraphCompiler} {d : ViewDefinition} {a : Availability} {g : Graph}

/-- A run of a compiled graph, under every strategy with workers, reports cancellation if a node was left
unstarted, and just if its strategy has seen that cancellation was requested before the run or by a call. -/
theorem runUnder_cancelled (hcompile : compiler.compileUncached d a = .ok g) {strategy : Strategy}
    (hworkers : 0 < strategy.workers) :
    ∃ e, ofStrategy strategy = .ok e ∧
      ∀ (x : Interleaving) (s : Snapshot) (c : Control), (∀ k, x.raised k = false) →
        (0 < (e.runUnder x g s c).statistics.notStarted → (e.runUnder x g s c).cancelled = true) ∧
        ((e.runUnder x g s c).cancelled = true ↔ e.Sees g c (e.runUnder x g s c).journal) := by
  have hg := Graph.runnable_of_compile hcompile
  obtain ⟨e, he⟩ := ofStrategy_isOk hworkers
  refine ⟨e, he, fun x s c hraised => ⟨fun hleft => ?_, drive_cancelled hg e hraised s c⟩⟩
  have haccounts := (drive_atRest hg e x s c).accounts hg
  by_contra hgoes
  have hnone := haccounts.complete (Bool.eq_false_iff.2 hgoes)
  refine Nat.ne_of_gt hleft (haccounts.count_notStarted.trans (List.countP_eq_zero.2 fun i hi => ?_))
  simpa using hnone i (List.mem_range.1 hi)

/-- The demonstration, cancelled before it starts. -/
theorem demo_cancelled : ∃ r g e, Demo.repository = .ok r ∧
    (GraphCompiler.ofRepository r 1).compileUncached (Demo.definition 2) Demo.everything = .ok g ∧
    0 < (Strategy.jobDispatch 2).workers ∧ ofStrategy (.jobDispatch 2) = .ok e ∧
    (∀ k, Demo.outOfOrder.raised k = false) ∧
    ((e.runUnder Demo.outOfOrder g (Demo.snapshot 2) { cancelled := true }).cancelled = true ↔
      e.Sees g { cancelled := true }
        (e.runUnder Demo.outOfOrder g (Demo.snapshot 2) { cancelled := true }).journal) := by
  obtain ⟨r, g, hr, -, hg⟩ := Demo.exists_graph 2
  have hworkers : 0 < (Strategy.jobDispatch 2).workers := by decide
  have hraised : ∀ k, Demo.outOfOrder.raised k = false := fun _ => rfl
  obtain ⟨e, he, hcancelled⟩ := runUnder_cancelled hg hworkers
  exact ⟨r, g, e, hr, hg, hworkers, he, hraised, (hcancelled Demo.outOfOrder (Demo.snapshot 2) _ hraised).2⟩

/-! ### Cancellation with nothing left to cancel -/

/-- The only node of a graph executes and asks for cancellation meanwhile. Nothing is left to cancel, but a
strategy with nodes in flight reports cancellation all the same; one node after the other does not. -/
theorem cancelled_with_nothing_left :
    (GraphCompiler.ofRepository { functions := [Demo.single true] } 1).compileUncached Demo.singleView
      Demo.everything = .ok (Demo.singleGraph true) ∧
    (let o := nodeParallel.run (Demo.singleGraph true) (Snapshot.new default) {};
      o.cancelled = true ∧ o.statistics.executed = 1 ∧ o.statistics.notStarted = 0) ∧
    (let o := singleThreaded.run (Demo.singleGraph true) (Snapshot.new default) {};
      o.cancelled = false ∧ o.statistics.executed = 1 ∧ o.statistics.notStarted = 0) :=
  ⟨Demo.compile_singleView true Demo.everything, ⟨rfl, rfl, rfl⟩, rfl, rfl, rfl⟩

end Executor
end Valuation
