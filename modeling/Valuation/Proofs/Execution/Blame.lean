import Valuation.Proofs.Execution.Dispatch

/-!
# Which node a failure blames

A node that fails by itself records its own reason, and marks the nodes behind it that have not started with its
first output. What lies behind a failure has failed (`Faithful.failed_of_downstream`), so none of these is running
or has executed, and a node that is marked is so by the first of the nodes before it that fail (`Blamed`): marks
are never overwritten, neither by a later one nor by a reason of one's own. Each move of a run keeps this
(`Moves.blamed`), so it holds at the end of every run, cancelled or not (`drive_blames`). One node after the
other, the first to fail is the first in the order of the graph.
-/
namespace Valuation

open Relation

namespace Run

section
variable {g : Graph} {s : Snapshot} {r r' : Run} {roots : List Nat}

/-! ## Behind a failure -/

/-- A node that depends on one that has failed has failed too. -/
theorem Faithful.failed_of_feeds (h : Faithful g s r) {i j : Nat} (hj : j ∈ g.dependenciesOf i)
    (hfailed : r.statusOf j = .failed) : r.statusOf i = .failed := by
  cases hi : r.statusOf i with
  | failed => rfl
  | notStarted => exact absurd hfailed (h.waiting i hi j hj)
  | running => cases hfailed.symm.trans (h.begun i (.inl hi) j hj)
  | executed => cases hfailed.symm.trans (h.begun i (.inr hi) j hj)

/-- All that lies behind a node that has failed has failed. -/
theorem Faithful.failed_of_downstream (hg : g.Runnable) (h : Faithful g s r) {i k : Nat}
    (hi : i ∈ g.downstream k) (hfailed : r.statusOf k = .failed) : r.statusOf i = .failed := by
  rw [hg.mem_downstream_iff] at hi
  induction hi with
  | single he => exact h.failed_of_feeds ((hg.mem_dependentsOf _ _).1 he) hfailed
  | tail _ he ih => exact h.failed_of_feeds ((hg.mem_dependentsOf _ _).1 he) ih

/-- What waits has no failure. -/
theorem Tracks.failures_of_waiting (hg : g.Runnable) (h : Tracks g s r) {i : Nat} (hi : r.statusOf i = .notStarted)
    {t : Specification} (ht : t ∈ g.outputsOf i) : r.failures.get? t = none := by
  refine Option.eq_none_iff_forall_ne_some.2 fun reason hreason => ?_
  have hcontains : r.failures.contains t = true := by rw [Table.contains, hreason]; rfl
  cases hi.symm.trans (h.statusOf_of_failure hg hcontains ht)

/-- The outputs of a node that fails by itself carry its own reason. -/
theorem Tracks.failures_of_failed (hg : g.Runnable) (h : Tracks g s r) {i : Nat} (hi : r.statusOf i = .failed)
    {reason : FailureReason} (hverdict : g.evaluate s i = .failed reason) {t : Specification}
    (ht : t ∈ g.outputsOf i) : r.failures.get? t = some reason := by
  obtain ⟨recorded, hrecorded⟩ := Option.isSome_iff_exists.1 (h.failure_complete i t hi ht)
  obtain ⟨k, -, htk, hallows⟩ := h.failure_sound t recorded hrecorded
  obtain rfl : i = k := hg.eq_of_mem_outputsOf ht htk
  rw [hverdict] at hallows
  exact hrecorded.trans (congrArg some hallows)

/-! ## What failing records -/

/-- Failing dependents records a failure for the outputs of those that have not started. -/
theorem failures_foldl_failDependent (hg : g.Runnable) (dependency : Specification) (js : List Nat)
    (hgraph : r.graph = g) (hlength : r.status.length = g.size) {i : Nat} {t : Specification}
    (ht : t ∈ g.outputsOf i) :
    (js.foldl (failDependent dependency) r).failures.get? t =
      if i ∈ js ∧ r.statusOf i = .notStarted then (r.failures.get? t).or (some (.dependencyFailure dependency))
      else r.failures.get? t := by
  induction js generalizing r with
  | nil => simp
  | cons j js ih =>
    have hlt : i < r.status.length := hlength ▸ Graph.lt_size_of_mem_outputsOf ht
    have hgraph' : (failDependent dependency r j).graph = g := by
      unfold failDependent
      split <;> exact hgraph
    have hfirst : (failDependent dependency r j).failures.get? t =
        if j = i ∧ r.statusOf i = .notStarted then (r.failures.get? t).or (some (.dependencyFailure dependency))
        else r.failures.get? t := by
      unfold failDependent
      by_cases hj : r.statusOf j = .notStarted
      · rw [if_pos hj]
        change ((r.graph.outputsOf j).foldl _ r.failures).get? t = _
        rw [hgraph, Table.get?_foldl_insertNew]
        by_cases hji : j = i
        · subst hji
          simp [ht, hj]
        · have hnot : t ∉ g.outputsOf j := fun htj => hji (hg.eq_of_mem_outputsOf htj ht)
          simp [hji, hnot]
      · rw [if_neg hj, if_neg]
        rintro ⟨rfl, hi⟩
        exact hj hi
    rw [List.foldl_cons, ih hgraph' ((length_status_failDependent ..).trans hlength), hfirst,
      statusOf_failDependent]
    by_cases hji : j = i
    · subst hji
      by_cases hwaits : r.statusOf j = .notStarted
      · simp [hwaits, hlt]
      · simp [hwaits]
    · simp [hji, Ne.symm hji]

/-- A node that fails records its reason, and itself with those behind it that have not started. -/
theorem Tracks.failures_fail (hg : g.Runnable) (h : Tracks g s r) {k : Nat} (hk : r.statusOf k = .running)
    {dependency : Specification} (hfirst : (g.outputsOf k).head? = some dependency) (reason : FailureReason)
    {i : Nat} {t : Specification} (ht : t ∈ g.outputsOf i) :
    (r.fail k reason).failures.get? t =
      if i = k then some reason
      else if i ∈ g.downstream k ∧ r.statusOf i = .notStarted then some (.dependencyFailure dependency)
      else r.failures.get? t := by
  obtain ⟨rest, hcons⟩ := List.head?_eq_some_iff.1 hfirst
  have hlt : k < r.status.length := lt_of_statusOf_ne (by simp [hk])
  have halone : Changes r (r.failAlone k reason) k .failed := changes_setStatus rfl hlt .failed
  have hlength : (r.failAlone k reason).status.length = g.size :=
    (length_status_setStatus ..).trans h.length_status
  have hrecord : (r.failAlone k reason).failures.get? t =
      if t ∈ g.outputsOf k then some reason else r.failures.get? t := by
    rw [← h.graph]
    exact Table.get?_foldl_insert ..
  have hgraph : (r.failAlone k reason).graph = g := h.graph
  rw [fail_eq (h.graph ▸ hcons), h.graph,
    failures_foldl_failDependent hg dependency (g.downstream k) hgraph hlength ht, hrecord]
  by_cases hik : i = k
  · subst hik
    simp [halone.statusOf_self, ht]
  · have hnot : t ∉ g.outputsOf k := fun htk => hik (hg.eq_of_mem_outputsOf ht htk)
    rw [halone.statusOf_of_ne hik, if_neg hnot, if_neg hik]
    refine ite_congr rfl (fun hbehind => ?_) fun _ => rfl
    rw [h.failures_of_waiting hg hbehind.2 ht, Option.none_or]

/-- With a node that fails by itself, those behind it have failed that had not started, and no others. -/
theorem Faithful.failed_fail_iff (hg : g.Runnable) (h : Faithful g s r) {k : Nat} (hk : r.statusOf k = .running)
    {reason : FailureReason} (hverdict : g.evaluate s k = .failed reason) (i : Nat) :
    (r.fail k reason).statusOf i = .failed ↔
      i = k ∨ i ∈ g.downstream k ∧ r.statusOf i = .notStarted ∨ r.statusOf i = .failed := by
  obtain ⟨hfails, hend⟩ := h.fail hg hk hverdict
  have hself : (r.fail k reason).statusOf k = .failed := by
    refine hend.ended.resolve_left fun hok => ?_
    have hisOk := hfails.executed k hok
    rw [hverdict] at hisOk
    cases hisOk
  constructor
  · intro hi
    by_cases hik : i = k
    · exact .inl hik
    rcases hend.others i hik with hsame | ⟨hwaits, -⟩
    · exact .inr (.inr (hsame.symm.trans hi))
    · obtain ⟨-, hbehind⟩ := hend.behind i hik hwaits hi
      exact .inr (.inl ⟨h.graph ▸ hbehind, hwaits⟩)
  · rintro (rfl | ⟨hbehind, -⟩ | hi)
    · exact hself
    · exact hfails.failed_of_downstream hg hbehind hself
    · have hik : i ≠ k := by
        rintro rfl
        cases hi.symm.trans hk
      rcases hend.others i hik with hsame | ⟨-, hfailed⟩
      · exact hsame.trans hi
      · exact hfailed

/-! ## The first to fail -/

/-- The nodes that have failed by themselves, in turn, and for every other node that has failed the first of
them that it lies behind: its outputs all name that one. -/
structure Blamed (g : Graph) (s : Snapshot) (r : Run) (roots : List Nat) : Prop where
  mem_roots : ∀ k, k ∈ roots ↔ r.statusOf k = .failed ∧ g.evaluate s k ≠ .upstream
  named : ∀ i, r.statusOf i = .failed → g.evaluate s i = .upstream →
    ∃ k t, roots.find? (fun k => i ∈ g.downstream k) = some k ∧ (g.outputsOf k).head? = some t ∧
      ∀ o ∈ g.outputsOf i, r.failures.get? o = some (.dependencyFailure t)

theorem blamed_start (g : Graph) (s : Snapshot) (c : Control) : Blamed g s (start g s c) [] :=
  ⟨fun k => by simp [statusOf_start], fun i hi => by cases (statusOf_start g s c i).symm.trans hi⟩

/-- What changes nothing of the nodes that have failed changes nothing of it. -/
theorem Blamed.keep (h : Blamed g s r roots) (hfailed : ∀ i, r'.statusOf i = .failed ↔ r.statusOf i = .failed)
    (hfailures : r'.failures = r.failures) : Blamed g s r' roots := by
  refine ⟨fun k => ?_, fun i hi hbehind => ?_⟩
  · rw [hfailed]
    exact h.mem_roots k
  · rw [hfailures]
    exact h.named i ((hfailed i).1 hi) hbehind

/-- A node that fails by itself marks what waits behind it, and what is marked already keeps its mark. -/
theorem Blamed.fail (hg : g.Runnable) (hr : Faithful g s r) (h : Blamed g s r roots) {k : Nat}
    (hk : r.statusOf k = .running) {reason : FailureReason} (hverdict : g.evaluate s k = .failed reason) :
    Blamed g s (r.fail k reason) (roots ++ [k]) := by
  have hlt : k < g.size := hr.lt_size (by simp [hk])
  obtain ⟨t, rest, hcons⟩ := List.exists_cons_of_ne_nil (hg.outputsOf_ne_nil hlt)
  have hfirst : (g.outputsOf k).head? = some t := by rw [hcons]; rfl
  have hfailed := hr.failed_fail_iff hg hk hverdict
  refine ⟨fun j => ?_, fun i hi hbehind => ?_⟩
  · rw [List.mem_append, List.mem_singleton, hfailed, h.mem_roots]
    constructor
    · rintro (⟨hj, hown⟩ | rfl)
      · exact ⟨.inr (.inr hj), hown⟩
      · exact ⟨.inl rfl, by simp [hverdict]⟩
    · rintro ⟨rfl | ⟨hj, -⟩ | hj, hown⟩
      · exact .inr rfl
      · exact absurd (g.evaluate_downstream hg (by rw [hverdict]; rfl) hj) hown
      · exact .inl ⟨hj, hown⟩
  · have hik : i ≠ k := by
      rintro rfl
      cases hverdict.symm.trans hbehind
    rcases (hfailed i).1 hi with rfl | hmarked | hbefore
    · exact absurd rfl hik
    · -- none of the earlier ones lies before a node that still waits
      have hnone : roots.find? (fun k => i ∈ g.downstream k) = none := by
        refine List.find?_eq_none.2 fun j hj hij => ?_
        have hfails := hr.failed_of_downstream hg (of_decide_eq_true hij) ((h.mem_roots j).1 hj).1
        cases hmarked.2.symm.trans hfails
      refine ⟨k, t, ?_, hfirst, fun o ho => ?_⟩
      · rw [List.find?_append, hnone, Option.none_or]
        exact List.find?_cons_of_pos (decide_eq_true hmarked.1)
      · rw [hr.failures_fail hg hk hfirst reason ho, if_neg hik, if_pos hmarked]
    · obtain ⟨j, u, hfind, hhead, hnamed⟩ := h.named i hbefore hbehind
      refine ⟨j, u, ?_, hhead, fun o ho => ?_⟩
      · rw [List.find?_append, hfind, Option.some_or]
      · rw [hr.failures_fail hg hk hfirst reason ho, if_neg hik, if_neg (by simp [hbefore])]
        exact hnamed o ho

/-- Every step keeps what the failures say. -/
theorem Blamed.effect (hg : g.Runnable) (h : Blamed g s r roots) (hr : Faithful g s r) {started failed : Option Nat}
    (heffect : Step.Effect g s r r' started failed) : Blamed g s r' (roots ++ failed.toList) := by
  have hkeep : (∀ i, r'.statusOf i = .failed ↔ r.statusOf i = .failed) → r'.failures = r.failures →
      Blamed g s r' (roots ++ []) := fun hfailed hfailures => by
    rw [List.append_nil]
    exact h.keep hfailed hfailures
  cases heffect with
  | idle => exact hkeep (fun _ => .rfl) rfl
  | starts hwaits hchanges hfailures =>
    exact hkeep (hchanges.statusOf_eq_iff .failed (by simp [hwaits]) (by simp)) hfailures
  | executes hi hchanges hfailures =>
    exact hkeep (hchanges.statusOf_eq_iff .failed (by simp [hi]) (by simp)) hfailures
  | fails hi hverdict => exact h.fail hg hr hi hverdict

/-- The failures of a run blame the nodes that fail by themselves in its moments, in turn. -/
theorem Traces.blamed (hg : g.Runnable) {moments : List Moment} (h : Traces g s r moments r')
    (hr : Blamed g s r roots) : Blamed g s r' (roots ++ failuresOf moments) :=
  h.induction (fun roots r => Blamed g s r roots) (fun m => m.step.failed?)
    (fun _ _ _ hsame hr => hr.keep (fun i => by rw [hsame.statusOf_eq]) hsame.failures)
    (fun _ _ hfaithful hlaw _ hr => hr.effect hg hfaithful (hlaw.effect hg hfaithful)) hr

/-! ## What the failures say -/

/-- A node has failed for a reason of its own, and all its outputs carry it. -/
structure FailedByItself (g : Graph) (r : Run) (k : Nat) : Prop where
  failed : r.statusOf k = .failed
  own : ∃ reason, reason.IsOwn ∧ ∀ t ∈ g.outputsOf k, r.failures.get? t = some reason

theorem Faithful.failedByItself_iff (hg : g.Runnable) (h : Faithful g s r) {k : Nat} :
    FailedByItself g r k ↔ r.statusOf k = .failed ∧ g.evaluate s k ≠ .upstream := by
  constructor
  · rintro ⟨hfailed, reason, hown, hreason⟩
    refine ⟨hfailed, fun hupstream => ?_⟩
    have hlt : k < g.size := h.lt_size (by simp [hfailed])
    obtain ⟨t, ht⟩ := List.exists_mem_of_ne_nil _ (hg.outputsOf_ne_nil hlt)
    obtain ⟨j, -, htj, hallows⟩ := h.failure_sound t reason (hreason t ht)
    obtain rfl : k = j := hg.eq_of_mem_outputsOf ht htj
    rw [hupstream] at hallows
    obtain ⟨u, rfl⟩ := hallows
    exact hown
  · rintro ⟨hfailed, hown⟩
    cases hverdict : g.evaluate s k with
    | ok values =>
      have hfails := h.failed k hfailed
      rw [hverdict] at hfails
      cases hfails
    | failed reason =>
      exact ⟨hfailed, reason, g.isOwn_of_evaluate hg hverdict, fun t ht => h.failures_of_failed hg hfailed hverdict ht⟩
    | upstream => exact absurd hverdict hown

/-- The failures of a run: the outputs of a node carry one reason; the reason names another node just when the
node was never started; and what it names is the first output of a node before it that has failed for a reason of
its own. -/
structure Blames (g : Graph) (r : Run) (events : List Event) : Prop where
  alike : ∀ i, r.statusOf i = .failed → ∃ reason, ∀ t ∈ g.outputsOf i, r.failures.get? t = some reason
  upstream_iff : ∀ i, ∀ t ∈ g.outputsOf i,
    (∃ u, r.failures.get? t = some (.dependencyFailure u)) ↔ r.statusOf i = .failed ∧ .dispatched i ∉ events
  root : ∀ i, ∀ t ∈ g.outputsOf i, ∀ u, r.failures.get? t = some (.dependencyFailure u) →
    ∃ k, FailedByItself g r k ∧ (g.outputsOf k).head? = some u ∧ TransGen g.Feeds k i

/-- What is named is the first in the order of the graph of those that could be. -/
def BlamesFirst (g : Graph) (r : Run) : Prop :=
  ∀ i, ∀ t ∈ g.outputsOf i, ∀ u, r.failures.get? t = some (.dependencyFailure u) → ∀ k, u ∈ g.outputsOf k →
    ∀ j, FailedByItself g r j → TransGen g.Feeds j i → g.order.idxOf k ≤ g.order.idxOf j

theorem mem_downstream_iff_feeds (hg : g.Runnable) {i k : Nat} : i ∈ g.downstream k ↔ TransGen g.Feeds k i := by
  have hedge : Search.Edge g.dependentsOf = g.Feeds := by
    funext j i
    exact propext (hg.mem_dependentsOf j i)
  rw [hg.mem_downstream_iff, hedge]

/-- A failure that names another node is that of a node behind one that has failed. -/
theorem Faithful.upstream_of_named (hg : g.Runnable) (hr : Faithful g s r) {i : Nat} {t u : Specification}
    (ht : t ∈ g.outputsOf i) (hu : r.failures.get? t = some (.dependencyFailure u)) :
    r.statusOf i = .failed ∧ g.evaluate s i = .upstream := by
  obtain ⟨j, hfailed, htj, hallows⟩ := hr.failure_sound t _ hu
  obtain rfl : i = j := hg.eq_of_mem_outputsOf ht htj
  exact ⟨hfailed, eq_upstream_of_allows hg hallows⟩

theorem Blamed.blames (hg : g.Runnable) (hr : Faithful g s r) (h : Blamed g s r roots) {cancelled : Bool}
    {events : List Event} (hevents : Executor.Dispatched g s r cancelled events) : Blames g r events := by
  have hupstream : ∀ i, r.statusOf i = .failed → (g.evaluate s i = .upstream ↔ .dispatched i ∉ events) := by
    intro i hi
    rw [hevents.ended]
    simp [hi]
  refine ⟨fun i hi => ?_, fun i t ht => ⟨?_, ?_⟩, fun i t ht u hu => ?_⟩
  · by_cases hbehind : g.evaluate s i = .upstream
    · obtain ⟨k, u, -, -, hnamed⟩ := h.named i hi hbehind
      exact ⟨_, hnamed⟩
    · obtain ⟨-, reason, -, hreason⟩ := (hr.failedByItself_iff hg).2 ⟨hi, hbehind⟩
      exact ⟨reason, hreason⟩
  · rintro ⟨u, hu⟩
    obtain ⟨hi, hbehind⟩ := hr.upstream_of_named hg ht hu
    exact ⟨hi, (hupstream i hi).1 hbehind⟩
  · rintro ⟨hi, hnone⟩
    obtain ⟨k, u, -, -, hnamed⟩ := h.named i hi ((hupstream i hi).2 hnone)
    exact ⟨u, hnamed t ht⟩
  · obtain ⟨hi, hbehind⟩ := hr.upstream_of_named hg ht hu
    obtain ⟨k, u', hfind, hhead, hnamed⟩ := h.named i hi hbehind
    obtain rfl : u = u' := by
      have heq := hu.symm.trans (hnamed t ht)
      cases heq
      rfl
    refine ⟨k, (hr.failedByItself_iff hg).2 ((h.mem_roots k).1 (List.mem_of_find?_eq_some hfind)), hhead, ?_⟩
    have hbefore := List.find?_some hfind
    exact (mem_downstream_iff_feeds hg).1 (of_decide_eq_true hbefore)

/-- What stands first in a part of a list stands first in the list. -/
theorem idxOf_le_of_find? {xs ys : List Nat} (hsub : xs.Sublist ys) (hnodup : ys.Nodup) {p : Nat → Bool} {k j : Nat}
    (hk : xs.find? p = some k) (hj : j ∈ xs) (hp : p j = true) : ys.idxOf k ≤ ys.idxOf j := by
  have hordered : ys.Pairwise fun a b => ys.idxOf a < ys.idxOf b := by
    refine List.pairwise_iff_getElem.2 fun a b ha hb hab => ?_
    rwa [hnodup.idxOf_getElem, hnodup.idxOf_getElem]
  obtain ⟨-, before, after, rfl, hbefore⟩ := List.find?_eq_some_iff_append.1 hk
  have hrest := (List.pairwise_append.1 (hordered.sublist hsub)).2.1
  rcases List.mem_append.1 hj with hj | hj
  · simpa [hp] using hbefore j hj
  rcases List.mem_cons.1 hj with rfl | hj
  · exact Nat.le_refl _
  · exact Nat.le_of_lt ((List.pairwise_cons.1 hrest).1 j hj)

theorem Blamed.blamesFirst (hg : g.Runnable) (hr : Faithful g s r) (h : Blamed g s r roots)
    (hroots : roots.Sublist g.order) : BlamesFirst g r := by
  intro i t ht u hu k huk j hj hji
  obtain ⟨hi, hbehind⟩ := hr.upstream_of_named hg ht hu
  obtain ⟨k', u', hfind, hhead, hnamed⟩ := h.named i hi hbehind
  have heq := hu.symm.trans (hnamed t ht)
  cases heq
  obtain rfl : k = k' := hg.eq_of_mem_outputsOf huk (List.mem_of_head? hhead)
  have hmem := (h.mem_roots j).2 ((hr.failedByItself_iff hg).1 hj)
  have hnodup : g.order.Nodup := hg.order_perm.nodup_iff.2 List.nodup_range
  exact idxOf_le_of_find? hroots hnodup hfind hmem (decide_eq_true ((mem_downstream_iff_feeds hg).2 hji))

end

end Run

namespace Executor

open Run

variable {compiler : GraphCompiler} {d : ViewDefinition} {a : Availability} {g : Graph}

/-- The failures of every run of a compiled graph name what has failed first, under every strategy with workers and
every interleaving, and whether or not the run is cancelled: the first of those marked so far, and one node
after the other, the first in the order of the graph. -/
theorem drive_blames (hcompile : compiler.compileUncached d a = .ok g) {strategy : Strategy}
    (hworkers : 0 < strategy.workers) :
    ∃ e, ofStrategy strategy = .ok e ∧ ∀ (x : Interleaving) (s : Snapshot) (c : Control),
      (e.driveLogged x g s c).1 = e.drive x g s c ∧
      (e.runUnder x g s c).failures = (e.drive x g s c).1.failures ∧
      Blames g (e.drive x g s c).1 (e.driveLogged x g s c).2 ∧
      (strategy = .singleThreaded → BlamesFirst g (e.drive x g s c).1) := by
  have hg := Graph.runnable_of_compile hcompile
  obtain ⟨e, he⟩ := ofStrategy_isOk hworkers
  refine ⟨e, he, fun x s c => ?_⟩
  have hfaithful := (drive_atRest hg e x s c).toFaithful
  have hblamed := (drive_traces hg e x s c).blamed hg (blamed_start g s c)
  rw [List.nil_append] at hblamed
  refine ⟨e.driveLogged_fst x g s c, rfl, hblamed.blames hg hfaithful (driveLogged_dispatched hg e x s c), ?_⟩
  rintro rfl
  cases he
  exact hblamed.blamesFirst hg hfaithful (failuresOf_sweepTraced ..)

theorem demo_blames : ∃ r g e, Demo.repository = .ok r ∧
    (GraphCompiler.ofRepository r 1).compileUncached (Demo.definition 2) Demo.everything = .ok g ∧
    0 < Strategy.singleThreaded.workers ∧ ofStrategy .singleThreaded = .ok e ∧
    Blames g (e.drive Demo.cancelledMidway g (Demo.snapshot 1) {}).1
      (e.driveLogged Demo.cancelledMidway g (Demo.snapshot 1) {}).2 ∧
    BlamesFirst g (e.drive Demo.cancelledMidway g (Demo.snapshot 1) {}).1 := by
  obtain ⟨r, g, hr, -, hg⟩ := Demo.exists_graph 2
  have hworkers : 0 < Strategy.singleThreaded.workers := by decide
  obtain ⟨e, he, hblames⟩ := drive_blames hg hworkers
  obtain ⟨-, -, hblamed, hfirst⟩ := hblames Demo.cancelledMidway (Demo.snapshot 1) {}
  exact ⟨r, g, e, hr, hg, hworkers, he, hblamed, hfirst rfl⟩

end Executor
end Valuation
