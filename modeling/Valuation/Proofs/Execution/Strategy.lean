import Valuation.Proofs.Execution.Work

/-!
# Every strategy runs a graph to its end

The loops of the strategies take a coherent run to one that is at rest (`drive_atRest`): no node is running,
the run is to stop if its end is put down to cancellation, and every node has executed or failed if not. This
holds under every interleaving: whichever nodes in flight are computed when, whichever one ends next, and
whenever the run is cancelled. The loops with nodes in flight keep an invariant of their own (`InFlight`):
the jobs are the nodes that are running, once each, and what a job carries is what the graph means.
-/
namespace Valuation

namespace Run

section
variable {g : Graph} {s : Snapshot} {r r' : Run} {i : Nat}

/-! ## What is left to do -/

/-- How many nodes have not started. -/
def unstarted (r : Run) : Nat := (List.range r.status.length).countP fun i => r.statusOf i = .notStarted

/-- How many nodes have not ended. -/
def unended (r : Run) : Nat :=
  (List.range r.status.length).countP fun i => r.statusOf i = .notStarted ∨ r.statusOf i = .running

theorem unstarted_le (r : Run) : r.unstarted ≤ r.status.length :=
  List.countP_le_length.trans_eq List.length_range

theorem unended_le (r : Run) : r.unended ≤ r.status.length :=
  List.countP_le_length.trans_eq List.length_range

theorem Later.unended_of (h : Later r r') {j : Nat}
    (hj : r'.statusOf j = .notStarted ∨ r'.statusOf j = .running) :
    r.statusOf j = .notStarted ∨ r.statusOf j = .running :=
  hj.elim (fun hj => .inl (h.waits j hj)) (h.runs j)

theorem Later.unended_le (h : Later r r') : r'.unended ≤ r.unended := by
  unfold unended
  rw [h.length_status]
  refine List.countP_mono_left fun j _ hj => ?_
  rw [decide_eq_true_eq] at hj ⊢
  exact h.unended_of hj

theorem Later.unended_lt (h : Later r r') (hi : r.statusOf i = .running)
    (hi' : r'.statusOf i = .executed ∨ r'.statusOf i = .failed) : r'.unended < r.unended := by
  have hlt : i < r.status.length := lt_of_statusOf_ne (by simp [hi])
  unfold unended
  rw [h.length_status]
  refine Search.countP_lt_countP (fun j _ hj => ?_) (List.mem_range.2 hlt) ?_ ?_
  · rw [decide_eq_true_eq] at hj ⊢
    exact h.unended_of hj
  · rcases hi' with hi' | hi'
    · simp [hi']
    · simp [hi']
  · simp [hi]

theorem Later.unstarted_lt (h : Later r r') (hlt : i < r.status.length) (hi : r.statusOf i = .notStarted)
    (hi' : r'.statusOf i ≠ .notStarted) : r'.unstarted < r.unstarted := by
  unfold unstarted
  rw [h.length_status]
  refine Search.countP_lt_countP (fun j _ hj => ?_) (List.mem_range.2 hlt) ?_ ?_
  · rw [decide_eq_true_eq] at hj ⊢
    exact h.waits j hj
  · simpa using hi'
  · simpa using hi

/-! ## The end -/

/-- Every node has executed or failed. -/
def Settled (g : Graph) (r : Run) : Prop := ∀ i < g.size, r.statusOf i = .executed ∨ r.statusOf i = .failed

/-- When nothing runs and nothing can start, everything has ended. -/
theorem Faithful.settled (hg : g.Runnable) (h : Faithful g s r)
    (hready : ∀ i ∈ r.ready, r.statusOf i ≠ .notStarted) (hrunning : ∀ i, r.statusOf i ≠ .running) :
    Settled g r := by
  intro i hi
  induction hk : g.order.idxOf i using Nat.strong_induction_on generalizing i with
  | _ k ih =>
    cases hst : r.statusOf i with
    | running => exact absurd hst (hrunning i)
    | executed => exact .inl rfl
    | failed => exact .inr rfl
    | notStarted =>
      have hall : ∀ j ∈ g.dependenciesOf i, r.statusOf j = .executed := by
        intro j hj
        obtain ⟨hlt, hbefore⟩ := hg.idxOf_lt_of_mem_dependenciesOf hj
        exact (ih _ (hk ▸ hbefore) j hlt rfl).resolve_right (h.waiting i hst j hj)
      exact absurd hst (hready i (h.ready_complete i hi hst hall))

/-- How a run ends: nothing is running, and something has not ended only if the run was to stop. -/
structure AtRest (g : Graph) (s : Snapshot) (c : Control) (raised : Nat → Bool) (r : Run) (cancelled : Bool) :
    Prop extends Coherent g s c raised r where
  idle : ∀ i, r.statusOf i ≠ .running
  settled : cancelled = false → Settled g r
  seen : cancelled = true → r.isCancelled = true

/-! ## Looking for cancellation -/

variable {c : Control} {raised : Nat → Bool}

theorem later_observe (r : Run) (raised : Bool) : Later r (r.observe raised) := by
  cases raised with
  | false => exact .refl r
  | true => exact ⟨rfl, fun _ => id, fun _ => .inr, fun _ => id, fun _ _ => id, fun _ => rfl⟩

theorem Coherent.observe (h : Coherent g s c raised r) (k : Nat) :
    Coherent g s c raised (r.observe (raised k)) := by
  cases hk : raised k with
  | false => exact h
  | true =>
    refine ⟨h.toFaithful.retold .., h.toRecorded.later (later_observe r true) rfl rfl, .inr ⟨⟨k, hk⟩, ?_⟩⟩
    rcases h.control with hc | ⟨-, hc⟩
    · exact congrArg (fun c : Control => { c with cancelled := true }) hc
    · exact congrArg (fun c : Control => { c with cancelled := true }) hc

end

end Run

namespace Executor

open Run

section
variable {g : Graph} {s : Snapshot} {c : Control} {raised : Nat → Bool} {r : Run}

/-! ## One after the other -/

theorem mem_of_idxOf_lt {xs ys : List Nat} {i j : Nat} (hi : i ∉ xs)
    (h : (xs ++ i :: ys).idxOf j < (xs ++ i :: ys).idxOf i) : j ∈ xs := by
  by_contra hj
  rw [List.idxOf_append_of_notMem hj, List.idxOf_append_of_notMem hi, List.idxOf_cons_self] at h
  omega

/-- The nodes gone through have ended, and nothing else has executed or runs. -/
structure Swept (r : Run) (before : List Nat) : Prop where
  ended : ∀ i ∈ before, r.statusOf i = .executed ∨ r.statusOf i = .failed
  mem_of_executed : ∀ i, r.statusOf i = .executed → i ∈ before
  idle : ∀ i, r.statusOf i ≠ .running

theorem Swept.skip {before : List Nat} {i : Nat} (h : Swept r before) (hi : r.statusOf i = .failed) :
    Swept r (before ++ [i]) := by
  refine ⟨fun j hj => ?_, fun j hj => List.mem_append_left _ (h.mem_of_executed j hj), h.idle⟩
  rcases List.mem_append.1 hj with hj | hj
  · exact h.ended j hj
  · exact .inr (List.mem_singleton.1 hj ▸ hi)

theorem Swept.execute {before : List Nat} {i : Nat} {r₁ r' : Run} (h : Swept r before)
    (hst : Changes r r₁ i .running) (hend : Ended r₁ r' i) : Swept r' (before ++ [i]) := by
  have hothers : ∀ j, j ≠ i → r'.statusOf j = r.statusOf j ∨ r'.statusOf j = .failed := by
    intro j hji
    rw [← hst.statusOf_of_ne hji]
    exact (hend.others j hji).imp_right And.right
  refine ⟨fun j hj => ?_, fun j hj => ?_, fun j hj => ?_⟩
  · by_cases hji : j = i
    · exact hji ▸ hend.ended
    · have hmem : j ∈ before := (List.mem_append.1 hj).resolve_right (by simpa using hji)
      rcases hothers j hji with hsame | hfailed
      · rw [hsame]
        exact h.ended j hmem
      · exact .inr hfailed
  · by_cases hji : j = i
    · simp [hji]
    · rcases hothers j hji with hsame | hfailed
      · exact List.mem_append_left _ (h.mem_of_executed j (hsame.symm.trans hj))
      · cases hj.symm.trans hfailed
  · obtain ⟨hji, hj⟩ := hend.running_iff.1 hj
    rw [hst.statusOf_of_ne hji] at hj
    exact h.idle j hj

theorem Swept.observe {before : List Nat} (h : Swept r before) (raised : Bool) :
    Swept (r.observe raised) before := by
  cases raised with
  | false => exact h
  | true => exact ⟨h.ended, h.mem_of_executed, h.idle⟩

/-- The next node of the order has not been gone through, and waits for nothing any more unless it has failed. -/
theorem Swept.next (hg : g.Runnable) {before rest : List Nat} {i : Nat} (horder : g.order = before ++ i :: rest)
    (h : Coherent g s c raised r) (hswept : Swept r before) :
    i ∉ before ∧ i < g.size ∧ (r.statusOf i ≠ .failed →
      r.statusOf i = .notStarted ∧ ∀ j ∈ g.dependenciesOf i, r.statusOf j = .executed) := by
  have hnodup : g.order.Nodup := hg.order_perm.nodup_iff.2 List.nodup_range
  have hi : i ∉ before := by
    rw [horder] at hnodup
    exact fun hmem => (List.nodup_append.1 hnodup).2.2 i hmem i (List.mem_cons_self ..) rfl
  have hlt : i < g.size := by
    have hmem : i ∈ g.order := by simp [horder]
    exact List.mem_range.1 (hg.order_perm.mem_iff.1 hmem)
  refine ⟨hi, hlt, fun hfailed => ?_⟩
  have hwaits : r.statusOf i = .notStarted := by
    cases hst : r.statusOf i with
    | notStarted => rfl
    | running => exact absurd hst (hswept.idle i)
    | executed => exact absurd (hswept.mem_of_executed i hst) hi
    | failed => exact absurd hst hfailed
  refine ⟨hwaits, fun j hj => ?_⟩
  have hlt := (hg.idxOf_lt_of_mem_dependenciesOf hj).2
  rw [horder] at hlt
  exact (hswept.ended j (mem_of_idxOf_lt hi hlt)).resolve_right (h.waiting i hwaits j hj)

/-- The next node of the order starts, unless it has failed. -/
theorem Swept.begin (hg : g.Runnable) {before rest : List Nat} {i : Nat} (horder : g.order = before ++ i :: rest)
    (h : Coherent g s c raised r) (hswept : Swept r before) (hfailed : r.statusOf i ≠ .failed) :
    r.statusOf i = .notStarted ∧ Coherent g s c raised (r.setStatus i .running) ∧
      Changes r (r.setStatus i .running) i .running ∧ Untouched g (r.setStatus i .running) i := by
  obtain ⟨-, hlt, hnext⟩ := hswept.next hg horder h
  obtain ⟨hwaits, hdeps⟩ := hnext hfailed
  obtain ⟨hbegun, hst, -, huntouched⟩ :=
    h.begin hg hlt hwaits hdeps (fun _ (hj : _ ∈ r.ready) => hj) fun _ hj _ => .inr hj
  exact ⟨hwaits, hbegun, hst, huntouched⟩

/-- Going through the rest of the order brings a run to rest, once the nodes before it have ended. -/
theorem sweep_atRest (hg : g.Runnable) {before rest : List Nat} (horder : g.order = before ++ rest)
    (h : Coherent g s c raised r) (hswept : Swept r before) {r' : Run} {cancelled : Bool}
    (heq : sweep raised rest r = (r', cancelled)) : AtRest g s c raised r' cancelled := by
  induction rest generalizing before r with
  | nil =>
    cases heq
    refine ⟨h, hswept.idle, fun _ i hi => hswept.ended i ?_, nofun⟩
    rw [← List.append_nil before, ← horder, hg.order_perm.mem_iff]
    exact List.mem_range.2 hi
  | cons i rest ih =>
    have hnext : g.order = (before ++ [i]) ++ rest := by rw [horder, List.append_cons]
    rw [sweep] at heq
    replace h := h.observe rest.length
    replace hswept := hswept.observe (raised rest.length)
    generalize r.observe (raised rest.length) = r at h hswept heq
    split at heq
    · next hcancelled =>
      cases heq
      exact ⟨h, hswept.idle, nofun, fun _ => hcancelled⟩
    split at heq
    · next hfailed => exact ih hnext h (hswept.skip hfailed) heq
    next hfailed =>
    obtain ⟨-, hbegun, hst, huntouched⟩ := hswept.begin hg horder h hfailed
    obtain ⟨hcoherent, hend, -⟩ := hbegun.execute hg hst.statusOf_self huntouched
    exact ih hnext hcoherent (hswept.execute hst hend) heq

/-! ## Several in flight -/

/-- What a job carries is what the graph means for its node. -/
structure JobValid (g : Graph) (s : Snapshot) (r : Run) (job : Job) : Prop where
  inputs : ∀ n given, g.node? job.node = some n → job.inputs = some given →
    given = .ofList (n.inputValues (g.valueOf? s))
  todo : job.result = none → Untouched g r job.node
  done : ∀ result, job.result = some result → Due g s r job.node result

/-- The jobs are the running nodes, once each, and carry what the graph means. -/
structure InFlight (g : Graph) (s : Snapshot) (r : Run) (jobs : List Job) : Prop where
  nodup : (jobs.map (·.node)).Nodup
  running : ∀ i, r.statusOf i = .running ↔ i ∈ jobs.map (·.node)
  valid : ∀ job ∈ jobs, JobValid g s r job

theorem JobValid.leavesAlone {job : Job} {r' : Run} (h : JobValid g s r job)
    (halone : LeavesAlone g job.node r r') : JobValid g s r' job :=
  ⟨h.inputs, fun hnone => halone.untouched (h.todo hnone),
    fun result hresult => halone.due (h.done result hresult)⟩

theorem firstReady_eq_none {status : List NodeStatus} {ready : List Nat}
    (h : firstReady status ready = none) : ∀ i ∈ ready, status.getD i .notStarted ≠ .notStarted := by
  induction ready with
  | nil => simp
  | cons j rest ih =>
    unfold firstReady at h
    split at h
    · cases h
    · next hj => exact List.forall_mem_cons.2 ⟨hj, ih h⟩

theorem firstReady_eq_some {status : List NodeStatus} {ready rest : List Nat} {i : Nat}
    (h : firstReady status ready = some (i, rest)) :
    i ∈ ready ∧ status.getD i .notStarted = .notStarted ∧ (∀ j ∈ rest, j ∈ ready) ∧
      ∀ j ∈ ready, status.getD j .notStarted = .notStarted → j = i ∨ j ∈ rest := by
  induction ready with
  | nil => cases h
  | cons j ready ih =>
    unfold firstReady at h
    split at h
    · next hj =>
      cases h
      refine ⟨List.mem_cons_self .., hj, fun k hk => List.mem_cons_of_mem _ hk, fun k hk _ => ?_⟩
      exact List.mem_cons.1 hk
    · next hj =>
      obtain ⟨hmem, hwaits, hsub, hkeep⟩ := ih h
      refine ⟨List.mem_cons_of_mem _ hmem, hwaits, fun k hk => List.mem_cons_of_mem _ (hsub k hk),
        fun k hk hkwaits => ?_⟩
      rcases List.mem_cons.1 hk with rfl | hk
      · exact absurd hkwaits hj
      · exact hkeep k hk hkwaits

/-- The next ready node starts. -/
theorem nextReady_eq_some (hg : g.Runnable) (h : Coherent g s c raised r) {i : Nat} {r' : Run}
    (hnext : r.nextReady = some (i, r')) :
    r.statusOf i = .notStarted ∧ i < g.size ∧ Coherent g s c raised r' ∧ Changes r r' i .running ∧
      KeepsRecord r r' ∧ Untouched g r' i := by
  obtain ⟨⟨k, rest⟩, hfirst, heq⟩ := Option.map_eq_some_iff.1 hnext
  cases heq
  obtain ⟨hmem, hwaits, hsub, hkeep⟩ := firstReady_eq_some hfirst
  obtain ⟨hlt, hdeps⟩ := h.ready_sound i hmem
  exact ⟨hwaits, hlt, h.begin hg hlt hwaits hdeps hsub hkeep⟩

theorem InFlight.perm {jobs jobs' : List Job} (h : InFlight g s r jobs) (hperm : jobs.Perm jobs') :
    InFlight g s r jobs' := by
  have hnodes := hperm.map (·.node)
  refine ⟨hnodes.nodup_iff.1 h.nodup, fun i => ?_, fun job hjob => h.valid job (hperm.mem_iff.2 hjob)⟩
  rw [h.running, hnodes.mem_iff]

theorem InFlight.observe {jobs : List Job} (h : InFlight g s r jobs) (raised : Bool) :
    InFlight g s (r.observe raised) jobs := by
  cases raised with
  | false => exact h
  | true => exact ⟨h.nodup, h.running, fun job hjob => (h.valid job hjob).leavesAlone (leavesAlone_of_eq rfl rfl)⟩

theorem InFlight.begin {jobs : List Job} {r' : Run} {i : Nat} (h : InFlight g s r jobs)
    (hwaits : r.statusOf i = .notStarted) (hst : Changes r r' i .running) (hkeeps : KeepsRecord r r')
    (huntouched : Untouched g r' i) : InFlight g s r' (⟨i, none, none⟩ :: jobs) := by
  have hi : i ∉ jobs.map (·.node) := by
    rw [← h.running, hwaits]
    simp
  refine ⟨List.nodup_cons.2 ⟨hi, h.nodup⟩, fun j => ?_, fun job hjob => ?_⟩
  · rw [hst, List.map_cons, List.mem_cons, ← h.running]
    by_cases hij : i = j
    · simp [hij]
    · simp [hij, Ne.symm hij]
  · rcases List.mem_cons.1 hjob with rfl | hjob
    · exact ⟨nofun, fun _ => huntouched, nofun⟩
    · exact (h.valid job hjob).leavesAlone (leavesAlone_of_eq hkeeps.cache hkeeps.journal)

section
variable {job : Job} {jobs : List Job} {r' : Run} (hg : g.Runnable) (h : InFlight g s r (job :: jobs))
  (hstep : Advance g job.node r r')
include hg h hstep

/-- Jobs other than the one that is worked on stay as they are. -/
theorem InFlight.others : ∀ other ∈ jobs, JobValid g s r' other := by
  intro other hother
  have hne : other.node ≠ job.node := by
    intro heq
    exact (List.nodup_cons.1 h.nodup).1 (List.mem_map.2 ⟨other, hother, heq⟩)
  exact (h.valid other (List.mem_cons_of_mem _ hother)).leavesAlone (hstep.leavesAlone hg hne)

/-- A job that ends its node is no longer in flight. -/
theorem InFlight.ended (hend : Ended r r' job.node) : InFlight g s r' jobs := by
  obtain ⟨hjob, hnodup⟩ := List.nodup_cons.1 h.nodup
  refine ⟨hnodup, fun i => ?_, h.others hg hstep⟩
  rw [hend.running_iff, h.running, List.map_cons, List.mem_cons]
  constructor
  · rintro ⟨hne, hi⟩
    exact hi.resolve_left hne
  · intro hi
    exact ⟨fun e => hjob (show job.node ∈ _ from e ▸ hi), .inr hi⟩

/-- A job whose node has been computed stays in flight with the result. -/
theorem InFlight.worked (hstatus : r'.status = r.status)
    {result : Except FailureReason (List ComputedValue)} (hdue : Due g s r' job.node result) :
    InFlight g s r' ({ job with result := some result } :: jobs) := by
  refine ⟨h.nodup, fun i => ?_, fun other hother => ?_⟩
  · rw [statusOf, hstatus]
    exact h.running i
  · rcases List.mem_cons.1 hother with rfl | hother
    · refine ⟨(h.valid job (List.mem_cons_self ..)).inputs,
        fun hnone => absurd hnone (Option.some_ne_none _), ?_⟩
      rintro _ ⟨⟩
      exact hdue
    · exact h.others hg hstep other hother

end

/-! ## Working on jobs -/

/-- A worker goes on with a node, and nothing but the record of the run and the cache changes. -/
theorem work_spec (hg : g.Runnable) (copyInputs : Bool) (h : Coherent g s c raised r) {job : Job}
    (hi : r.statusOf job.node = .running) (hjob : JobValid g s r job) :
    ∃ r' result, work copyInputs r job = (r', result) ∧ Coherent g s c raised r' ∧
      Advance g job.node r r' ∧ Due g s r' job.node result ∧ r'.status = r.status ∧ r'.ready = r.ready := by
  unfold work
  cases hresult : job.result with
  | none =>
    obtain ⟨call, result, hcompute, hcalled, hstep, hdue⟩ :=
      h.compute hg hi (hjob.todo hresult) hjob.inputs
    exact ⟨r.note call, result, hcompute, hcalled, hstep, hdue, rfl, rfl⟩
  | some result =>
    have hdue := hjob.done result hresult
    cases copyInputs with
    | true => exact ⟨r, result, rfl, h, (Later.refl r).advance (.refl r), hdue, rfl, rfl⟩
    | false =>
      obtain ⟨cache, result', hwrite, hstored, hstep, hwritten⟩ := h.write hg hi hdue
      exact ⟨{ r with cache }, result', hwrite, hstored, hstep, .written hwritten, rfl, rfl⟩

/-- A job ends its node, however far workers have come with it. -/
theorem finishJob_spec (hg : g.Runnable) (h : Coherent g s c raised r) {job : Job}
    (hi : r.statusOf job.node = .running) (hjob : JobValid g s r job) :
    Coherent g s c raised (finishJob r job) ∧ Ended r (finishJob r job) job.node ∧
      Advance g job.node r (finishJob r job) := by
  unfold finishJob
  cases hresult : job.result with
  | none => exact h.compute_finish hg hi (hjob.todo hresult) hjob.inputs rfl
  | some result => exact h.finish hg hi (hjob.done result hresult)

theorem set_perm {α : Type} {xs : List α} {k : Nat} {x : α} (h : xs[k]? = some x) (y : α) :
    (x :: xs.eraseIdx k).Perm xs ∧ (y :: xs.eraseIdx k).Perm (xs.set k y) := by
  obtain ⟨hlt, rfl⟩ := List.getElem?_eq_some_iff.1 h
  have hlt' : k < (xs.set k y).length := by rwa [List.length_set]
  refine ⟨List.getElem_cons_eraseIdx_perm hlt, ?_⟩
  have hperm := List.getElem_cons_eraseIdx_perm hlt'
  rwa [List.getElem_set_self, List.eraseIdx_set_eq] at hperm

/-- Working on jobs leaves them in flight. -/
theorem workOn_spec (hg : g.Runnable) (copyInputs : Bool) {ks : List Nat} (h : Coherent g s c raised r)
    {jobs : List Job} (hjobs : InFlight g s r jobs) {r' : Run} {jobs' : List Job}
    (heq : workOn copyInputs ks r jobs = (r', jobs')) :
    Coherent g s c raised r' ∧ InFlight g s r' jobs' ∧ Later r r' ∧ r'.status = r.status ∧
      r'.ready = r.ready := by
  induction ks generalizing r jobs with
  | nil =>
    cases heq
    exact ⟨h, hjobs, .refl _, rfl, rfl⟩
  | cons k ks ih =>
    unfold workOn at heq
    split at heq
    · exact ih h hjobs heq
    · next job hjob =>
      obtain ⟨hbefore, -⟩ := set_perm hjob job
      have hjobs₁ := hjobs.perm hbefore.symm
      have hi := (hjobs₁.running job.node).2 (List.mem_cons_self ..)
      obtain ⟨r₁, result, hwork, h₁, hstep, hdue, hstatus, hready⟩ :=
        work_spec hg copyInputs h hi (hjobs₁.valid job (List.mem_cons_self ..))
      rw [hwork] at heq
      have hjobs₂ := (hjobs₁.worked hg hstep hstatus hdue).perm (set_perm hjob _).2
      obtain ⟨h', hjobs', hlater, hstatus', hready'⟩ := ih h₁ hjobs₂ heq
      exact ⟨h', hjobs', hstep.toLater.trans hlater, hstatus'.trans hstatus, hready'.trans hready⟩

/-! ## Queueing -/

/-- A node that has just started becomes a job, or ends at once. -/
theorem submit_spec (hg : g.Runnable) (copyInputs : Bool) (h : Coherent g s c raised r) {jobs : List Job}
    {i : Nat} (hjobs : InFlight g s r (⟨i, none, none⟩ :: jobs)) {r' : Run} {jobs' : List Job}
    (heq : submit copyInputs r jobs i = (r', jobs')) :
    Coherent g s c raised r' ∧ InFlight g s r' jobs' ∧ Later r r' ∧ StartsNone g s r r' := by
  have hi : r.statusOf i = .running := (hjobs.running i).2 (List.mem_cons_self ..)
  have huntouched : Untouched g r i := (hjobs.valid _ (List.mem_cons_self ..)).todo rfl
  obtain ⟨n, hn⟩ := h.exists_node (i := i) (by simp [hi])
  unfold submit at heq
  split at heq
  · cases heq
    exact ⟨h, hjobs.perm (List.perm_append_singleton ..).symm, .refl r, startsNone_of_eq rfl⟩
  · rw [h.graph, hn] at heq
    dsimp only at heq
    split at heq
    · cases heq
      obtain ⟨hcoherent, hend, hstep⟩ := h.execute hg hi huntouched
      exact ⟨hcoherent, hjobs.ended hg hstep hend, hstep.toLater,
        hend.startsNone hg hi h.graph hcoherent.toTracks⟩
    · next f hf =>
      rw [h.toFaithful.gatherInputs hg hi hn] at heq
      cases heq
      refine ⟨h, InFlight.perm ?_ (List.perm_append_singleton ..).symm, .refl r, startsNone_of_eq rfl⟩
      refine ⟨hjobs.nodup, hjobs.running, List.forall_mem_cons.2 ⟨⟨?_, fun _ => huntouched, nofun⟩, ?_⟩⟩
      · rintro m _ hm ⟨⟩
        obtain rfl : n = m := Option.some.inj (hn.symm.trans hm)
        rfl
      · exact fun job hjob => hjobs.valid job (List.mem_cons_of_mem _ hjob)

/-- Queueing goes on until nothing is ready, whatever workers do meanwhile. -/
theorem submitReady_spec (hg : g.Runnable) (copyInputs : Bool) (meanwhile : Nat → List Nat) {fuel : Nat}
    (h : Coherent g s c raised r) {jobs : List Job} (hjobs : InFlight g s r jobs) (hfuel : r.unstarted < fuel) {r' : Run}
    {jobs' : List Job} (heq : submitReady copyInputs meanwhile fuel r jobs = (r', jobs')) :
    Coherent g s c raised r' ∧ InFlight g s r' jobs' ∧ Later r r' ∧
      ∀ i ∈ r'.ready, r'.statusOf i ≠ .notStarted := by
  induction fuel generalizing r jobs with
  | zero => omega
  | succ fuel ih =>
    unfold submitReady at heq
    split at heq
    · next hnext =>
      cases heq
      exact ⟨h, hjobs, .refl _, firstReady_eq_none (Option.map_eq_none_iff.1 hnext)⟩
    · next i r₁ hnext =>
      obtain ⟨hwaits, hlt, h₁, hst, hkeeps, huntouched⟩ := nextReady_eq_some hg h hnext
      obtain ⟨h₂, hjobs₂, hlater₂, -⟩ :=
        submit_spec hg copyInputs h₁ (hjobs.begin hwaits hst hkeeps huntouched) rfl
      obtain ⟨h₃, hjobs₃, hlater₃, -⟩ := workOn_spec hg copyInputs h₂ hjobs₂ rfl
      have hlater₁ := hst.later (h₁.length_status.trans h.length_status.symm) hwaits hkeeps
      have hbegun : r₁.statusOf i ≠ .notStarted := by simp [hst.statusOf_self]
      have hrest := hlater₂.trans hlater₃
      have hlater := hlater₁.trans hrest
      have hless := hlater.unstarted_lt (h.length_status ▸ hlt) hwaits fun hi => hbegun (hrest.waits i hi)
      obtain ⟨h', hjobs', hlater', hready⟩ := ih h₃ hjobs₃ (by omega) heq
      exact ⟨h', hjobs', hlater.trans hlater', hready⟩

/-! ## Rounds -/

theorem eq_nil_of_getElem?_mod {α : Type} {xs : List α} {k : Nat} (h : xs[k % xs.length]? = none) : xs = [] := by
  by_contra hne
  have hlt := Nat.mod_lt k (List.length_pos_iff.2 hne)
  exact absurd (List.getElem?_eq_none_iff.1 h) (Nat.not_le.2 hlt)

/-- One of the nodes in flight ends, and is no longer in flight. -/
theorem endNext_spec (hg : g.Runnable) (h : Coherent g s c raised r) {jobs : List Job}
    (hjobs : InFlight g s r jobs) {k : Nat} {job : Job} (hjob : jobs[k]? = some job) :
    r.statusOf job.node = .running ∧ Coherent g s c raised (finishJob r job) ∧
      InFlight g s (finishJob r job) (jobs.eraseIdx k) ∧ Ended r (finishJob r job) job.node ∧
      Later r (finishJob r job) := by
  have hfirst := hjobs.perm (set_perm hjob job).1.symm
  have hi := (hfirst.running job.node).2 (List.mem_cons_self ..)
  obtain ⟨h', hend, hstep⟩ := finishJob_spec hg h hi (hfirst.valid job (List.mem_cons_self ..))
  exact ⟨hi, h', hfirst.ended hg hstep hend, hend, hstep.toLater⟩

/-- A round queues what is ready, unless the run is cancelled. -/
theorem queue_spec (hg : g.Runnable) (copyInputs : Bool) (meanwhile : Nat → List Nat)
    (h : Coherent g s c raised r) {jobs : List Job} (hjobs : InFlight g s r jobs) {r' : Run} {jobs' : List Job}
    (heq : (if r.isCancelled then (r, jobs)
      else submitReady copyInputs meanwhile (r.graph.size + 1) r jobs) = (r', jobs')) :
    Coherent g s c raised r' ∧ InFlight g s r' jobs' ∧ Later r r' ∧
      (r.isCancelled = false → ∀ i ∈ r'.ready, r'.statusOf i ≠ .notStarted) := by
  split at heq
  · next hcancelled =>
    cases heq
    exact ⟨h, hjobs, .refl r, fun hgoes => absurd (hcancelled.symm.trans hgoes) (by simp)⟩
  · have hunstarted : r.unstarted < r.graph.size + 1 := by
      have := r.unstarted_le
      rw [h.length_status, ← h.graph] at this
      omega
    obtain ⟨h', hjobs', hlater, hready⟩ := submitReady_spec hg copyInputs meanwhile h hjobs hunstarted heq
    exact ⟨h', hjobs', hlater, fun _ => hready⟩

/-- The rounds bring a run to rest, whatever workers do when, whichever node in flight ends next, and whenever
the run is cancelled. -/
theorem rounds_atRest (hg : g.Runnable) (copyInputs : Bool) {x : Interleaving} {fuel : Nat}
    (h : Coherent g s c x.raised r) {jobs : List Job} (hjobs : InFlight g s r jobs)
    (hfuel : r.unended < fuel) {r' : Run} {cancelled : Bool}
    (heq : rounds copyInputs x fuel r jobs = (r', cancelled)) : AtRest g s c x.raised r' cancelled := by
  induction fuel generalizing r jobs with
  | zero => omega
  | succ fuel ih =>
    rw [rounds] at heq
    have hmore₁ := (later_observe r (x.raised fuel)).unended_le
    replace h := h.observe fuel
    replace hjobs := hjobs.observe (x.raised fuel)
    generalize r.observe (x.raised fuel) = r₁ at h hjobs hmore₁ heq
    obtain ⟨⟨r₂, jobs₂⟩, hqueued⟩ : ∃ queued, (if r₁.isCancelled then (r₁, jobs)
      else submitReady copyInputs (x.meanwhile fuel) (r₁.graph.size + 1) r₁ jobs) = queued := ⟨_, rfl⟩
    obtain ⟨h₂, hjobs₂, hlater₂, hready⟩ := queue_spec hg copyInputs (x.meanwhile fuel) h hjobs hqueued
    obtain ⟨⟨r₃, jobs₃⟩, hworked⟩ : ∃ worked, workOn copyInputs (x.early fuel) r₂ jobs₂ = worked := ⟨_, rfl⟩
    obtain ⟨h₃, hjobs₃, hlater₃, hstatus, hqueue⟩ := workOn_spec hg copyInputs h₂ hjobs₂ hworked
    simp only [hqueued, hworked] at heq
    split at heq
    · next hnone =>
      obtain rfl : jobs₃ = [] := eq_nil_of_getElem?_mod hnone
      have hidle : ∀ i, r₃.statusOf i ≠ .running :=
        fun i hi => List.not_mem_nil ((hjobs₃.running i).1 hi)
      cases heq
      refine ⟨h₃, hidle, fun hgoes => h₃.settled hg (fun i hi => ?_) hidle, fun hc => ?_⟩
      · rw [statusOf, hstatus]
        exact hready hgoes i (hqueue ▸ hi)
      · exact hlater₃.cancelled (hlater₂.cancelled hc)
    · next job hjob =>
      obtain ⟨hi, h₄, hjobs₄, hend, hlater₄⟩ := endNext_spec hg h₃ hjobs₃ hjob
      have hless := hlater₄.unended_lt hi hend.ended
      have hmore := (hlater₂.trans hlater₃).unended_le
      exact ih h₄ hjobs₄ (by omega) heq

/-! ## Whole runs -/

theorem coherent_start (hg : g.Runnable) (s : Snapshot) (c : Control) (raised : Nat → Bool) :
    Coherent g s c raised (start g s c) :=
  ⟨faithful_start hg s c, recorded_start g s c, .inl rfl⟩

theorem swept_start (g : Graph) (s : Snapshot) (c : Control) : Swept (start g s c) [] := by
  have hst := statusOf_start g s c
  refine ⟨by simp, fun i hi => ?_, fun i => by rw [hst]; simp⟩
  cases (hst i).symm.trans hi

theorem inFlight_start (g : Graph) (s : Snapshot) (c : Control) : InFlight g s (start g s c) [] := by
  refine ⟨List.nodup_nil, fun i => ?_, fun job hjob => absurd hjob List.not_mem_nil⟩
  rw [statusOf_start]
  simp

/-- Every executor brings every run of a graph to rest, under every interleaving. -/
theorem drive_atRest (hg : g.Runnable) (e : Executor) (x : Interleaving) (s : Snapshot) (c : Control) :
    AtRest g s c x.raised (e.drive x g s c).1 (e.drive x g s c).2 := by
  have hstart := coherent_start hg s c x.raised
  have hjobs := inFlight_start g s c
  have hfuel : (start g s c).unended < g.size + 1 := by
    have hle := (start g s c).unended_le
    rw [hstart.length_status] at hle
    omega
  cases e with
  | singleThreaded => exact sweep_atRest hg (List.nil_append g.order).symm hstart (swept_start g s c) rfl
  | nodeParallel => exact rounds_atRest hg false hstart hjobs hfuel rfl
  | jobDispatch => exact rounds_atRest hg true hstart hjobs hfuel rfl

end

end Executor
end Valuation
