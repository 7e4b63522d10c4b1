import Valuation.Proofs.Execution.Moments

/-!
# Every step of a run

The loops of the strategies are repeated here once, with every look written down and every step that starts or ends a
node, and the moment it is taken in; what they do to the run is the same (`driveTraced_fst`). What is proved elsewhere of
the course of a run is read off this. Nothing happens to the nodes but these steps: each starts a waiting node or ends a
running one, and leads from one moment that agrees with the meaning of the graph to another (`drive_traces`). Nothing is
started once a look has found that the run is to stop, and that is what a run reports (`drive_looks`). One node after
the other, nodes fail in the order of the graph (`failuresOf_sweepTraced`).
-/
namespace Valuation

namespace Run

section
variable {g : Graph} {s : Snapshot} {c : Control} {raised : Nat → Bool} {r : Run} {i : Nat}
  {result : Except FailureReason (List ComputedValue)}

/-! ## Ending a node -/

/-- `finish` with its step. -/
def finishTraced (r : Run) (i : Nat) (values : Except FailureReason (List ComputedValue)) : Run × List Moment :=
  match r.write values with
  | (r, .error reason) => (r.fail i reason, [⟨r, .fail i reason⟩])
  | (r, .ok _) => (r.complete i, [⟨r, .complete i⟩])

/-- `execute` with its step. -/
def executeTraced (r : Run) (i : Nat) : Run × List Moment :=
  let (r, values) := r.compute i none
  r.finishTraced i values

theorem finishTraced_fst (r : Run) (i : Nat) (values : Except FailureReason (List ComputedValue)) :
    (r.finishTraced i values).1 = r.finish i values := by
  unfold finishTraced finish
  obtain ⟨r', written⟩ := r.write values
  cases written with
  | error reason => rfl
  | ok _ => rfl

theorem executeTraced_fst (r : Run) (i : Nat) : (r.executeTraced i).1 = r.execute i :=
  finishTraced_fst ..

/-- Nothing starts when a node ends. -/
@[simp] theorem eventsOf_finishTraced (r : Run) (i : Nat) (values : Except FailureReason (List ComputedValue)) :
    eventsOf (r.finishTraced i values).2 = [] := by
  unfold finishTraced
  obtain ⟨r', written⟩ := r.write values
  cases written with
  | error reason => rfl
  | ok _ => rfl

@[simp] theorem eventsOf_executeTraced (r : Run) (i : Nat) : eventsOf (r.executeTraced i).2 = [] :=
  eventsOf_finishTraced ..

/-- Only the node that ends fails by itself. -/
theorem failuresOf_executeTraced (r : Run) (i : Nat) : (failuresOf (r.executeTraced i).2).Sublist [i] := by
  unfold executeTraced finishTraced
  dsimp only
  obtain ⟨r', written⟩ := (r.compute i none).1.write (r.compute i none).2
  cases written with
  | error reason => exact List.Sublist.refl [i]
  | ok _ => exact List.nil_sublist [i]

/-- A running node ends by one step, with what has come of it. -/
theorem Coherent.finish_traces (hg : g.Runnable) (h : Coherent g s c raised r) (hi : r.statusOf i = .running)
    (hdue : Due g s r i result) : Traces g s r (r.finishTraced i result).2 (r.finish i result) := by
  obtain ⟨hfinished, -, -⟩ := h.finish hg hi hdue
  obtain ⟨cache, result', heq, hstored, -, hwritten⟩ := h.write hg hi hdue
  have hwrite : Traces g s r [] { r with cache } := SameNodes.traces ⟨rfl, rfl, rfl, rfl, rfl⟩
  simp only [Run.finish, finishTraced, heq] at hfinished ⊢
  replace hi : ({ r with cache } : Run).statusOf i = .running := hi
  cases hwritten with
  | failed hverdict =>
    exact hwrite.trans ((Step.Lawful.fail hi hverdict).traces hstored.toFaithful hfinished.toFaithful)
  | cached => exact hwrite.trans ((Step.Lawful.complete hi).traces hstored.toFaithful hfinished.toFaithful)

/-- A running node is computed and ends by one step. -/
theorem Coherent.compute_finish_traces (hg : g.Runnable) (h : Coherent g s c raised r)
    (hi : r.statusOf i = .running) (huntouched : Untouched g r i) {inputs : Option FunctionInputs}
    (hinputs : ∀ n given, g.node? i = some n → inputs = some given →
      given = .ofList (n.inputValues (g.valueOf? s)))
    {r₁ : Run} (heq : r.compute i inputs = (r₁, result)) :
    Traces g s r (r₁.finishTraced i result).2 (r₁.finish i result) := by
  obtain ⟨call, _, hcall, hcalled, -, hdue⟩ := h.compute hg hi huntouched hinputs
  cases hcall.symm.trans heq
  have hnote : Traces g s r [] (r.note call) := SameNodes.traces ⟨rfl, rfl, rfl, rfl, rfl⟩
  exact hnote.trans (hcalled.finish_traces hg hi hdue)

theorem Coherent.execute_traces (hg : g.Runnable) (h : Coherent g s c raised r) (hi : r.statusOf i = .running)
    (huntouched : Untouched g r i) : Traces g s r (r.executeTraced i).2 (r.execute i) := by
  have hinputs : ∀ n given, g.node? i = some n → none = some given →
      given = FunctionInputs.ofList (n.inputValues (g.valueOf? s)) := nofun
  exact h.compute_finish_traces hg hi huntouched hinputs rfl

end

end Run

namespace Executor

open Run

/-! ## The loops, with their steps -/

/-- `sweep` with its steps. -/
def sweepTraced (raised : Nat → Bool) : List Nat → Run → (Run × Bool) × List Moment
  | [], r => ((r, false), [])
  | i :: rest, r =>
    let r := r.observe (raised rest.length)
    let looked : Moment := ⟨r, .look r.isCancelled⟩
    if r.isCancelled then ((r, true), [looked])
    else if r.statusOf i = .failed then
      let (ending, moments) := sweepTraced raised rest r
      (ending, looked :: moments)
    else
      let (r', ended) := (r.setStatus i .running).executeTraced i
      let (ending, moments) := sweepTraced raised rest r'
      (ending, looked :: ⟨r, .mark i⟩ :: (ended ++ moments))

/-- `finishJob` with its step. -/
def finishJobTraced (r : Run) (job : Job) : Run × List Moment :=
  match job.result with
  | none =>
    let (r, result) := r.compute job.node job.inputs
    r.finishTraced job.node result
  | some result => r.finishTraced job.node result

/-- `submit` with the step that ends the node, if it ends at once. -/
def submitTraced (copyInputs : Bool) (r : Run) (jobs : List Job) (i : Nat) : (Run × List Job) × List Moment :=
  if !copyInputs then ((r, jobs ++ [⟨i, none, none⟩]), [])
  else
    match r.graph.node? i with
    | none => ((r, jobs), [])
    | some n =>
      match n.kind with
      | .marketData _ =>
        let (r, ended) := r.executeTraced i
        ((r, jobs), ended)
      | .function _ =>
        match n.gatherInputs r.cache with
        | .ok inputs => ((r, jobs ++ [⟨i, some inputs, none⟩]), [])
        | .error reason => ((r.fail i reason, jobs), [⟨r, .fail i reason⟩])

/-- `submitReady` with its steps. -/
def submitReadyTraced (copyInputs : Bool) (meanwhile : Nat → List Nat) :
    (fuel : Nat) → Run → List Job → (Run × List Job) × List Moment
  | 0, r, jobs => ((r, jobs), [])
  | fuel + 1, r, jobs =>
    match r.nextReady with
    | none => ((r, jobs), [⟨r, .take⟩])
    | some (i, r') =>
      let (submitted, ended) := submitTraced copyInputs r' jobs i
      let (r'', jobs) := workOn copyInputs (meanwhile fuel) submitted.1 submitted.2
      let (queued, moments) := submitReadyTraced copyInputs meanwhile fuel r'' jobs
      (queued, ⟨r, .take⟩ :: (ended ++ moments))

/-- `rounds` with its steps. -/
def roundsTraced (copyInputs : Bool) (x : Interleaving) :
    (fuel : Nat) → Run → List Job → (Run × Bool) × List Moment
  | 0, r, _ => ((r, r.isCancelled), [⟨r, .look r.isCancelled⟩])
  | fuel + 1, r, jobs =>
    let r := r.observe (x.raised fuel)
    let cancelled := r.isCancelled
    let looked : Moment := ⟨r, .look cancelled⟩
    let ((r, jobs), queueing) := if cancelled then ((r, jobs), [])
      else submitReadyTraced copyInputs (x.meanwhile fuel) (r.graph.size + 1) r jobs
    let (r, jobs) := workOn copyInputs (x.early fuel) r jobs
    let next := x.ends fuel % jobs.length
    match jobs[next]? with
    | none => ((r, cancelled), looked :: queueing)
    | some job =>
      let (r, ended) := finishJobTraced r job
      let (ending, moments) := roundsTraced copyInputs x fuel r (jobs.eraseIdx next)
      (ending, looked :: (queueing ++ (ended ++ moments)))

/-- `drive` with its steps. -/
def driveTraced (e : Executor) (x : Interleaving) (g : Graph) (s : Snapshot) (c : Control) :
    (Run × Bool) × List Moment :=
  let r := Run.start g s c
  match e with
  | .singleThreaded => sweepTraced x.raised g.order r
  | .nodeParallel => roundsTraced false x (g.size + 1) r []
  | .jobDispatch => roundsTraced true x (g.size + 1) r []

theorem sweepTraced_fst (raised : Nat → Bool) (rest : List Nat) (r : Run) :
    (sweepTraced raised rest r).1 = sweep raised rest r := by
  induction rest generalizing r with
  | nil => rfl
  | cons i rest ih =>
    rw [sweepTraced, sweep]
    split
    · rfl
    split
    · exact ih _
    · rw [← executeTraced_fst]
      exact ih _

theorem finishJobTraced_fst (r : Run) (job : Job) : (finishJobTraced r job).1 = finishJob r job := by
  unfold finishJobTraced finishJob
  cases job.result with
  | none => exact finishTraced_fst ..
  | some result => exact finishTraced_fst ..

theorem submitTraced_fst (copyInputs : Bool) (r : Run) (jobs : List Job) (i : Nat) :
    (submitTraced copyInputs r jobs i).1 = submit copyInputs r jobs i := by
  unfold submitTraced submit
  split
  · rfl
  cases r.graph.node? i with
  | none => rfl
  | some n =>
    dsimp only
    cases n.kind with
    | marketData key => exact congrArg (·, jobs) (executeTraced_fst r i)
    | function f =>
      dsimp only
      cases n.gatherInputs r.cache with
      | error reason => rfl
      | ok inputs => rfl

theorem submitReadyTraced_fst (copyInputs : Bool) (meanwhile : Nat → List Nat) (fuel : Nat) (r : Run)
    (jobs : List Job) :
    (submitReadyTraced copyInputs meanwhile fuel r jobs).1 = submitReady copyInputs meanwhile fuel r jobs := by
  induction fuel generalizing r jobs with
  | zero => rfl
  | succ fuel ih =>
    cases hnext : r.nextReady with
    | none => simp only [submitReadyTraced, submitReady, hnext]
    | some next =>
      simp only [submitReadyTraced, submitReady, hnext, ← submitTraced_fst]
      exact ih ..

theorem roundsTraced_fst (copyInputs : Bool) (x : Interleaving) (fuel : Nat) (r : Run) (jobs : List Job) :
    (roundsTraced copyInputs x fuel r jobs).1 = rounds copyInputs x fuel r jobs := by
  induction fuel generalizing r jobs with
  | zero => rfl
  | succ fuel ih =>
    rw [roundsTraced, rounds]
    generalize r.observe (x.raised fuel) = r₁
    have hqueued : (if r₁.isCancelled then (r₁, jobs)
        else submitReady copyInputs (x.meanwhile fuel) (r₁.graph.size + 1) r₁ jobs) =
        (if r₁.isCancelled then ((r₁, jobs), [])
          else submitReadyTraced copyInputs (x.meanwhile fuel) (r₁.graph.size + 1) r₁ jobs).1 := by
      split
      · rfl
      · exact (submitReadyTraced_fst ..).symm
    simp only [hqueued]
    split
    · next hnone => simp only [hnone]
    · next job hjob =>
      simp only [hjob, ← finishJobTraced_fst]
      exact ih ..

/-- Writing the steps down changes nothing about a run. -/
theorem driveTraced_fst (e : Executor) (x : Interleaving) (g : Graph) (s : Snapshot) (c : Control) :
    (e.driveTraced x g s c).1 = e.drive x g s c := by
  cases e with
  | singleThreaded => exact sweepTraced_fst ..
  | nodeParallel => exact roundsTraced_fst ..
  | jobDispatch => exact roundsTraced_fst ..

/-! ## What the loops tell -/

@[simp] theorem eventsOf_finishJobTraced (r : Run) (job : Job) : eventsOf (finishJobTraced r job).2 = [] := by
  unfold finishJobTraced
  cases job.result with
  | none => exact eventsOf_finishTraced ..
  | some result => exact eventsOf_finishTraced ..

@[simp] theorem eventsOf_submitTraced (copyInputs : Bool) (r : Run) (jobs : List Job) (i : Nat) :
    eventsOf (submitTraced copyInputs r jobs i).2 = [] := by
  unfold submitTraced
  split
  · rfl
  cases r.graph.node? i with
  | none => rfl
  | some n =>
    dsimp only
    cases n.kind with
    | marketData key => exact eventsOf_executeTraced r i
    | function f =>
      dsimp only
      cases n.gatherInputs r.cache with
      | error reason => rfl
      | ok inputs => rfl

/-- Queueing starts nodes, and looks at nothing. -/
theorem eventsOf_submitReadyTraced (copyInputs : Bool) (meanwhile : Nat → List Nat) (fuel : Nat) (r : Run)
    (jobs : List Job) :
    ∃ nodes : List Nat, eventsOf (submitReadyTraced copyInputs meanwhile fuel r jobs).2 = nodes.map .dispatched := by
  induction fuel generalizing r jobs with
  | zero => exact ⟨[], rfl⟩
  | succ fuel ih =>
    cases hnext : r.nextReady with
    | none => exact ⟨[], by simp [submitReadyTraced, hnext, eventsOf, Moment.event?]⟩
    | some next =>
      obtain ⟨i, r'⟩ := next
      simp only [submitReadyTraced, hnext]
      obtain ⟨nodes, hnodes⟩ := ih (workOn copyInputs (meanwhile fuel) (submitTraced copyInputs r' jobs i).1.1
        (submitTraced copyInputs r' jobs i).1.2).1 (workOn copyInputs (meanwhile fuel)
          (submitTraced copyInputs r' jobs i).1.1 (submitTraced copyInputs r' jobs i).1.2).2
      have hstart : (⟨r, .take⟩ : Moment).event? = some (.dispatched i) := by simp [Moment.event?, hnext]
      refine ⟨i :: nodes, ?_⟩
      rw [eventsOf, List.filterMap_cons_some hstart, ← eventsOf, eventsOf_append, eventsOf_submitTraced, hnodes]
      rfl

/-- One node after the other, nodes fail by themselves in their order. -/
theorem failuresOf_sweepTraced (raised : Nat → Bool) (rest : List Nat) (r : Run) :
    (failuresOf (sweepTraced raised rest r).2).Sublist rest := by
  induction rest generalizing r with
  | nil => exact List.Sublist.refl []
  | cons i rest ih =>
    rw [sweepTraced]
    split
    · exact List.nil_sublist _
    split
    · exact (ih _).cons i
    · have hboth := (failuresOf_executeTraced ((r.observe (raised rest.length)).setStatus i .running) i).append
        (ih (((r.observe (raised rest.length)).setStatus i .running).executeTraced i).1)
      rwa [← failuresOf_append] at hboth

/-- What the looks of a run come to: nothing is started after one that has found that the run is to stop, and there is
such a one just if the run reports it. -/
structure Looks (cancelled : Bool) (moments : List Moment) : Prop where
  stops : StopsStarting (eventsOf moments)
  seen : cancelled = true ↔ .looked true ∈ eventsOf moments

/-- Going through nodes stops at the first look that finds the run is to stop. -/
theorem sweep_looks (raised : Nat → Bool) (rest : List Nat) (r : Run) :
    Looks (sweepTraced raised rest r).1.2 (sweepTraced raised rest r).2 := by
  induction rest generalizing r with
  | nil => exact ⟨List.Pairwise.nil, by simp [sweepTraced]⟩
  | cons i rest ih =>
    rw [sweepTraced]
    generalize r.observe (raised rest.length) = r₁
    dsimp only
    split
    · next hc => exact ⟨by rw [hc]; exact List.pairwise_singleton .., by simp [hc]⟩
    next hc =>
    rw [Bool.eq_false_iff.2 hc]
    split
    · obtain ⟨hstops, hseen⟩ := ih r₁
      exact ⟨stopsStarting_looked hstops nofun, by simpa using hseen⟩
    · obtain ⟨hstops, hseen⟩ := ih ((r₁.setStatus i .running).executeTraced i).1
      refine ⟨?_, by simpa using hseen⟩
      rw [eventsOf_look, eventsOf_mark, eventsOf_append, eventsOf_executeTraced, List.nil_append]
      exact stopsStarting_looked (@stopsStarting_dispatched [i] _ hstops) nofun

/-! ## Every step is lawful -/

section
variable {g : Graph} {s : Snapshot} {c : Control} {raised : Nat → Bool} {r : Run}

theorem sweep_traces (hg : g.Runnable) {before rest : List Nat} (horder : g.order = before ++ rest)
    (h : Coherent g s c raised r) (hswept : Swept r before) :
    Traces g s r (sweepTraced raised rest r).2 (sweep raised rest r).1 := by
  induction rest generalizing before r with
  | nil => exact (SameNodes.refl r).traces
  | cons i rest ih =>
    have hnext : g.order = (before ++ [i]) ++ rest := by rw [horder, List.append_cons]
    have hobserved : Traces g s r [] (r.observe (raised rest.length)) := (sameNodes_observe ..).traces
    replace h := h.observe rest.length
    replace hswept := hswept.observe (raised rest.length)
    rw [sweep, sweepTraced]
    generalize r.observe (raised rest.length) = r₁ at h hswept hobserved
    have hlooked := hobserved.trans h.toFaithful.look_traces
    split
    · exact hlooked
    split
    · next hfailed => exact hlooked.trans (ih hnext h (hswept.skip hfailed))
    · next hfailed =>
      obtain ⟨hwaits, hbegun, hst, huntouched⟩ := hswept.begin hg horder h hfailed
      obtain ⟨hcoherent, hend, -⟩ := hbegun.execute hg hst.statusOf_self huntouched
      have hnode : i < g.size := hbegun.lt_size (by simp [hst.statusOf_self])
      have hmark := (Step.Lawful.mark hnode hwaits).traces h.toFaithful hbegun.toFaithful
      have hexecute := hbegun.execute_traces hg hst.statusOf_self huntouched
      have hrest := ih hnext hcoherent (hswept.execute hst hend)
      rw [← executeTraced_fst] at hexecute hrest ⊢
      exact hlooked.trans (hmark.trans (hexecute.trans hrest))

/-- Working on nodes in flight leaves the nodes as they are. -/
theorem sameNodes_workOn (copyInputs : Bool) (ks : List Nat) (r : Run) (jobs : List Job) :
    SameNodes r (workOn copyInputs ks r jobs).1 := by
  have hwork : ∀ (r : Run) (job : Job), SameNodes r (work copyInputs r job).1 := by
    intro r job
    unfold work
    split
    · obtain ⟨call, hcall⟩ : ∃ call, (r.compute job.node job.inputs).1 = r.note call := by
        obtain ⟨call, -, h⟩ := r.compute_eq_note job.node job.inputs
        exact ⟨call, h⟩
      rw [hcall]
      exact ⟨rfl, rfl, rfl, rfl, rfl⟩
    · split
      · exact ⟨rfl, rfl, rfl, rfl, rfl⟩
      · unfold Run.write
        split
        · exact ⟨rfl, rfl, rfl, rfl, rfl⟩
        · split <;> exact ⟨rfl, rfl, rfl, rfl, rfl⟩
  induction ks generalizing r jobs with
  | nil => exact ⟨rfl, rfl, rfl, rfl, rfl⟩
  | cons k ks ih =>
    unfold workOn
    split
    · exact ih r jobs
    · next job hjob =>
      have hfirst := hwork r job
      have hrest := ih (work copyInputs r job).1
        (jobs.set k { job with result := some (work copyInputs r job).2 })
      exact ⟨hrest.graph.trans hfirst.graph, hrest.status.trans hfirst.status, hrest.pending.trans hfirst.pending,
        hrest.ready.trans hfirst.ready, hrest.failures.trans hfirst.failures⟩

theorem finishJob_traces (hg : g.Runnable) (h : Coherent g s c raised r) {job : Job}
    (hi : r.statusOf job.node = .running) (hjob : JobValid g s r job) :
    Traces g s r (finishJobTraced r job).2 (finishJob r job) := by
  unfold finishJob finishJobTraced
  cases hresult : job.result with
  | none => exact h.compute_finish_traces hg hi (hjob.todo hresult) hjob.inputs rfl
  | some result => exact h.finish_traces hg hi (hjob.done result hresult)

theorem submit_traces (hg : g.Runnable) (copyInputs : Bool) (h : Coherent g s c raised r) {jobs : List Job}
    {i : Nat} (hjobs : InFlight g s r (⟨i, none, none⟩ :: jobs)) :
    Traces g s r (submitTraced copyInputs r jobs i).2 (submit copyInputs r jobs i).1 := by
  have hi : r.statusOf i = .running := (hjobs.running i).2 (List.mem_cons_self ..)
  have huntouched : Untouched g r i := (hjobs.valid _ (List.mem_cons_self ..)).todo rfl
  obtain ⟨n, hn⟩ := h.exists_node (i := i) (by simp [hi])
  unfold submit submitTraced
  split
  · exact (SameNodes.refl r).traces
  rw [h.graph, hn]
  dsimp only
  cases n.kind with
  | marketData key => exact h.execute_traces hg hi huntouched
  | function f =>
    -- What a running node waits for is cached, so its inputs are there to be copied.
    rw [h.toFaithful.gatherInputs hg hi hn]
    exact (SameNodes.refl r).traces

theorem submitReady_traces (hg : g.Runnable) (copyInputs : Bool) (meanwhile : Nat → List Nat) (fuel : Nat)
    (h : Coherent g s c raised r) {jobs : List Job} (hjobs : InFlight g s r jobs) :
    Traces g s r (submitReadyTraced copyInputs meanwhile fuel r jobs).2
      (submitReady copyInputs meanwhile fuel r jobs).1 := by
  induction fuel generalizing r jobs with
  | zero => exact (SameNodes.refl r).traces
  | succ fuel ih =>
    have htake : ∀ r₁, Step.take.apply r = r₁ → Faithful g s r₁ → Traces g s r [⟨r, .take⟩] r₁ := by
      rintro _ rfl h₁
      exact Step.Lawful.take.traces h.toFaithful h₁
    cases hnext : r.nextReady with
    | none =>
      simp only [submitReady, submitReadyTraced, hnext]
      exact htake r (by simp [Step.apply, hnext]) h.toFaithful
    | some next =>
      obtain ⟨i, r₁⟩ := next
      simp only [submitReady, submitReadyTraced, hnext, submitTraced_fst]
      obtain ⟨hwaits, -, h₁, hst, hkeeps, huntouched⟩ := nextReady_eq_some hg h hnext
      have hjobs₁ := hjobs.begin hwaits hst hkeeps huntouched
      have hsubmit := submit_traces hg copyInputs h₁ hjobs₁
      obtain ⟨⟨r₂, jobs₂⟩, hsubmitted⟩ : ∃ submitted, submit copyInputs r₁ jobs i = submitted := ⟨_, rfl⟩
      obtain ⟨h₂, hjobs₂, -⟩ := submit_spec hg copyInputs h₁ hjobs₁ hsubmitted
      have hwork := sameNodes_workOn copyInputs (meanwhile fuel) r₂ jobs₂
      obtain ⟨⟨r₃, jobs₃⟩, hworked⟩ : ∃ worked, workOn copyInputs (meanwhile fuel) r₂ jobs₂ = worked := ⟨_, rfl⟩
      obtain ⟨h₃, hjobs₃, -⟩ := workOn_spec hg copyInputs h₂ hjobs₂ hworked
      have hrest := ih h₃ hjobs₃
      rw [hsubmitted] at hsubmit
      rw [hworked] at hwork
      rw [hsubmitted, hworked]
      have hstart := htake r₁ (by simp [Step.apply, hnext]) h₁.toFaithful
      exact hstart.trans (hsubmit.trans (hwork.traces.trans hrest))

/-- A round queues what is ready, unless it has found that the run is to stop. -/
theorem queue_traces (hg : g.Runnable) (copyInputs : Bool) (meanwhile : Nat → List Nat)
    (h : Coherent g s c raised r) {jobs : List Job} (hjobs : InFlight g s r jobs) {r' : Run} {jobs' : List Job}
    {moments : List Moment} (heq : (if r.isCancelled then ((r, jobs), [])
      else submitReadyTraced copyInputs meanwhile (r.graph.size + 1) r jobs) = ((r', jobs'), moments)) :
    Coherent g s c raised r' ∧ InFlight g s r' jobs' ∧ Later r r' ∧ Traces g s r moments r' ∧
      ∃ nodes : List Nat, eventsOf moments = nodes.map .dispatched ∧ (r.isCancelled = true → nodes = []) := by
  split at heq
  · cases heq
    exact ⟨h, hjobs, .refl r, (SameNodes.refl r).traces, [], rfl, fun _ => rfl⟩
  · next hc =>
    have hqueued : (if r.isCancelled then (r, jobs)
        else submitReady copyInputs meanwhile (r.graph.size + 1) r jobs) = (r', jobs') := by
      rw [if_neg hc, ← submitReadyTraced_fst, heq]
    obtain ⟨h', hjobs', hlater, -⟩ := queue_spec hg copyInputs meanwhile h hjobs hqueued
    have htraces := submitReady_traces hg copyInputs meanwhile (r.graph.size + 1) h hjobs
    obtain ⟨nodes, hnodes⟩ := eventsOf_submitReadyTraced copyInputs meanwhile (r.graph.size + 1) r jobs
    rw [← submitReadyTraced_fst, heq] at htraces
    rw [heq] at hnodes
    exact ⟨h', hjobs', hlater, htraces, nodes, hnodes, fun hc' => absurd hc' hc⟩

/-- The rounds are made of lawful steps, whatever workers do when, whichever node in flight ends next, and whenever the
run is cancelled. They start nothing once the run is to stop. -/
theorem rounds_traces (hg : g.Runnable) (copyInputs : Bool) {x : Interleaving} (fuel : Nat)
    (h : Coherent g s c x.raised r) {jobs : List Job} (hjobs : InFlight g s r jobs) :
    Traces g s r (roundsTraced copyInputs x fuel r jobs).2 (roundsTraced copyInputs x fuel r jobs).1.1 ∧
      Looks (roundsTraced copyInputs x fuel r jobs).1.2 (roundsTraced copyInputs x fuel r jobs).2 ∧
      (r.isCancelled = true → (roundsTraced copyInputs x fuel r jobs).1.2 = true ∧
        dispatches (eventsOf (roundsTraced copyInputs x fuel r jobs).2) = []) := by
  induction fuel generalizing r jobs with
  | zero =>
    refine ⟨h.toFaithful.look_traces, ⟨List.pairwise_singleton .., ?_⟩, fun hc => ⟨hc, rfl⟩⟩
    simp [roundsTraced]
  | succ fuel ih =>
    rw [roundsTraced]
    have hobserved : Traces g s r [] (r.observe (x.raised fuel)) := (sameNodes_observe ..).traces
    have hstays := (later_observe r (x.raised fuel)).cancelled
    replace h := h.observe fuel
    replace hjobs := hjobs.observe (x.raised fuel)
    generalize r.observe (x.raised fuel) = r₁ at h hjobs hobserved hstays
    have hlooked := hobserved.trans h.toFaithful.look_traces
    obtain ⟨⟨⟨r₂, jobs₂⟩, queueing⟩, hqueued⟩ : ∃ queued, (if r₁.isCancelled then ((r₁, jobs), [])
      else submitReadyTraced copyInputs (x.meanwhile fuel) (r₁.graph.size + 1) r₁ jobs) = queued := ⟨_, rfl⟩
    obtain ⟨h₂, hjobs₂, hlater₂, hqueue, nodes, hnodes, hnone⟩ :=
      queue_traces hg copyInputs (x.meanwhile fuel) h hjobs hqueued
    have hwork := sameNodes_workOn copyInputs (x.early fuel) r₂ jobs₂
    obtain ⟨⟨r₃, jobs₃⟩, hworked⟩ : ∃ worked, workOn copyInputs (x.early fuel) r₂ jobs₂ = worked := ⟨_, rfl⟩
    obtain ⟨h₃, hjobs₃, hlater₃, -⟩ := workOn_spec hg copyInputs h₂ hjobs₂ hworked
    rw [hworked] at hwork
    have hround : Traces g s r (⟨r₁, .look r₁.isCancelled⟩ :: queueing) r₃ := by
      have hboth := (hlooked.trans hqueue).trans hwork.traces
      rwa [List.append_nil] at hboth
    simp only [hqueued, hworked]
    split
    · refine ⟨hround, ⟨?_, ?_⟩, fun hc => ⟨hstays hc, ?_⟩⟩
      · rw [eventsOf_look, hnodes]
        have hstops : StopsStarting (nodes.map .dispatched ++ []) := stopsStarting_dispatched List.Pairwise.nil
        rw [List.append_nil] at hstops
        exact stopsStarting_looked hstops (by simpa using hnone)
      · simp [hnodes]
      · simpa [hnodes] using hnone (hstays hc)
    · next job hjob =>
      obtain ⟨hi, h₄, hjobs₄, -, hlater₄⟩ := endNext_spec hg h₃ hjobs₃ hjob
      have hend := finishJob_traces hg h₃ hi (hjobs₃.valid job (List.mem_of_getElem? hjob))
      obtain ⟨hrest, ⟨hstops, hseen⟩, hquiet⟩ := ih h₄ hjobs₄
      rw [← finishJobTraced_fst] at hend hrest hstops hseen hquiet hlater₄
      generalize roundsTraced copyInputs x fuel (finishJobTraced r₃ job).1
        (jobs₃.eraseIdx (x.ends fuel % jobs₃.length)) = later at hrest hstops hseen hquiet
      obtain ⟨⟨r', cancelled⟩, moments⟩ := later
      -- A run that is to stop in this round still is in the next, so that the later rounds start nothing.
      have hstill : r₁.isCancelled = true → cancelled = true ∧ dispatches (eventsOf moments) = [] := fun hc =>
        hquiet (hlater₄.cancelled (hlater₃.cancelled (hlater₂.cancelled hc)))
      have hnothing : r₁.isCancelled = true → dispatches (nodes.map .dispatched ++ eventsOf moments) = [] := by
        intro hc
        rw [dispatches_append, dispatches_map, hnone hc, (hstill hc).2, List.append_nil]
      have hevents : eventsOf (⟨r₁, .look r₁.isCancelled⟩ :: (queueing ++ ((finishJobTraced r₃ job).2 ++ moments))) =
          .looked r₁.isCancelled :: (nodes.map .dispatched ++ eventsOf moments) := by
        simp [hnodes]
      refine ⟨hround.trans (hend.trans hrest), ⟨?_, ?_⟩, fun hc => ⟨(hstill (hstays hc)).1, ?_⟩⟩
      · rw [hevents]
        exact stopsStarting_looked (stopsStarting_dispatched hstops) hnothing
      · rw [hevents, List.mem_cons, List.mem_append, Event.looked.injEq, or_iff_right (looked_notMem_map true nodes),
          ← hseen]
        exact ⟨.inr, fun hc => hc.elim (fun hc => (hstill hc.symm).1) id⟩
      · rw [hevents, dispatches_looked]
        exact hnothing (hstays hc)

/-- Every run is made of lawful steps, in moments that agree with the meaning of the graph. -/
theorem drive_traces (hg : g.Runnable) (e : Executor) (x : Interleaving) (s : Snapshot) (c : Control) :
    Traces g s (start g s c) (e.driveTraced x g s c).2 (e.drive x g s c).1 := by
  have hstart := coherent_start hg s c x.raised
  have hjobs := inFlight_start g s c
  rw [← driveTraced_fst]
  cases e with
  | singleThreaded =>
    have htraces := sweep_traces hg (List.nil_append g.order).symm hstart (swept_start g s c)
    rwa [← sweepTraced_fst] at htraces
  | nodeParallel => exact (rounds_traces hg false (g.size + 1) hstart hjobs).1
  | jobDispatch => exact (rounds_traces hg true (g.size + 1) hstart hjobs).1

/-- Every run stops starting nodes once it has found that it is to stop, and reports that. -/
theorem drive_looks (hg : g.Runnable) (e : Executor) (x : Interleaving) (s : Snapshot) (c : Control) :
    Looks (e.drive x g s c).2 (e.driveTraced x g s c).2 := by
  have hstart := coherent_start hg s c x.raised
  have hjobs := inFlight_start g s c
  rw [← driveTraced_fst]
  cases e with
  | singleThreaded => exact sweep_looks ..
  | nodeParallel => exact (rounds_traces hg false (g.size + 1) hstart hjobs).2.1
  | jobDispatch => exact (rounds_traces hg true (g.size + 1) hstart hjobs).2.1

end

end Executor
end Valuation
