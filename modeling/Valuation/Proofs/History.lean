import Valuation.Proofs.Cycle
import Valuation.Proofs.Stepwise

/-!
# The history of a cycle

A call writes to a cycle several times: first its state, then what goes with it. `History` keeps the cycle as it was
before each write, so it also shows the states that a call only passes through, as executing passes from waiting to
having executed. From each moment to the next the state makes one of four moves, or none (`Lawful`). A call that is
refused has written nothing, not even one that begins a cycle and then completes it, since what has begun can be
completed (`follows_execute`). In the two terminal states every call is refused but raising the flag, and the duration
no longer depends on the time at which one asks (`after_final`).
-/
namespace Valuation

/-- The moves that the state of a cycle makes. -/
inductive CycleState.Turns : CycleState → CycleState → Prop
  | begins : Turns .awaitingExecution .executing
  | failsWaiting : Turns .awaitingExecution .executionFailed
  | ends : Turns .executing .executed
  | fails : Turns .executing .executionFailed

theorem CycleState.canMoveTo_iff {s t : CycleState} : s.canMoveTo t = true ↔ s.Turns t := by
  constructor
  · intro h
    cases s <;> cases t <;> first | constructor | cases h
  · intro h
    cases h <;> rfl

namespace Cycle

/-- A cycle as it is, and as it was before each write to it, the latest first. -/
structure History where
  now : Cycle
  past : List Cycle := []

namespace History

def write (f : Cycle → Cycle) (h : History) : History := ⟨f h.now, h.now :: h.past⟩

/-- What the state does from one moment to the next. -/
def Passes (later earlier : Cycle) : Prop := later.state = earlier.state ∨ earlier.state.Turns later.state

/-- The state never does anything but what it may. -/
def Lawful (h : History) : Prop := (h.now :: h.past).IsChain Passes

theorem Lawful.write {h : History} (hlawful : h.Lawful) {f : Cycle → Cycle} (hf : Passes (f h.now) h.now) :
    (h.write f).Lawful :=
  List.isChain_cons_cons.2 ⟨hf, hlawful⟩

end History

/-! ## Calls, write by write -/

def transitionSteps (next : CycleState) : Stepwise History Unit := do
  let c := (← get).now
  if ¬c.state.canMoveTo next then throw (.invalidStateTransition c.state.display next.display)
  modify (.write fun c => { c with state := next })

def beginSteps (now : Instant) (s : Snapshot) (g : Graph) : Stepwise History Unit := do
  transitionSteps .executing
  modify (.write fun c => { c with startedAt := some now, snapshot := some s, graph := some g })

/-- What completing records next to the state. -/
def recordOutcome (now : Instant) (g : Graph) (o : ExecutionOutcome) (c : Cycle) : Cycle :=
  let c := { c with
    finishedAt := c.startedAt.map fun _ => now
    statistics := some o.statistics
    cache := some o.cache }
  if o.cancelled then { c with failure := some .cancelled }
  else { c with
    result := some (ResultModel.build c.id c.options.valuationTime g o.cache o.failures c.resultOptions) }

def completeSteps (now : Instant) (o : ExecutionOutcome) : Stepwise History Unit := do
  let c := (← get).now
  match c.graph with
  | none => throw (.internal ("cycle " ++ c.id.text ++ " has no graph"))
  | some g => do
    transitionSteps (if o.cancelled then .executionFailed else .executed)
    modify (.write (recordOutcome now g o))

def failSteps (now : Instant) (failure : CycleFailure) : Stepwise History Unit := do
  transitionSteps .executionFailed
  modify (.write fun c => { c with finishedAt := c.startedAt.map fun _ => now, failure := some failure })

def cancelSteps : Stepwise History Unit := do
  modify (.write raise)
  if (← get).now.state = .awaitingExecution then
    modify (.write fun c => { c with state := .executionFailed })
    modify (.write fun c => { c with failure := some .cancelled })

/-- Runs the graph, in which the flag may be raised, and completes. -/
def finishSteps (e : Executor) (x : Interleaving) (now : Instant) (s : Snapshot) (g : Graph) :
    Stepwise History Unit := do
  let o := e.runUnder x g s (← get).now.control
  if o.cancelRequested then modify (.write raise)
  completeSteps now o

def executeSteps (e : Executor) (x : Interleaving) (now : Instant) (s : Snapshot) (g : Graph) :
    Stepwise History Unit := do
  if (← get).now.control.cancelled then failSteps now .cancelled
  else
    beginSteps now s g
    finishSteps e x now s g

/-- A call, with its checks and writes in their order. -/
def Call.steps : Call → Stepwise History Unit
  | .begin now s g => beginSteps now s g
  | .complete now o => completeSteps now o
  | .fail now failure => failSteps now failure
  | .cancel => cancelSteps
  | .raise => modify (.write Cycle.raise)
  | .execute e x now s g => executeSteps e x now s g

/-- The history after some calls. -/
def History.after (h : History) (calls : List Call) : History :=
  calls.foldl (fun h k => (k.steps.outcome h).2) h

/-! ## Write by write a call comes to the same -/

/-- Checks and writes are accepted, leave a cycle, and do to the state only what may be done. -/
def Reaches (x : Stepwise History Unit) (h : History) (c : Cycle) : Prop :=
  ∃ past, x.outcome h = (.ok (), ⟨c, past⟩) ∧ (h.Lawful → History.Lawful ⟨c, past⟩)

/-- Checks and writes come to what a move comes to. Where the move is refused, nothing has been written. -/
structure Follows (x : Stepwise History Unit) (h : History) (m : Except EngineError Cycle) : Prop where
  accepted : ∀ c, m = .ok c → Reaches x h c
  refused : ∀ e, m = .error e → x.outcome h = (.error e, h)

section
variable {x y : Stepwise History Unit} {h : History} {c : Cycle} {m : Except EngineError Cycle}

theorem reaches_write (f : Cycle → Cycle) (hf : History.Passes (f h.now) h.now) :
    Reaches (modify (.write f)) h (f h.now) :=
  ⟨h.now :: h.past, rfl, fun hlawful => hlawful.write hf⟩

theorem Reaches.bind {c' : Cycle} (hx : Reaches x h c) (hy : ∀ past, Reaches y ⟨c, past⟩ c') :
    Reaches (do x; y) h c' := by
  obtain ⟨past, hout, hlawful⟩ := hx
  obtain ⟨past', hout', hlawful'⟩ := hy past
  exact ⟨past', by simp [hout, hout'], fun h => hlawful' (hlawful h)⟩

theorem follows_ok (hx : Reaches x h c) : Follows x h (.ok c) where
  accepted c' hc := by
    cases hc
    exact hx
  refused e he := nomatch he

theorem follows_error {e : EngineError} (hx : x.outcome h = (.error e, h)) : Follows x h (.error e) where
  accepted c hc := nomatch hc
  refused e' he := by
    cases he
    exact hx

theorem Follows.congr (hy : Follows y h m) (hout : x.outcome h = y.outcome h) : Follows x h m where
  accepted c hc := by
    rw [Reaches, hout]
    exact hy.accepted c hc
  refused e he := by
    rw [hout]
    exact hy.refused e he

/-- What follows an accepted move must not be refused, since something has been written by then. -/
theorem Follows.bind {n : Cycle → Except EngineError Cycle} (hx : Follows x h m)
    (hy : ∀ c, m = .ok c → ∃ c', n c = .ok c' ∧ ∀ past, Reaches y ⟨c, past⟩ c') : Follows (do x; y) h (m >>= n) := by
  cases hm : m with
  | error e => exact follows_error (by simp [hx.refused e hm])
  | ok c =>
    obtain ⟨c', hn, hreaches⟩ := hy c hm
    change Follows _ h (n c)
    rw [hn]
    exact follows_ok ((hx.accepted c hm).bind hreaches)

/-- A write next to the state may follow. -/
theorem Follows.write {g : Cycle → Cycle} (hx : Follows x h m) (hg : ∀ c, (g c).state = c.state) :
    Follows (do x; modify (.write g)) h (m.map g) := by
  have hbind : m.map g = m >>= fun c => .ok (g c) := by cases m <;> rfl
  rw [hbind]
  exact hx.bind fun c _ => ⟨g c, rfl, fun _ => reaches_write g (.inl (hg c))⟩

end

section
variable (h : History) (now : Instant) (s : Snapshot) (g : Graph)

theorem follows_transition (next : CycleState) : Follows (transitionSteps next) h (h.now.transition next) := by
  unfold transition
  split
  · next hmove =>
    obtain ⟨past, hout, hlawful⟩ := reaches_write (h := h) (fun c => { c with state := next })
      (.inr (CycleState.canMoveTo_iff.1 hmove))
    exact follows_ok ⟨past, by simpa [transitionSteps, hmove] using hout, hlawful⟩
  · next hmove => exact follows_error (by simp [transitionSteps, hmove])

theorem follows_begin : Follows (beginSteps now s g) h (h.now.begin now s g) :=
  (follows_transition h .executing).write fun _ => rfl

theorem follows_fail (failure : CycleFailure) : Follows (failSteps now failure) h (h.now.fail now failure) :=
  (follows_transition h .executionFailed).write fun _ => rfl

theorem state_recordOutcome (o : ExecutionOutcome) (c : Cycle) : (recordOutcome now g o c).state = c.state := by
  unfold recordOutcome
  split <;> rfl

theorem complete_eq {c : Cycle} {g : Graph} (hg : c.graph = some g) (o : ExecutionOutcome) :
    c.complete now o =
      (c.transition (if o.cancelled then .executionFailed else .executed)).map (recordOutcome now g o) := by
  unfold complete recordOutcome
  rw [hg]
  dsimp only
  cases c.transition (if o.cancelled then .executionFailed else .executed) with
  | error e => rfl
  | ok c' => cases o.cancelled <;> rfl

theorem follows_complete (o : ExecutionOutcome) : Follows (completeSteps now o) h (h.now.complete now o) := by
  cases hg : h.now.graph with
  | none =>
    rw [complete, hg]
    exact follows_error (by simp [completeSteps, hg])
  | some g =>
    rw [complete_eq now hg]
    refine ((follows_transition h _).write (state_recordOutcome now g o)).congr ?_
    simp [completeSteps, hg]

theorem reaches_raise : Reaches (modify (.write raise)) h h.now.raise := reaches_write raise (.inl rfl)

theorem reaches_cancel : Reaches cancelSteps h h.now.cancel := by
  refine (reaches_raise h).bind fun past => ?_
  by_cases hstate : h.now.raise.state = .awaitingExecution
  · have hcancel : h.now.cancel = { h.now.raise with state := .executionFailed, failure := some .cancelled } :=
      if_pos hstate
    let failed : Cycle := { h.now.raise with state := .executionFailed }
    have hfail : Reaches (modify (.write fun c => { c with state := .executionFailed })) ⟨h.now.raise, past⟩ failed :=
      reaches_write _ (.inr (hstate ▸ .failsWaiting))
    have hreason : ∀ past, Reaches (modify (.write fun c => { c with failure := some .cancelled })) ⟨failed, past⟩
        h.now.cancel := by
      intro past
      rw [hcancel]
      exact reaches_write _ (.inl rfl)
    simpa [Reaches, hstate] using hfail.bind hreason
  · have hcancel : h.now.cancel = h.now.raise := if_neg hstate
    exact ⟨past, by simp [hstate, hcancel], fun hlawful => by rwa [hcancel]⟩

theorem begun_of_begin {c c' : Cycle} (hbegin : c.begin now s g = .ok c') :
    c'.state = .executing ∧ c'.graph = some g := by
  obtain ⟨-, rfl⟩ := begin_eq_ok hbegin
  exact ⟨rfl, rfl⟩

/-- What has begun can be completed, with the flag raised meanwhile or not. -/
theorem reaches_finish {c : Cycle} {g : Graph} (e : Executor) (x : Interleaving) (hstate : c.state = .executing)
    (hg : c.graph = some g) :
    ∃ c', (c.run e s g x).2.complete now (c.run e s g x).1 = .ok c' ∧
      ∀ past, Reaches (finishSteps e x now s g) ⟨c, past⟩ c' := by
  have hrun : c.run e s g x =
      (e.runUnder x g s c.control, if (e.runUnder x g s c.control).cancelRequested then c.raise else c) := rfl
  rw [hrun]
  generalize hrequest : e.runUnder x g s c.control = o
  by_cases hraised : o.cancelRequested = true
  · obtain ⟨c', hcomplete, -⟩ := complete_of_executing (c := c.raise) now hstate hg o
    refine ⟨c', by simpa [hraised] using hcomplete, fun past => ?_⟩
    have hboth := (reaches_raise ⟨c, past⟩).bind fun past =>
      (follows_complete ⟨c.raise, past⟩ now o).accepted c' hcomplete
    simpa [Reaches, finishSteps, hrequest, hraised] using hboth
  · obtain ⟨c', hcomplete, -⟩ := complete_of_executing now hstate hg o
    refine ⟨c', by simpa [hraised] using hcomplete, fun past => ?_⟩
    have hends := (follows_complete ⟨c, past⟩ now o).accepted c' hcomplete
    simpa [Reaches, finishSteps, hrequest, hraised] using hends

/-- Executing is failing or beginning, running and completing. -/
theorem map_execute (c : Cycle) (e : Executor) (x : Interleaving) :
    (c.execute e now s g x).map (·.1) =
      if c.control.cancelled then c.fail now .cancelled
      else c.begin now s g >>= fun c => (c.run e s g x).2.complete now (c.run e s g x).1 := by
  have hfst : ∀ (y : Except EngineError Cycle) (journal : List Invocation),
      (y >>= fun c => pure (c, journal)).map (·.1) = y := by
    intro y journal
    cases y <;> rfl
  unfold execute
  split
  · exact hfst _ []
  · cases c.begin now s g with
    | error err => rfl
    | ok begun => exact hfst _ _

/-- Executing is refused before anything is written, or not at all. -/
theorem follows_execute (e : Executor) (x : Interleaving) :
    Follows (executeSteps e x now s g) h ((h.now.execute e now s g x).map (·.1)) := by
  rw [map_execute]
  by_cases hflag : h.now.control.cancelled = true
  · rw [if_pos hflag]
    exact (follows_fail h now .cancelled).congr (by simp [executeSteps, hflag])
  · rw [if_neg hflag]
    have hboth := (follows_begin h now s g).bind fun begun hbegin =>
      have ⟨hstate, hgraph⟩ := begun_of_begin now s g hbegin
      reaches_finish now s e x hstate hgraph
    exact hboth.congr (by simp [executeSteps, hflag])

end

theorem follows_steps (k : Call) (h : History) : Follows k.steps h (k.apply h.now) := by
  cases k with
  | begin now s g => exact follows_begin h now s g
  | complete now o => exact follows_complete h now o
  | fail now failure => exact follows_fail h now failure
  | cancel => exact follows_ok (reaches_cancel h)
  | raise => exact follows_ok (reaches_raise h)
  | execute e x now s g => exact follows_execute h now s g e x

/-- A call leaves the cycle that the moves lead to, and the state has done only what it may. -/
theorem outcome_steps (k : Call) (h : History) :
    ∃ past, (k.steps.outcome h).2 = ⟨h.now.call k, past⟩ ∧ (h.Lawful → History.Lawful ⟨h.now.call k, past⟩) := by
  cases happly : k.apply h.now with
  | ok c =>
    obtain ⟨past, hout, hlawful⟩ := (follows_steps k h).accepted c happly
    rw [call_of_ok happly, hout]
    exact ⟨past, rfl, hlawful⟩
  | error e =>
    rw [call_of_error happly, (follows_steps k h).refused e happly]
    exact ⟨h.past, rfl, fun hlawful => hlawful⟩

theorem History.after_eq (h : History) (calls : List Call) :
    ∃ past, h.after calls = ⟨h.now.after calls, past⟩ ∧ (h.Lawful → Lawful ⟨h.now.after calls, past⟩) := by
  induction calls generalizing h with
  | nil => exact ⟨h.past, rfl, fun hlawful => hlawful⟩
  | cons k calls ih =>
    obtain ⟨past, hcall, hlawful⟩ := outcome_steps k h
    obtain ⟨past', hafter, hlawful'⟩ := ih ⟨h.now.call k, past⟩
    refine ⟨past', ?_, fun h => hlawful' (hlawful h)⟩
    rw [History.after, List.foldl_cons, hcall]
    exact hafter

/-! ## The terminal states -/

section
variable {c c' : Cycle}

theorem accepted_of_isTerminal (h : c.state.isTerminal = true) {k : Call} (happly : k.apply c = .ok c') :
    (k = .cancel ∨ k = .raise) ∧ c' = c.raise := by
  have hwaiting : c.state ≠ .awaitingExecution := fun hstate => by simp [hstate, CycleState.isTerminal] at h
  have hexecuting : c.state ≠ .executing := fun hstate => by simp [hstate, CycleState.isTerminal] at h
  have hbegin : ∀ now s g c', c.begin now s g ≠ .ok c' := fun now s g c' hok => hwaiting (begin_eq_ok hok).1
  have hfail : ∀ now failure c', c.fail now failure ≠ .ok c' := fun now failure c' hok =>
    (fail_eq_ok hok).1.elim hwaiting hexecuting
  cases k with
  | begin now s g => exact absurd happly (hbegin now s g c')
  | complete now o =>
    obtain ⟨g, -, ⟨-, hstate, -⟩ | ⟨-, hstate, -⟩⟩ := complete_eq_ok happly
    · exact (hstate.elim hwaiting hexecuting).elim
    · exact absurd hstate hexecuting
  | fail now failure => exact absurd happly (hfail now failure c')
  | cancel =>
    cases happly
    exact ⟨.inl rfl, if_neg hwaiting⟩
  | raise =>
    cases happly
    exact ⟨.inr rfl, rfl⟩
  | execute e x now s g =>
    rw [Call.apply, map_execute] at happly
    split at happly
    · exact absurd happly (hfail now .cancelled c')
    · obtain ⟨begun, hbegun, -⟩ := bind_eq_ok.1 happly
      exact absurd hbegun (hbegin now s g begun)

/-- At its end a cycle refuses every call but those that raise the flag, which do nothing else. -/
theorem call_of_isTerminal (h : c.state.isTerminal = true) (k : Call) :
    c.call k = c ∨ (k = .cancel ∨ k = .raise) ∧ c.call k = c.raise := by
  cases happly : k.apply c with
  | error e => exact .inl (call_of_error happly)
  | ok c' =>
    obtain ⟨hk, rfl⟩ := accepted_of_isTerminal h happly
    exact .inr ⟨hk, call_of_ok happly⟩

/-- Whether an end has a time just if the start has one. -/
def Timed (c : Cycle) : Prop := c.state.isTerminal = true → c.finishedAt.isSome = c.startedAt.isSome

theorem Timed.duration?_eq (h : c.Timed) (hend : c.state.isTerminal = true) (now now' : Instant) :
    c.duration? now' = c.duration? now := by
  have hboth := h hend
  cases hstart : c.startedAt with
  | none => simp [duration?, hstart]
  | some start =>
    rw [hstart, Option.isSome_some, Option.isSome_iff_exists] at hboth
    obtain ⟨finish, hfinish⟩ := hboth
    simp [duration?, hfinish]

theorem timed_of_begin {now : Instant} {s : Snapshot} {g : Graph} (h : c.begin now s g = .ok c') : c'.Timed := by
  intro hend
  rw [(begun_of_begin now s g h).1] at hend
  cases hend

theorem timed_of_fail {now : Instant} {failure : CycleFailure} (h : c.fail now failure = .ok c') : c'.Timed := by
  obtain ⟨-, rfl⟩ := fail_eq_ok h
  exact fun _ => Option.isSome_map ..

theorem timed_of_complete {now : Instant} {o : ExecutionOutcome} (h : c.complete now o = .ok c') : c'.Timed := by
  obtain ⟨g, -, ⟨-, -, rfl⟩ | ⟨-, -, rfl⟩⟩ := complete_eq_ok h
  · exact fun _ => Option.isSome_map ..
  · exact fun _ => Option.isSome_map ..

/-- Only a cycle that is cancelled before it begins ends without a time, and it has none for its start either. -/
theorem Timed.cancel {begun stopped : Prop} (h : c.Timed) (hrecords : c.Records begun stopped) : c.cancel.Timed := by
  by_cases hstate : c.raise.state = .awaitingExecution
  · obtain ⟨hbegun, hfinish, -⟩ := hrecords.awaiting hstate
    have hstart : c.startedAt = none := by simpa using mt hrecords.startedAt.1 hbegun
    rw [Cycle.cancel, if_pos hstate]
    intro _
    simp [raise, hfinish, hstart]
  · rw [Cycle.cancel, if_neg hstate]
    exact h

theorem Timed.call {begun stopped : Prop} (h : c.Timed) (hrecords : c.Records begun stopped) (k : Call) :
    (c.call k).Timed := by
  cases happly : k.apply c with
  | error e => rwa [call_of_error happly]
  | ok c' =>
    rw [call_of_ok happly]
    cases k with
    | begin now s g => exact timed_of_begin happly
    | complete now o => exact timed_of_complete happly
    | fail now failure => exact timed_of_fail happly
    | cancel =>
      cases happly
      exact h.cancel hrecords
    | raise =>
      cases happly
      exact h
    | execute e x now s g =>
      rw [Call.apply, map_execute] at happly
      split at happly
      · exact timed_of_fail happly
      · obtain ⟨begun, -, hcomplete⟩ := bind_eq_ok.1 happly
        exact timed_of_complete hcomplete

theorem Timed.after {begun stopped : Prop} (h : c.Timed) (hrecords : c.Records begun stopped) (calls : List Call) :
    (c.after calls).Timed := by
  induction calls generalizing c begun stopped with
  | nil => exact h
  | cons k calls ih => exact ih (h.call hrecords k) (hrecords.call k)

end

/-- Whatever calls a new cycle has had: at its end a further call changes nothing but the flag, nor does the time that
passes change the duration. A call that is refused has written nothing. From write to write the state has only made the
moves that there are. -/
theorem after_final (id : CycleId) (process : ProcessId) (options : CycleOptions) (resultOptions : ResultOptions)
    (control : Control) (calls : List Call) :
    let new : Cycle := { id, process, options, resultOptions, control }
    let c := new.after calls
    (c.state.isTerminal = true → ∀ k, (c.call k = c ∨ (k = .cancel ∨ k = .raise) ∧ c.call k = c.raise) ∧
      ∀ now now', (c.call k).duration? now' = c.duration? now) ∧
    (∀ (k : Call) h, Follows k.steps h (k.apply h.now)) ∧
    ∃ past, History.after ⟨new, []⟩ calls = ⟨c, past⟩ ∧ History.Lawful ⟨c, past⟩ := by
  intro new c
  refine ⟨fun hend k => ⟨call_of_isTerminal hend k, fun now now' => ?_⟩, follows_steps, ?_⟩
  · have hduration : ∀ now, (c.call k).duration? now = c.duration? now := by
      intro now
      obtain hsame | ⟨-, hraised⟩ := call_of_isTerminal hend k
      · rw [hsame]
      · rw [hraised]
        rfl
    have htimed : c.Timed := Timed.after (c := new) nofun (Records.new id process options resultOptions control) calls
    rw [hduration now']
    exact htimed.duration?_eq hend now now'
  · obtain ⟨past, hafter, hlawful⟩ := History.after_eq ⟨new, []⟩ calls
    exact ⟨past, hafter, hlawful (List.IsChain.singleton new)⟩

end Cycle
end Valuation
