import Mathlib.Data.List.Induction
import Valuation.Cycle
import Valuation.Proofs.Result

/-!
# The life of a cycle

A cycle is changed by six calls, some of which make the moves of others: cancelling fails a cycle that waits, and
executing begins and completes it, or fails it if its flag is up. Whatever calls a new cycle has had, in any order,
accepted or refused, what it records goes with its state (`after_records`).
-/
namespace Valuation
namespace Cycle

/-! ## Moves that are not refused -/

section
variable {c : Cycle} (now : Instant)

theorem transition_of_canMoveTo {next : CycleState} (h : c.state.canMoveTo next = true) :
    c.transition next = .ok { c with state := next } :=
  if_pos h

theorem fail_of_waiting (h : c.state = .awaitingExecution) (failure : CycleFailure) :
    c.fail now failure = .ok { c with
      state := .executionFailed, finishedAt := c.startedAt.map fun _ => now, failure := some failure } := by
  rw [fail, transition_of_canMoveTo (by rw [h]; rfl)]
  rfl

theorem begin_of_waiting (h : c.state = .awaitingExecution) (s : Snapshot) (g : Graph) :
    c.begin now s g = .ok { c with
      state := .executing, startedAt := some now, snapshot := some s, graph := some g } := by
  rw [begin, transition_of_canMoveTo (by rw [h]; rfl)]
  rfl

/-- A run changes nothing of its cycle but the flag. -/
theorem run_eq (c : Cycle) (e : Executor) (s : Snapshot) (g : Graph) (x : Interleaving) :
    ∃ control, c.run e s g x = (e.runUnder x g s c.control, { c with control }) := by
  dsimp only [run]
  split
  · exact ⟨_, rfl⟩
  · exact ⟨c.control, rfl⟩

/-- A cycle that executes ends by whether its run was cancelled. -/
theorem complete_of_executing (h : c.state = .executing) {g : Graph} (hg : c.graph = some g)
    (o : ExecutionOutcome) :
    ∃ c', c.complete now o = .ok c' ∧ c'.id = c.id ∧ c'.graph = some g ∧
      (o.cancelled = true ∧ c'.state = .executionFailed ∧ c'.result = c.result ∨
        o.cancelled = false ∧ c'.state = .executed ∧ c'.result = some
          (ResultModel.build c.id c.options.valuationTime g o.cache o.failures c.resultOptions)) := by
  have hmove : ∀ next, next = .executed ∨ next = .executionFailed →
      c.transition next = .ok { c with state := next } := by
    rintro next (rfl | rfl) <;> exact transition_of_canMoveTo (by rw [h]; rfl)
  unfold complete
  rw [hg]
  cases o.cancelled with
  | true =>
    simp only [if_true, hmove _ (.inr rfl)]
    exact ⟨_, rfl, rfl, hg, .inl ⟨trivial, rfl, rfl⟩⟩
  | false =>
    simp only [Bool.false_eq_true, if_false, hmove _ (.inl rfl)]
    exact ⟨_, rfl, rfl, hg, .inr ⟨trivial, rfl, rfl⟩⟩

end

/-! ## Moves that are accepted -/

section
variable {c c' : Cycle} {now : Instant}

theorem transition_eq_ok {next : CycleState} (h : c.transition next = .ok c') :
    c.state.canMoveTo next = true ∧ c' = { c with state := next } := by
  unfold transition at h
  split at h
  · next hmove => exact ⟨hmove, (Except.ok.inj h).symm⟩
  · cases h

theorem begin_eq_ok {s : Snapshot} {g : Graph} (h : c.begin now s g = .ok c') :
    c.state = .awaitingExecution ∧ c' = { c with
      state := .executing, startedAt := some now, snapshot := some s, graph := some g } := by
  obtain ⟨moved, hmove, h⟩ := bind_eq_ok.1 h
  obtain ⟨hmay, rfl⟩ := transition_eq_ok hmove
  refine ⟨?_, (Except.ok.inj h).symm⟩
  cases hstate : c.state <;> simp [hstate, CycleState.canMoveTo] at hmay ⊢

theorem fail_eq_ok {failure : CycleFailure} (h : c.fail now failure = .ok c') :
    (c.state = .awaitingExecution ∨ c.state = .executing) ∧ c' = { c with
      state := .executionFailed, finishedAt := c.startedAt.map fun _ => now, failure := some failure } := by
  obtain ⟨moved, hmove, h⟩ := bind_eq_ok.1 h
  obtain ⟨hmay, rfl⟩ := transition_eq_ok hmove
  refine ⟨?_, (Except.ok.inj h).symm⟩
  cases hstate : c.state <;> simp [hstate, CycleState.canMoveTo] at hmay ⊢

/-- What completing records, by whether the run was cancelled. -/
theorem complete_eq_ok {o : ExecutionOutcome} (h : c.complete now o = .ok c') :
    ∃ g, c.graph = some g ∧
      (o.cancelled = true ∧ (c.state = .awaitingExecution ∨ c.state = .executing) ∧ c' = { c with
          state := .executionFailed, finishedAt := c.startedAt.map fun _ => now, statistics := some o.statistics
          cache := some o.cache, failure := some .cancelled } ∨
        o.cancelled = false ∧ c.state = .executing ∧ c' = { c with
          state := .executed, finishedAt := c.startedAt.map fun _ => now, statistics := some o.statistics
          cache := some o.cache
          result := some (ResultModel.build c.id c.options.valuationTime g o.cache o.failures c.resultOptions) }) := by
  unfold complete at h
  split at h
  · cases h
  next g hg =>
  refine ⟨g, hg, ?_⟩
  obtain ⟨moved, hmove, h⟩ := bind_eq_ok.1 h
  obtain ⟨hmay, rfl⟩ := transition_eq_ok hmove
  cases hcancelled : o.cancelled with
  | true =>
    rw [hcancelled] at hmay h
    refine .inl ⟨rfl, ?_, (Except.ok.inj h).symm⟩
    cases hstate : c.state <;> simp [hstate, CycleState.canMoveTo] at hmay ⊢
  | false =>
    rw [hcancelled] at hmay h
    refine .inr ⟨rfl, ?_, (Except.ok.inj h).symm⟩
    cases hstate : c.state <;> simp [hstate, CycleState.canMoveTo] at hmay ⊢

end

/-! ## Calls -/

/-- A call that may change a cycle. -/
inductive Call where
  | begin (now : Instant) (s : Snapshot) (g : Graph)
  | complete (now : Instant) (o : ExecutionOutcome)
  | fail (now : Instant) (failure : CycleFailure)
  | cancel
  /-- The flag is raised behind the cycle's back. -/
  | raise
  | execute (e : Executor) (x : Interleaving) (now : Instant) (s : Snapshot) (g : Graph)

/-- What a call comes to. -/
def Call.apply (c : Cycle) : Call → Except EngineError Cycle
  | .begin now s g => c.begin now s g
  | .complete now o => c.complete now o
  | .fail now failure => c.fail now failure
  | .cancel => .ok c.cancel
  | .raise => .ok c.raise
  | .execute e x now s g => (c.execute e now s g x).map (·.1)

/-- The cycle after a call. A call that is refused leaves it as it was. -/
def call (c : Cycle) (k : Call) : Cycle :=
  match k.apply c with
  | .ok c' => c'
  | .error _ => c

/-- The cycle after some calls. -/
def after (c : Cycle) (calls : List Call) : Cycle := calls.foldl call c

/-- Whether a call begins a cycle, by itself or as part of executing it. -/
def Begins (c : Cycle) : Call → Prop
  | .begin now s g => ∃ c', c.begin now s g = .ok c'
  | .execute _ _ now s g => c.control.cancelled = false ∧ ∃ c', c.begin now s g = .ok c'
  | _ => False

/-- Whether a call completes a cycle with the outcome of a run that was cancelled. -/
def Aborts (c : Cycle) : Call → Prop
  | .complete now o => o.cancelled = true ∧ ∃ c', c.complete now o = .ok c'
  | .execute e x now s g => c.control.cancelled = false ∧ (∃ c', c.begin now s g = .ok c') ∧
      (e.runUnder x g s c.control).cancelled = true
  | _ => False

/-- Whether one of some calls had a property when its turn came. -/
def Had (P : Cycle → Call → Prop) (c : Cycle) (calls : List Call) : Prop :=
  ∃ before k, before ++ [k] <+: calls ∧ P (c.after before) k

section
variable {c c' : Cycle} {k : Call}

theorem call_of_ok (h : k.apply c = .ok c') : c.call k = c' := by
  simp [call, h]

theorem call_of_error {err : EngineError} (h : k.apply c = .error err) : c.call k = c := by
  simp [call, h]

theorem had_nil (P : Cycle → Call → Prop) (c : Cycle) : ¬Had P c [] := by
  rintro ⟨before, k, hprefix, -⟩
  simpa using hprefix.length_le

theorem had_concat {P : Cycle → Call → Prop} {calls : List Call} :
    Had P c (calls ++ [k]) ↔ Had P c calls ∨ P (c.after calls) k := by
  simp only [Had, List.prefix_concat_iff]
  constructor
  · rintro ⟨before, l, hlast | hbefore, hP⟩
    · obtain ⟨rfl, hl⟩ := List.append_inj' hlast rfl
      exact .inr (List.singleton_inj.1 hl ▸ hP)
    · exact .inl ⟨before, l, hbefore, hP⟩
  · rintro (⟨before, l, hbefore, hP⟩ | hP)
    · exact ⟨before, l, .inr hbefore, hP⟩
    · exact ⟨calls, k, .inl rfl, hP⟩

/-- Executing a cycle that waits with its flag down begins it and completes it with the outcome of the run. -/
theorem execute_of_waiting (h : c.state = .awaitingExecution) (hflag : c.control.cancelled = false) (e : Executor)
    (x : Interleaving) (now : Instant) (s : Snapshot) (g : Graph) :
    ∃ control c', { c with
        state := .executing, startedAt := some now, snapshot := some s, graph := some g, control }.complete now
          (e.runUnder x g s c.control) = .ok c' ∧
      c.execute e now s g x = .ok (c', (e.runUnder x g s c.control).journal) := by
  generalize hbegun : { c with
    state := .executing, startedAt := some now, snapshot := some s, graph := some g } = begun
  obtain ⟨control, hrun⟩ := begun.run_eq e s g x
  obtain ⟨c', hcomplete, -⟩ := complete_of_executing (c := { begun with control }) now (by rw [← hbegun])
    (by rw [← hbegun]) (e.runUnder x g s begun.control)
  subst hbegun
  refine ⟨control, c', hcomplete, ?_⟩
  rw [execute, if_neg (by simp [hflag]), begin_of_waiting now h]
  refine bind_eq_ok.2 ⟨_, rfl, ?_⟩
  rw [hrun]
  exact bind_eq_ok.2 ⟨c', hcomplete, rfl⟩

end

/-! ## What is recorded -/

/-- What a cycle records, if it has begun or not, and has been completed with a cancelled outcome or not. -/
structure Records (c : Cycle) (begun stopped : Prop) : Prop where
  graph : c.graph.isSome = true ↔ begun
  snapshot : c.snapshot.isSome = true ↔ begun
  startedAt : c.startedAt.isSome = true ↔ begun
  awaiting : c.state = .awaitingExecution →
    ¬begun ∧ c.finishedAt = none ∧ c.failure = none ∧ c.result = none ∧ c.statistics = none ∧ c.cache = none
  executing : c.state = .executing →
    begun ∧ c.finishedAt = none ∧ c.failure = none ∧ c.result = none ∧ c.statistics = none ∧ c.cache = none
  executed : c.state = .executed → begun ∧ c.failure = none ∧ c.result.isSome = true ∧
    c.statistics.isSome = true ∧ c.cache.isSome = true
  failed : c.state = .executionFailed → c.failure.isSome = true ∧ c.result = none ∧
    (c.statistics.isSome = true ↔ stopped) ∧ (c.cache.isSome = true ↔ stopped) ∧
    (stopped → begun ∧ c.failure = some .cancelled)
  state_of_stopped : stopped → c.state = .executionFailed

namespace Records

variable {c c' : Cycle} {begun stopped : Prop}

theorem congr {begun' stopped' : Prop} (h : c.Records begun stopped) (hbegun : begun ↔ begun')
    (hstopped : stopped ↔ stopped') : c.Records begun' stopped' := by
  rwa [← propext hbegun, ← propext hstopped]

/-- A new cycle records nothing. -/
theorem new (id : CycleId) (process : ProcessId) (options : CycleOptions) (resultOptions : ResultOptions)
    (control : Control) : Records { id, process, options, resultOptions, control } False False where
  graph := by simp
  snapshot := by simp
  startedAt := by simp
  awaiting _ := ⟨not_false, rfl, rfl, rfl, rfl, rfl⟩
  executing h := nomatch h
  executed h := nomatch h
  failed h := nomatch h
  state_of_stopped h := h.elim

theorem withControl (h : c.Records begun stopped) (control : Control) :
    Records { c with control } begun stopped :=
  ⟨h.graph, h.snapshot, h.startedAt, h.awaiting, h.executing, h.executed, h.failed, h.state_of_stopped⟩

/-- As long as a cycle waits or executes, it has recorded no end. -/
theorem open_of_state (h : c.Records begun stopped) (hstate : c.state = .awaitingExecution ∨ c.state = .executing) :
    ¬stopped ∧ c.result = none ∧ c.statistics = none ∧ c.cache = none := by
  refine ⟨fun hstopped => ?_, ?_⟩
  · rw [h.state_of_stopped hstopped] at hstate
    simp at hstate
  · obtain hstate | hstate := hstate
    · exact (h.awaiting hstate).2.2.2
    · exact (h.executing hstate).2.2.2

theorem begin {now : Instant} {s : Snapshot} {g : Graph} (h : c.Records begun stopped)
    (hc : c.begin now s g = .ok c') : c'.Records True stopped := by
  obtain ⟨hstate, rfl⟩ := begin_eq_ok hc
  obtain ⟨-, hnothing⟩ := h.awaiting hstate
  have hopen := (h.open_of_state (.inl hstate)).1
  exact ⟨by simp, by simp, by simp, nofun, fun _ => ⟨trivial, hnothing⟩, nofun, nofun, fun hs => (hopen hs).elim⟩

theorem fail {now : Instant} {failure : CycleFailure} (h : c.Records begun stopped)
    (hc : c.fail now failure = .ok c') : c'.Records begun stopped := by
  obtain ⟨hstate, rfl⟩ := fail_eq_ok hc
  obtain ⟨hopen, hresult, hstatistics, hcache⟩ := h.open_of_state hstate
  refine ⟨h.graph, h.snapshot, h.startedAt, nofun, nofun, nofun, fun _ => ⟨rfl, hresult, ?_, ?_, ?_⟩, fun _ => rfl⟩
  · simp [hstatistics, hopen]
  · simp [hcache, hopen]
  · exact fun hstopped => (hopen hstopped).elim

theorem complete {now : Instant} {o : ExecutionOutcome} (h : c.Records begun stopped)
    (hc : c.complete now o = .ok c') : c'.Records begun (stopped ∨ o.cancelled = true) := by
  obtain ⟨g, hg, ⟨hcancelled, hstate, rfl⟩ | ⟨hgoes, hstate, rfl⟩⟩ := complete_eq_ok hc
  · have hbegun := h.graph.1 (by simp [hg])
    have hresult := (h.open_of_state hstate).2.1
    exact ⟨h.graph, h.snapshot, h.startedAt, nofun, nofun, nofun,
      fun _ => ⟨rfl, hresult, by simp [hcancelled], by simp [hcancelled], fun _ => ⟨hbegun, rfl⟩⟩, fun _ => rfl⟩
  · obtain ⟨hbegun, -, hfailure, -⟩ := h.executing hstate
    have hopen := (h.open_of_state (.inr hstate)).1
    exact ⟨h.graph, h.snapshot, h.startedAt, nofun, nofun, fun _ => ⟨hbegun, hfailure, rfl, rfl, rfl⟩, nofun,
      fun hstopped => hstopped.elim (fun hs => (hopen hs).elim) fun hs => by cases hgoes.symm.trans hs⟩

theorem cancel (h : c.Records begun stopped) : c.cancel.Records begun stopped := by
  have hraised : c.raise.Records begun stopped := h.withControl _
  dsimp only [Cycle.cancel]
  split
  · next hstate =>
    obtain ⟨hopen, hresult, hstatistics, hcache⟩ := hraised.open_of_state (.inl hstate)
    refine ⟨hraised.graph, hraised.snapshot, hraised.startedAt, nofun, nofun, nofun,
      fun _ => ⟨rfl, hresult, ?_, ?_, fun hs => (hopen hs).elim⟩, fun _ => rfl⟩
    · simp [hstatistics, hopen]
    · simp [hcache, hopen]
  · exact hraised

theorem execute {e : Executor} {x : Interleaving} {now : Instant} {s : Snapshot} {g : Graph}
    (h : c.Records begun stopped) :
    (c.call (.execute e x now s g)).Records (begun ∨ c.Begins (.execute e x now s g))
      (stopped ∨ c.Aborts (.execute e x now s g)) := by
  by_cases hbegins : c.Begins (.execute e x now s g)
  · obtain ⟨hflag, b, hb⟩ := hbegins
    obtain ⟨hstate, hb'⟩ := begin_eq_ok hb
    obtain ⟨control, c', hcomplete, hexecute⟩ := execute_of_waiting hstate hflag e x now s g
    rw [call_of_ok (k := .execute e x now s g) (map_eq_ok.2 ⟨_, hexecute, rfl⟩)]
    subst hb'
    refine (((h.begin hb).withControl control).complete hcomplete).congr (by simp [Begins, hflag, hb]) ?_
    simp [Aborts, hflag, hb]
  · have haborts : ¬c.Aborts (.execute e x now s g) := fun hs => hbegins ⟨hs.1, hs.2.1⟩
    refine Records.congr ?_ (or_iff_left hbegins).symm (or_iff_left haborts).symm
    cases happly : (Call.execute e x now s g).apply c with
    | error err => rwa [call_of_error happly]
    | ok c' =>
      rw [call_of_ok happly]
      obtain ⟨⟨c'', journal⟩, hexecute, rfl⟩ := map_eq_ok.1 happly
      unfold Cycle.execute at hexecute
      split at hexecute
      · obtain ⟨failed, hfail, hexecute⟩ := bind_eq_ok.1 hexecute
        cases hexecute
        exact h.fail hfail
      · next hflag =>
        obtain ⟨b, hb, -⟩ := bind_eq_ok.1 hexecute
        exact absurd ⟨by simpa using hflag, b, hb⟩ hbegins

/-- After a call, accepted or refused, the records of a cycle go with its state again. -/
theorem call (h : c.Records begun stopped) (k : Call) :
    (c.call k).Records (begun ∨ c.Begins k) (stopped ∨ c.Aborts k) := by
  cases k with
  | begin now s g =>
    cases happly : c.begin now s g with
    | error err =>
      rw [call_of_error (k := .begin now s g) happly]
      exact h.congr (by simp [Begins, happly]) (by simp [Aborts])
    | ok c' =>
      rw [call_of_ok (k := .begin now s g) happly]
      exact (h.begin happly).congr (by simp [Begins, happly]) (by simp [Aborts])
  | complete now o =>
    cases happly : c.complete now o with
    | error err =>
      rw [call_of_error (k := .complete now o) happly]
      exact h.congr (by simp [Begins]) (by simp [Aborts, happly])
    | ok c' =>
      rw [call_of_ok (k := .complete now o) happly]
      exact (h.complete happly).congr (by simp [Begins]) (by simp [Aborts, happly])
  | fail now failure =>
    refine Records.congr ?_ (or_iff_left not_false).symm (or_iff_left not_false).symm
    cases happly : c.fail now failure with
    | error err => rwa [call_of_error (k := .fail now failure) happly]
    | ok c' =>
      rw [call_of_ok (k := .fail now failure) happly]
      exact h.fail happly
  | cancel => exact h.cancel.congr (or_iff_left not_false).symm (or_iff_left not_false).symm
  | raise => exact (h.withControl _).congr (or_iff_left not_false).symm (or_iff_left not_false).symm
  | execute e x now s g => exact h.execute

end Records

/-- A duration is told from the start on. -/
theorem duration?_isSome (c : Cycle) (now : Instant) : (c.duration? now).isSome = c.startedAt.isSome :=
  Option.isSome_map ..

/-- Whatever calls a new cycle has had, accepted or refused: what it records goes with its state. -/
theorem after_records (id : CycleId) (process : ProcessId) (options : CycleOptions) (resultOptions : ResultOptions)
    (control : Control) (calls : List Call) :
    let new : Cycle := { id, process, options, resultOptions, control }
    (new.after calls).Records (Had Begins new calls) (Had Aborts new calls) ∧
      ∀ now, ((new.after calls).duration? now).isSome = true ↔ Had Begins new calls := by
  intro new
  have h : (new.after calls).Records (Had Begins new calls) (Had Aborts new calls) := by
    induction calls using List.reverseRecOn with
    | nil =>
      exact (Records.new id process options resultOptions control).congr
        (iff_of_false not_false (had_nil _ _)) (iff_of_false not_false (had_nil _ _))
    | append_singleton calls k ih =>
      have hafter : new.after (calls ++ [k]) = (new.after calls).call k := List.foldl_append
      rw [hafter]
      exact (ih.call k).congr had_concat.symm had_concat.symm
  exact ⟨h, fun now => by rw [duration?_isSome]; exact h.startedAt⟩

end Cycle
end Valuation
