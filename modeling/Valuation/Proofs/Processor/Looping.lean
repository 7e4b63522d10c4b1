import Valuation.Proofs.Processor.Session

/-!
# How many cycles a loop runs

The loop of a process goes forward in two steps: it is woken, and it runs a cycle for what has woken it. In between,
and between turns, the process is called, its ticks may come to an end, and others use the engine (`Looping`). Nothing
in between is what the turns of the model do (`turnsUntil_eq_after`).

A loop that may run `m` cycles runs at most so many, and has ended once it has (`Limited`), but where it may run none
it runs one: it looks at the limit after a cycle only (`limit_zero`). Woken by triggers alone, it takes them in their
order, a cycle for each, until there are no more of them or it has ended (`after_limited`).
-/
namespace Valuation

namespace Process

/-! ## What a step does to a process -/

/-- No cycle has been run, and the loop has not been started. -/
structure Unstarted (p : Process) : Prop where
  loop : p.loop = .unstarted
  cyclesRun : p.cyclesRun = 0

/-- Running a cycle leaves the loop where it is, and the triggers. -/
theorem runCycle_process (p : Process) (e : Engine) (stops : Stops) (trigger : CycleTrigger) :
    ∃ retained stopping cyclesRun notices,
      (p.runCycle e stops trigger).process = { p with retained, stopping, cyclesRun, notices } := by
  obtain ⟨feeds, hrun⟩ := p.runCycle_eq e stops trigger
  obtain ⟨⟨stopping, cyclesRun, notices, hprocess⟩, -⟩ := finishCycle_keeps (p.beginCycle e).2.1
    { (p.beginCycle e).2.2 with feeds } stops trigger (p.beginCycle e).1 (e.takeSnapshot p.source).1
  rw [← hrun] at hprocess
  exact ⟨_, stopping, cyclesRun, notices, hprocess⟩

/-- A call leaves a loop where it is, unless it starts it. -/
theorem Call.apply_eq (call : Call) (e : Engine) (p : Process) :
    ∃ triggers loop stopping, call.apply e p = { p with triggers, loop, stopping } ∧
      (loop = p.loop ∨ p.loop = .unstarted ∧ ∃ ticks, loop = .waiting ticks) := by
  cases call with
  | trigger =>
    simp only [apply, Process.trigger]
    split <;> exact ⟨_, _, _, rfl, .inl rfl⟩
  | start hosted =>
    simp only [apply, Process.start]
    split
    · exact ⟨_, _, _, rfl, .inl rfl⟩
    split
    · next hloop => exact ⟨_, _, _, rfl, .inr ⟨hloop, _, rfl⟩⟩
    · exact ⟨_, _, _, rfl, .inl rfl⟩
  | stop =>
    obtain ⟨stopping, hstop⟩ := p.exists_stop
    exact ⟨_, _, _, hstop, .inl rfl⟩

theorem isWaiting_iff {p : Process} : p.isWaiting = true ↔ ∃ ticks, p.loop = .waiting ticks := by
  unfold isWaiting
  cases p.loop with
  | waiting ticks => simp
  | unstarted | ended | broken => simp

/-- What wakes a loop but a shutdown leaves it waiting, and is what a cycle is run for. -/
theorem wake_eq (p : Process) (e : Engine) (w : Wakeup) :
    p.wake e w = (none, { p with loop := .ended }) ∧ w = .shutdown ∨
    ∃ t triggers loop, p.wake e w = (some t, { p with triggers, loop }) ∧
      (loop = p.loop ∨ ∃ ticks, loop = .waiting ticks) := by
  cases w with
  | trigger => exact .inr ⟨_, _, p.loop, rfl, .inl rfl⟩
  | tick => exact .inr ⟨_, p.triggers, _, rfl, .inr ⟨_, rfl⟩⟩
  | shutdown => exact .inl ⟨rfl, rfl⟩
  | interval => exact .inr ⟨_, p.triggers, p.loop, rfl, .inl rfl⟩

theorem isWaiting_of_isReady {p : Process} {e : Engine} {w : Wakeup} (h : p.isReady e w = true) :
    p.isWaiting = true :=
  (Bool.and_eq_true_iff.1 h).1

end Process

/-- A process with its loop, which may have been woken and be about to run a cycle. -/
structure Looping where
  process : Process
  engine : Engine
  /-- What the loop is about to run a cycle for. -/
  running : Option CycleTrigger := none
  /-- The notices given so far. -/
  told : List CycleNotice := []

namespace Looping

open Process

/-- What can come next. -/
inductive Move where
  | call (call : Process.Call)
  | elsewhere (engine : Engine)
  /-- The ticks come to an end, and the loop listens to them no longer. -/
  | closed
  | wake (w : Wakeup)
  | run (stops : Stops)

/-- The move is not one by which anything but a trigger wakes the loop. -/
def Move.Manual : Move → Prop
  | .wake w => w = .trigger
  | _ => True

/-- The move asks for a cycle. -/
def Move.requests : Move → Bool
  | .call .trigger => true
  | _ => false

section
variable (s : Looping)

/-- Wakes a loop that is not about to run a cycle. -/
def wake (w : Wakeup) : Looping :=
  if s.running.isSome then s
  else if s.process.cannotRun then { s with process := { s.process with loop := .broken } }
  else if s.process.isReady s.engine w then
    let (running, process) := s.process.wake s.engine w
    { s with process, running }
  else s

/-- Runs the cycle that the loop has been woken for, and looks whether it was the last. -/
def run (stops : Stops) : Looping :=
  match s.running with
  | none => s
  | some t =>
    let r := s.process.runCycle s.engine stops t
    let notice := r.result.toOption.map fun c => ⟨s.process.id, c.id, c.state, t⟩
    { process := r.process.checkLimit, engine := r.engine, told := s.told ++ notice.toList }

def closed : Looping :=
  if s.running.isNone && s.process.isWaiting then { s with process := { s.process with loop := .waiting none } }
  else s

def step : Move → Looping
  | .call call => { s with process := call.apply s.engine s.process }
  | .elsewhere engine => { s with engine }
  | .closed => s.closed
  | .wake w => s.wake w
  | .run stops => s.run stops

def after (moves : List Move) : Looping := moves.foldl step s

/-- The loop has nothing more to do, for now or for good. -/
def Quiet : Prop :=
  s.running = none ∧ (s.process.loop = .ended ∨ s.process.isWaiting = true ∧ s.process.triggers = [])

end

/-! ## The turns of the model -/

/-- A turn wakes the loop and runs its cycle. -/
theorem turn_eq_after {p : Process} {e : Engine} {w : Wakeup} (hready : p.isReady e w = true)
    (hruns : p.cannotRun = false) (stops : Stops) (told : List CycleNotice) :
    ∃ told', (⟨p, e, none, told⟩ : Looping).after [.wake w, .run stops] =
      ⟨(p.turn e stops w).1, (p.turn e stops w).2.1, none, told'⟩ := by
  have hwake : (⟨p, e, none, told⟩ : Looping).wake w = ⟨(p.wake e w).2, e, (p.wake e w).1, told⟩ := by
    simp [wake, hready, hruns]
  simp only [after, List.foldl_cons, List.foldl_nil, step, hwake]
  rcases hwoken : p.wake e w with ⟨_ | t, p'⟩
  · exact ⟨told, by simp [run, turn, hwoken]⟩
  · exact ⟨_, by simp [run, turn, hwoken]; rfl⟩

/-- The turns of a loop are made of wakening and running. -/
theorem turnsUntil_eq_after (done : Process → Bool) (stops : Process → Stops) (fuel : Nat) (p : Process)
    (e : Engine) (told : List CycleNotice) :
    ∃ moves told', (∀ move ∈ moves, (∃ w, move = Move.wake w) ∨ ∃ stops, move = Move.run stops) ∧
      (⟨p, e, none, told⟩ : Looping).after moves =
        ⟨(turnsUntil done stops fuel p e).1, (turnsUntil done stops fuel p e).2.1, none, told'⟩ := by
  induction fuel generalizing p e told with
  | zero => exact ⟨[], told, by simp, rfl⟩
  | succ fuel ih =>
    unfold turnsUntil
    split
    · exact ⟨[], told, by simp, rfl⟩
    split
    · next hbroken => exact ⟨[.wake .trigger], told, by simp, by simp [after, step, wake, hbroken]⟩
    · next hruns =>
      split
      · exact ⟨[], told, by simp, rfl⟩
      · next w hw =>
        obtain ⟨told₁, hturn⟩ :=
          turn_eq_after (List.find?_some hw) (Bool.eq_false_iff.2 hruns) (stops p) told
        obtain ⟨moves, told₂, hkinds, hmoves⟩ := ih (p.turn e (stops p) w).1 (p.turn e (stops p) w).2.1 told₁
        refine ⟨[.wake w, .run (stops p)] ++ moves, told₂, fun move hmove => ?_, ?_⟩
        · rcases List.mem_append.1 hmove with hmove | hmove
          · rcases List.mem_pair.1 hmove with rfl | rfl
            · exact .inl ⟨w, rfl⟩
            · exact .inr ⟨_, rfl⟩
          · exact hkinds move hmove
        · rw [after, List.foldl_append]
          exact (congrArg (List.foldl step · moves) hturn).trans hmoves

/-! ## The limit -/

/-- The loop stays within its limit: no cycle too many, and it has ended once they have been run. Each cycle is
counted and announced. -/
structure Within (p : Process) (m : Nat) (s : Looping) : Prop where
  options : s.process.options = p.options
  counted : s.told.length = s.process.cyclesRun
  notices : s.process.notices = p.notices.sendAll s.told
  bound : s.process.cyclesRun ≤ max m 1
  below : s.process.loop ≠ .ended → s.process.cyclesRun < max m 1
  waiting : s.running.isSome = true → s.process.isWaiting = true

section
variable {p : Process} {e : Engine} {m : Nat} {s : Looping}

theorem within_start (hp : p.Unstarted) : Within p m { process := p, engine := e } := by
  refine ⟨rfl, hp.cyclesRun.symm, rfl, ?_, fun _ => ?_, nofun⟩
  · simp [hp.cyclesRun]
  · simp [hp.cyclesRun]

/-- What changes nothing but the loop, the triggers and whether it is told to stop. -/
theorem Within.retouch (h : Within p m s) {p' : Process} {running : Option CycleTrigger}
    (htouched : ∃ triggers loop stopping, p' = { s.process with triggers, loop, stopping })
    (hended : s.process.loop = .ended → p'.loop = .ended) (hwaiting : running.isSome = true → p'.isWaiting = true) :
    Within p m { s with process := p', running } := by
  obtain ⟨triggers, loop, stopping, rfl⟩ := htouched
  exact ⟨h.options, h.counted, h.notices, h.bound, fun hne => h.below fun he => hne (hended he), hwaiting⟩

theorem Within.call (h : Within p m s) (call : Process.Call) : Within p m (s.step (.call call)) := by
  obtain ⟨triggers, loop, stopping, hcall, hloop⟩ := call.apply_eq s.engine s.process
  refine h.retouch ⟨triggers, loop, stopping, hcall⟩ (fun hended => ?_) fun hsome => ?_
  · rw [hcall]
    rcases hloop with rfl | ⟨hunstarted, -⟩
    · exact hended
    · cases hunstarted.symm.trans hended
  · obtain ⟨ticks, hwaiting⟩ := isWaiting_iff.1 (h.waiting hsome)
    rw [hcall]
    rcases hloop with rfl | ⟨hunstarted, -⟩
    · exact isWaiting_iff.2 ⟨ticks, hwaiting⟩
    · cases hunstarted.symm.trans hwaiting

theorem Within.closed (h : Within p m s) : Within p m (s.step .closed) := by
  unfold step Looping.closed
  dsimp only
  split
  · next hidle =>
    obtain ⟨hnone, hwaiting⟩ := Bool.and_eq_true_iff.1 hidle
    obtain ⟨ticks, hticks⟩ := isWaiting_iff.1 hwaiting
    exact h.retouch ⟨_, _, _, rfl⟩ (fun hended => nomatch hticks.symm.trans hended) fun _ => rfl
  · exact h

/-- A woken loop waits, or has ended. -/
theorem Within.wake (h : Within p m s) (w : Wakeup) : Within p m (s.step (.wake w)) := by
  unfold step Looping.wake
  dsimp only
  split
  · exact h
  next hidle =>
  split
  · next hbroken =>
    obtain ⟨ticks, hticks⟩ := isWaiting_iff.1 (Bool.and_eq_true_iff.1 hbroken).1
    exact h.retouch ⟨_, _, _, rfl⟩ (fun hended => nomatch hticks.symm.trans hended) fun hsome => absurd hsome hidle
  split
  · next hready =>
    obtain ⟨ticks, hticks⟩ := isWaiting_iff.1 (isWaiting_of_isReady hready)
    rcases s.process.wake_eq s.engine w with ⟨hwake, -⟩ | ⟨t, triggers, loop, hwake, hloop⟩
    · rw [hwake]
      exact h.retouch ⟨_, _, _, rfl⟩ (fun _ => rfl) nofun
    · rw [hwake]
      refine h.retouch ⟨_, _, _, rfl⟩ (fun hended => nomatch hticks.symm.trans hended) fun _ => isWaiting_iff.2 ?_
      rcases hloop with rfl | hloop
      · exact ⟨ticks, hticks⟩
      · exact hloop
  · exact h

/-- What running a cycle comes to within the limit: one cycle more, and the loop has ended if it was the last. -/
theorem Within.run_eq (h : Within p m s) {t : CycleTrigger} (ht : s.running = some t) (stops : Stops) :
    ∃ notice retained stopping loop engine, notice.trigger = t ∧
      s.run stops = ⟨{ s.process with
        retained, stopping, loop
        cyclesRun := s.process.cyclesRun + 1
        notices := s.process.notices.send notice }, engine, none, s.told ++ [notice]⟩ ∧
      loop = if p.options.maxCycles.any (· ≤ s.process.cyclesRun + 1) then .ended else s.process.loop := by
  obtain ⟨c, hran⟩ := s.process.runCycle_ran s.engine stops t
  obtain ⟨retained, stopping, cyclesRun, notices, hprocess⟩ := s.process.runCycle_process s.engine stops t
  have hcyclesRun := hran.cyclesRun
  have hnotices := hran.notices
  rw [hprocess] at hcyclesRun hnotices
  obtain rfl : cyclesRun = _ := hcyclesRun
  obtain rfl : notices = _ := hnotices
  have hwaiting : s.process.isWaiting = true := h.waiting (by simp [ht])
  refine ⟨⟨s.process.id, c.id, c.state, t⟩, retained, stopping, _, (s.process.runCycle s.engine stops t).engine, rfl,
    ?_, rfl⟩
  simp only [run, ht, hran.result, hprocess, checkLimit]
  rw [show Process.isWaiting { s.process with retained, stopping, cyclesRun := _, notices := _ } = true from hwaiting,
    Bool.true_and, h.options]
  split
  · rfl
  · rfl

theorem Within.run (h : Within p m s) (hm : p.options.maxCycles = some m) (stops : Stops) :
    Within p m (s.step (.run stops)) := by
  cases ht : s.running with
  | none =>
    have hsame : s.step (.run stops) = s := by simp [step, Looping.run, ht]
    rwa [hsame]
  | some t =>
    have hwaiting := h.waiting (by simp [ht])
    obtain ⟨ticks, hticks⟩ := isWaiting_iff.1 hwaiting
    have hmore : s.process.cyclesRun < max m 1 := h.below (by simp [hticks])
    obtain ⟨notice, retained, stopping, loop, engine, -, hrun, hloop⟩ := h.run_eq ht stops
    rw [hm, Option.any_some] at hloop
    rw [show s.step (.run stops) = _ from hrun]
    refine ⟨h.options, ?_, ?_, ?_, fun hne => ?_, nofun⟩
    · simp [h.counted]
    · rw [Channel.sendAll, List.foldl_append]
      exact congrArg (Channel.send · notice) h.notices
    · dsimp only
      omega
    · -- The loop goes on only if the limit is above what has been run.
      have hlimit : ¬m ≤ s.process.cyclesRun + 1 := by
        intro hle
        rw [if_pos (decide_eq_true hle)] at hloop
        exact hne hloop
      dsimp only
      omega

/-- Every step stays within the limit. -/
theorem Within.step (h : Within p m s) (hm : p.options.maxCycles = some m) (move : Move) :
    Within p m (s.step move) := by
  cases move with
  | call call => exact h.call call
  | elsewhere engine => exact ⟨h.options, h.counted, h.notices, h.bound, h.below, h.waiting⟩
  | closed => exact h.closed
  | wake w => exact h.wake w
  | run stops => exact h.run hm stops

theorem Within.after (h : Within p m s) (hm : p.options.maxCycles = some m) (moves : List Move) :
    Within p m (s.after moves) := by
  induction moves generalizing s with
  | nil => exact h
  | cons move moves ih => exact ih (h.step hm move)

/-! ## Triggers alone -/

/-- The loop takes triggers in their order, a cycle for each, and takes on every one that is asked for before it has
ended. It ends with as many cycles as it may run. -/
structure Serves (p : Process) (m requested : Nat) (s : Looping) : Prop extends Within p m s where
  unbroken : s.process.loop ≠ .broken
  full : s.process.loop = .ended → s.process.cyclesRun = max m 1
  inOrder : ∃ accepted ≤ requested,
    s.told.map (·.trigger) ++ s.running.toList ++ s.process.triggers = p.triggers ++ List.replicate accepted .manual ∧
      (s.process.loop ≠ .ended → accepted = requested)

variable {requested : Nat}

theorem serves_start (hp : p.Unstarted) : Serves p m 0 { process := p, engine := e } := by
  refine ⟨within_start hp, ?_, fun hended => (nomatch hp.loop.symm.trans hended), 0, le_rfl, ?_,
    fun _ => rfl⟩
  · simp [hp.loop]
  · simp

/-- A request is taken on before the loop is started and while it waits, and refused once it has ended. -/
theorem Serves.trigger (h : Serves p m requested s) :
    Serves p m (requested + 1) (s.step (.call .trigger)) := by
  have hwithin := h.toWithin.call .trigger
  obtain ⟨accepted, hle, horder, hall⟩ := h.inOrder
  have htaken : s.process.loop ≠ .ended →
      s.step (.call .trigger) = { s with process := { s.process with triggers := s.process.triggers ++ [.manual] } } := by
    intro hopen
    cases hloop : s.process.loop with
    | ended => exact absurd hloop hopen
    | broken => exact absurd hloop h.unbroken
    | unstarted | waiting => simp [step, Call.apply, Process.trigger, hloop, Except.toOption]
  by_cases hended : s.process.loop = .ended
  · have hrefused : s.step (.call .trigger) = s := by
      simp [step, Call.apply, Process.trigger, hended, Except.toOption]
    rw [hrefused] at hwithin ⊢
    exact ⟨hwithin, h.unbroken, h.full, accepted, by omega, horder, fun hne => absurd hended hne⟩
  · rw [htaken hended] at hwithin ⊢
    refine ⟨hwithin, h.unbroken, h.full, accepted + 1, by omega, ?_, fun hne => by rw [hall hne]⟩
    simp only [List.replicate_succ', ← List.append_assoc, horder]

/-- What leaves the triggers where they are, and ends or breaks no loop. -/
theorem Serves.keep (h : Serves p m requested s) {s' : Looping} (hwithin : Within p m s') (htold : s'.told = s.told)
    (hrunning : s'.running = s.running) (htriggers : s'.process.triggers = s.process.triggers)
    (hcyclesRun : s'.process.cyclesRun = s.process.cyclesRun)
    (hloop : s'.process.loop = s.process.loop ∨ s.process.loop ≠ .ended ∧ ∃ ticks, s'.process.loop = .waiting ticks) :
    Serves p m requested s' := by
  obtain ⟨accepted, hle, horder, hall⟩ := h.inOrder
  rw [← htold, ← hrunning, ← htriggers] at horder
  rcases hloop with hsame | ⟨hopen, ticks, hwaits⟩
  · rw [← hsame] at hall
    exact ⟨hwithin, hsame ▸ h.unbroken, fun hended => hcyclesRun.trans (h.full (hsame.symm.trans hended)), accepted, hle,
      horder, hall⟩
  · exact ⟨hwithin, by simp [hwaits], fun hended => (nomatch hwaits.symm.trans hended), accepted, hle, horder,
      fun _ => hall hopen⟩

/-- Starting and stopping a loop leave its triggers where they are. -/
theorem Serves.call (h : Serves p m requested s) {call : Process.Call} (hcall : Move.requests (.call call) = false) :
    Serves p m requested (s.step (.call call)) := by
  obtain ⟨triggers, loop, stopping, happly, hloop⟩ := call.apply_eq s.engine s.process
  have htriggers : (call.apply s.engine s.process).triggers = s.process.triggers := by
    cases call with
    | trigger => cases hcall
    | start hosted =>
      simp only [Call.apply, Process.start]
      split
      · rfl
      · split <;> rfl
    | stop =>
      obtain ⟨_, hstop⟩ := s.process.exists_stop
      rw [Call.apply, hstop]
  refine h.keep (h.toWithin.call call) rfl rfl htriggers ?_ ?_
  · simp only [step, happly]
  · simp only [step, happly]
    obtain hended | ⟨hunstarted, hwaits⟩ := hloop
    · exact .inl hended
    · exact .inr ⟨by simp [hunstarted], hwaits⟩

theorem Serves.closed (h : Serves p m requested s) : Serves p m requested (s.step .closed) := by
  have hwithin := h.toWithin.closed
  unfold step Looping.closed at hwithin ⊢
  dsimp only at hwithin ⊢
  split
  · next hidle =>
    rw [if_pos hidle] at hwithin
    obtain ⟨ticks, hticks⟩ := isWaiting_iff.1 (Bool.and_eq_true_iff.1 hidle).2
    exact h.keep hwithin rfl rfl rfl rfl (.inr ⟨by simp [hticks], none, rfl⟩)
  · exact h

theorem cannotRun_eq_false (h : Within p m s) (hinterval : p.options.interval = none) :
    s.process.cannotRun = false := by
  simp [cannotRun, h.options, hinterval]

/-- A trigger that wakes the loop goes from the head of the queue to the cycle that is about to be run. -/
theorem Serves.wake (h : Serves p m requested s) (hinterval : p.options.interval = none) :
    Serves p m requested (s.step (.wake .trigger)) := by
  have hwithin := h.toWithin.wake .trigger
  have hruns := cannotRun_eq_false h.toWithin hinterval
  unfold step Looping.wake at hwithin ⊢
  simp only [hruns] at hwithin ⊢
  split
  · exact h
  next hidle =>
  rw [if_neg hidle] at hwithin
  obtain ⟨accepted, hle, horder, hall⟩ := h.inOrder
  have hnone : s.running = none := by simpa using hidle
  simp only [Bool.false_eq_true, if_false] at hwithin ⊢
  split
  · next hready =>
    rw [if_pos hready] at hwithin
    obtain ⟨t, rest, hqueue⟩ : ∃ t rest, s.process.triggers = t :: rest :=
      List.exists_cons_of_ne_nil (by simpa [isReady] using (Bool.and_eq_true_iff.1 hready).2)
    refine ⟨hwithin, h.unbroken, h.full, accepted, hle, ?_, hall⟩
    rw [hnone, hqueue] at horder
    simpa [Process.wake, hqueue] using horder
  · exact h

/-- The cycle that is run is that of the trigger which woke the loop. -/
theorem Serves.run (h : Serves p m requested s) (hm : p.options.maxCycles = some m) (stops : Stops) :
    Serves p m requested (s.step (.run stops)) := by
  cases ht : s.running with
  | none =>
    have hsame : s.step (.run stops) = s := by simp [step, Looping.run, ht]
    rwa [hsame]
  | some t =>
    have hwithin := h.toWithin.run hm stops
    obtain ⟨ticks, hticks⟩ := isWaiting_iff.1 (h.waiting (by simp [ht]))
    obtain ⟨accepted, hle, horder, hall⟩ := h.inOrder
    obtain ⟨notice, retained, stopping, loop, engine, htrigger, hrun, hloop⟩ := h.run_eq ht stops
    rw [hm, Option.any_some] at hloop
    rw [show s.step (.run stops) = _ from hrun] at hwithin ⊢
    have hbound := hwithin.bound
    refine ⟨hwithin, ?_, fun hended => ?_, accepted, hle, ?_, fun _ => hall (by simp [hticks])⟩
    · dsimp only
      rw [hloop]
      split
      · simp
      · simp [hticks]
    · dsimp only at hended hbound ⊢
      rw [hloop] at hended
      split at hended
      · next hle =>
        have hlimit : m ≤ s.process.cyclesRun + 1 := of_decide_eq_true hle
        omega
      · cases hticks.symm.trans hended
    · rw [ht] at horder
      simpa [htrigger] using horder

/-- Every step of a loop that only triggers wake. -/
theorem Serves.step (h : Serves p m requested s) (hm : p.options.maxCycles = some m)
    (hinterval : p.options.interval = none) {move : Move} (hmanual : move.Manual) :
    Serves p m (requested + if move.requests then 1 else 0) (s.step move) := by
  cases move with
  | call call =>
    cases call with
    | trigger => exact h.trigger
    | start hosted => exact h.call rfl
    | stop => exact h.call rfl
  | elsewhere engine =>
    have hwithin : Within p m (s.step (.elsewhere engine)) := h.toWithin.step hm _
    exact h.keep hwithin rfl rfl rfl rfl (.inl rfl)
  | closed => exact h.closed
  | wake w =>
    obtain rfl : w = .trigger := hmanual
    exact h.wake hinterval
  | run stops => exact h.run hm stops

theorem Serves.after (h : Serves p m requested s) (hm : p.options.maxCycles = some m)
    (hinterval : p.options.interval = none) {moves : List Move} (hmanual : ∀ move ∈ moves, move.Manual) :
    Serves p m (requested + moves.countP Move.requests) (s.after moves) := by
  induction moves generalizing s requested with
  | nil => exact h
  | cons move moves ih =>
    obtain ⟨hmove, hmoves⟩ := List.forall_mem_cons.1 hmanual
    rw [List.countP_cons, Nat.add_comm (moves.countP _), ← Nat.add_assoc]
    exact ih (h.step hm hinterval hmove) hmoves

/-- When it has nothing more to do, the loop has run a cycle for each trigger, or as many as it may. -/
theorem Serves.cyclesRun_eq (h : Serves p m requested s) (hquiet : s.Quiet) :
    s.process.cyclesRun = min (max m 1) (p.triggers.length + requested) := by
  obtain ⟨accepted, hle, horder, hall⟩ := h.inOrder
  obtain ⟨hnone, hdone⟩ := hquiet
  have hlength := congrArg List.length horder
  simp only [hnone, Option.toList_none, List.append_nil, List.length_append, List.length_map, h.counted,
    List.length_replicate] at hlength
  rcases hdone with hended | ⟨hwaiting, hempty⟩
  · have hfull := h.full hended
    omega
  · obtain ⟨ticks, hticks⟩ := isWaiting_iff.1 hwaiting
    have hbelow := h.below (by simp [hticks])
    have hrequested := hall (by simp [hticks])
    rw [hempty, List.length_nil] at hlength
    omega

/-! ## Coming to rest -/

/-- Rounds in which the loop runs its cycle, if there is one, and takes the next trigger, if there is one. -/
def drain (stops : Stops) : Nat → List Move
  | 0 => []
  | k + 1 => .run stops :: .wake .trigger :: drain stops k

theorem Quiet.wake (h : s.Quiet) (hruns : s.process.cannotRun = false) : s.wake .trigger = s := by
  obtain ⟨hnone, hdone⟩ := h
  have hready : s.process.isReady s.engine .trigger = false := by
    rcases hdone with hended | ⟨-, hempty⟩
    · simp [isReady, isWaiting, hended]
    · simp [isReady, hempty]
  simp [Looping.wake, hnone, hruns, hready]

theorem Quiet.drain (h : s.Quiet) (hruns : s.process.cannotRun = false) (stops : Stops) (k : Nat) :
    s.after (drain stops k) = s := by
  induction k with
  | zero => rfl
  | succ k ih =>
    have hrun : s.run stops = s := by simp [Looping.run, h.1]
    have hround : s.after (Looping.drain stops (k + 1)) =
        ((s.run stops).wake .trigger).after (Looping.drain stops k) := rfl
    rw [hround, hrun, h.wake hruns, ih]

/-- A loop that has been started and runs no cycle waits, or has nothing more to do. -/
theorem Serves.waits_or_quiet (h : Serves p m requested s) (hstarted : s.process.loop ≠ .unstarted)
    (hnone : s.running = none) : s.process.isWaiting = true ∨ s.Quiet := by
  cases hloop : s.process.loop with
  | unstarted => exact absurd hloop hstarted
  | broken => exact absurd hloop h.unbroken
  | waiting ticks => exact .inl (isWaiting_iff.2 ⟨ticks, hloop⟩)
  | ended => exact .inr ⟨hnone, .inl hloop⟩

/-- Running the cycle that the loop has been woken for leaves nothing to be run, and the triggers where they are. -/
theorem Serves.run_idle (h : Serves p m requested s) (hstarted : s.process.loop ≠ .unstarted) (stops : Stops) :
    (s.run stops).running = none ∧ (s.run stops).process.triggers = s.process.triggers ∧
      (s.run stops).process.loop ≠ .unstarted := by
  cases ht : s.running with
  | none => simpa [Looping.run, ht] using hstarted
  | some t =>
    obtain ⟨notice, retained, stopping, loop, engine, -, hrun, hloop⟩ := h.run_eq ht stops
    rw [hrun, hloop]
    refine ⟨rfl, rfl, ?_⟩
    dsimp only
    split
    · simp
    · exact hstarted

/-- A loop that waits is woken by the first trigger in the queue. -/
theorem wake_next {t : CycleTrigger} {rest : List CycleTrigger} (hnone : s.running = none)
    (hruns : s.process.cannotRun = false) (hwaiting : s.process.isWaiting = true)
    (hqueue : s.process.triggers = t :: rest) :
    s.wake .trigger = { s with process := { s.process with triggers := rest }, running := some t } := by
  have hready : s.process.isReady s.engine .trigger = true := by simp [isReady, hwaiting, hqueue]
  simp [Looping.wake, hnone, hruns, hready, Process.wake, hqueue]

/-- A loop that has been started comes to rest after as many rounds as there are triggers, and one. -/
theorem Serves.drain_quiet (h : Serves p m requested s) (hm : p.options.maxCycles = some m)
    (hinterval : p.options.interval = none) (hstarted : s.process.loop ≠ .unstarted) (stops : Stops) :
    (s.after (drain stops (s.process.triggers.length + 1))).Quiet := by
  induction hk : s.process.triggers.length generalizing s with
  | zero =>
    obtain ⟨hnone, htriggers, hstarted'⟩ := h.run_idle hstarted stops
    have hserves : Serves p m requested (s.run stops) := h.run hm stops
    have hquiet : (s.run stops).Quiet := by
      rcases hserves.waits_or_quiet hstarted' hnone with hwaiting | hquiet
      · exact ⟨hnone, .inr ⟨hwaiting, htriggers.trans (List.length_eq_zero_iff.1 hk)⟩⟩
      · exact hquiet
    have hround : s.after (drain stops 1) = (s.run stops).wake .trigger := rfl
    rwa [hround, hquiet.wake (cannotRun_eq_false hserves.toWithin hinterval)]
  | succ k ih =>
    obtain ⟨hnone, htriggers, hstarted'⟩ := h.run_idle hstarted stops
    have hserves : Serves p m requested (s.run stops) := h.run hm stops
    have hruns := cannotRun_eq_false hserves.toWithin hinterval
    have hround : s.after (drain stops (k + 1 + 1)) =
      ((s.run stops).wake .trigger).after (drain stops (k + 1)) := rfl
    rw [hround]
    rcases hserves.waits_or_quiet hstarted' hnone with hwaiting | hquiet
    · -- The next trigger wakes the loop, and is no longer in the queue.
      obtain ⟨t, rest, hqueue⟩ : ∃ t rest, (s.run stops).process.triggers = t :: rest :=
        List.exists_cons_of_ne_nil (by simp [htriggers, ← List.length_pos_iff, hk])
      have hwake := wake_next hnone hruns hwaiting hqueue
      have hwoken : Serves p m requested ((s.run stops).wake .trigger) := hserves.wake hinterval
      rw [hwake] at hwoken ⊢
      refine ih hwoken hstarted' ?_
      rw [← htriggers, hqueue, List.length_cons] at hk
      exact Nat.succ.inj hk
    · rwa [hquiet.wake hruns, hquiet.drain hruns]

/-! ## Whole sessions -/

/-- No cycle more than the limit, or than one if there may be none, and the loop has ended once they have been run.
Each cycle is counted and announced. -/
structure Limited (p : Process) (m : Nat) (s : Looping) : Prop where
  counted : s.told.length = s.process.cyclesRun
  notices : s.process.notices = p.notices.sendAll s.told
  bound : s.process.cyclesRun ≤ max m 1
  ends : s.process.cyclesRun = max m 1 → s.process.loop = .ended ∧ s.running = none

/-- Triggers are taken in their order, a cycle for each. When there is nothing more to do, which is so after finitely
many rounds, there has been a cycle for each trigger, or as many as there may be. -/
structure Served (p : Process) (m requested : Nat) (s : Looping) : Prop where
  inOrder : ∃ accepted ≤ requested,
    s.told.map (·.trigger) ++ s.running.toList ++ s.process.triggers = p.triggers ++ List.replicate accepted .manual
  cyclesRun_eq : s.Quiet → s.process.cyclesRun = min (max m 1) (p.triggers.length + requested)
  comesToRest : s.process.loop ≠ .unstarted → ∀ stops,
    (s.after (drain stops (s.process.triggers.length + 1))).Quiet ∧
      (s.after (drain stops (s.process.triggers.length + 1))).process.cyclesRun =
        min (max m 1) (p.triggers.length + requested)

theorem manual_drain (stops : Stops) (k : Nat) :
    (∀ move ∈ drain stops k, move.Manual) ∧ (drain stops k).countP Move.requests = 0 := by
  induction k with
  | zero => exact ⟨by simp [drain], rfl⟩
  | succ k ih => exact ⟨by simpa [drain, Move.Manual] using ih.1, by simpa [drain, Move.requests] using ih.2⟩

/-- A loop that may run `m` cycles runs at most so many, but one if it may run none, and ends with the last, whatever
wakes it and whatever else goes on. Woken by triggers alone, it serves them. -/
theorem after_limited (hp : p.Unstarted) (hm : p.options.maxCycles = some m) (e : Engine) (moves : List Move) :
    Limited p m (after { process := p, engine := e } moves) ∧
      (p.options.interval = none → (∀ move ∈ moves, move.Manual) →
        Served p m (moves.countP Move.requests) (after { process := p, engine := e } moves)) := by
  have hwithin : Within p m (after { process := p, engine := e } moves) := (within_start hp).after hm moves
  refine ⟨⟨hwithin.counted, hwithin.notices, hwithin.bound, fun hfull => ?_⟩, fun hinterval hmanual => ?_⟩
  · have hended : (after { process := p, engine := e } moves).process.loop = .ended := by
      by_contra hopen
      have hbelow := hwithin.below hopen
      omega
    refine ⟨hended, Option.not_isSome_iff_eq_none.1 fun hsome => ?_⟩
    obtain ⟨ticks, hticks⟩ := isWaiting_iff.1 (hwithin.waiting hsome)
    cases hended.symm.trans hticks
  · have hserves := (serves_start (e := e) (m := m) hp).after hm hinterval hmanual
    rw [Nat.zero_add] at hserves
    obtain ⟨accepted, hle, horder, -⟩ := hserves.inOrder
    refine ⟨⟨accepted, hle, horder⟩, hserves.cyclesRun_eq, fun hstarted stops => ?_⟩
    have hquiet := hserves.drain_quiet hm hinterval hstarted stops
    obtain ⟨hdrain, hnone⟩ := manual_drain stops (Looping.process (after ⟨p, e, none, []⟩ moves)).triggers.length.succ
    have hdrained := hserves.after hm hinterval hdrain
    rw [hnone] at hdrained
    exact ⟨hquiet, hdrained.cyclesRun_eq hquiet⟩

/-- A process that listens to no ticks and may run some cycles. -/
def demo (maxCycles : Nat) : Process :=
  { Demo.process with options := { runOnLiveTicks := false, maxCycles := some maxCycles } }

/-- The loop is started, and asked for a cycle three times. -/
def demoMoves : List Move := .call (.start true) :: List.replicate 3 (.call .trigger)

theorem demo_limited : (demo 2).Unstarted ∧ (demo 2).options.maxCycles = some 2 ∧ (demo 2).options.interval = none ∧
    (∀ move ∈ demoMoves, move.Manual) ∧
    Limited (demo 2) 2 (after { process := demo 2, engine := Demo.engine } demoMoves) ∧
    Served (demo 2) 2 3 (after { process := demo 2, engine := Demo.engine } demoMoves) ∧
    (after { process := demo 2, engine := Demo.engine } (demoMoves ++ drain Stops.none 4)).process.cyclesRun = 2 := by
  have hunstarted : (demo 2).Unstarted := ⟨rfl, rfl⟩
  have hmanual : ∀ move ∈ demoMoves, move.Manual := by simp [demoMoves, Move.Manual]
  obtain ⟨hlimited, hserved⟩ := after_limited hunstarted rfl Demo.engine demoMoves
  have hthree : Served (demo 2) 2 3 (after { process := demo 2, engine := Demo.engine } demoMoves) :=
    hserved rfl hmanual
  refine ⟨hunstarted, rfl, rfl, hmanual, hlimited, hthree, ?_⟩
  obtain ⟨-, hcyclesRun⟩ := hthree.comesToRest nofun Stops.none
  rw [after, List.foldl_append]
  exact hcyclesRun

/-- A loop that may run no cycle runs one if it is asked for one. -/
theorem limit_zero : ∃ moves : List Move, (∀ move ∈ moves, move.Manual) ∧ moves.countP Move.requests = 1 ∧
    (demo 0).Unstarted ∧ (demo 0).options.maxCycles = some 0 ∧
    (after { process := demo 0, engine := Demo.engine } moves).process.cyclesRun = 1 := by
  refine ⟨[.call (.start true), .call .trigger, .wake .trigger, .run Stops.none], ?_, rfl, ⟨rfl, rfl⟩, rfl, rfl⟩
  simp [Move.Manual]

end

end Looping
end Valuation
