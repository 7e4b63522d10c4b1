import Valuation.Proofs.Batch.Ending

/-!
# The cycle that a batch shows

A run records its cycle on the batch as the batch is by then, whatever it was when the run read its job. If it is in
the same attempt, the batch shows a cycle of its attempt; if it is not being ended either, the cycle that it shows
when it has ended is the one of its record (`recorded_cycle`). Nothing makes a run record in time, and one that
records late breaks both (`recorded_late`).
-/
namespace Valuation
namespace BatchManager
namespace Session

/-! ## Recording -/

/-- A run of a batch has performed its cycle in an attempt. -/
def Ran (s : Session) (b : BatchId) (attempt : Nat) (c : Cycle) : Prop :=
  ∃ r ∈ s.runs, r.batch = b ∧ r.attempt = attempt ∧ r.cycle = some c

/-- With a move, a run records its cycle on a batch. -/
structure Recording (s : Session) (m : Move) (b : BatchId) (run : BatchRun) (r : RunCall) : Prop where
  place : ∃ k, m = .record k ∧ s.runs[k]? = some r
  batch : r.batch = b
  performed : ∃ c, r.cycle = some c
  new : r.recorded = false
  stands : s.manager.batches.get? b = some run

/-- In the course of some moves, a batch is in a certain state whenever a run records its cycle. -/
def RecordsWhile (b : BatchId) (p : BatchRun → RunCall → Prop) (s : Session) : List Move → Prop
  | [] => True
  | m :: moves => (∀ run r, s.Recording m b run r → p run r) ∧ RecordsWhile b p (s.step m) moves

/-- The batch is in the attempt that the run has read. -/
def SameAttempt (run : BatchRun) (r : RunCall) : Prop := r.attempt = run.attempt

/-- The batch is running and nobody is ending it. -/
def Open (run : BatchRun) (_ : RunCall) : Prop := run.status = .running ∧ run.ending = false

theorem recordsWhile_concat {b : BatchId} {p : BatchRun → RunCall → Prop} {s : Session} {moves : List Move}
    {m : Move} :
    RecordsWhile b p s (moves ++ [m]) ↔
      RecordsWhile b p s moves ∧ ∀ run r, (s.after moves).Recording m b run r → p run r := by
  induction moves generalizing s with
  | nil => simp [RecordsWhile, after]
  | cons m' moves ih => simp only [List.cons_append, RecordsWhile, ih, and_assoc, after, List.foldl_cons]

section
variable {s s' : Session} {m : Move} {b : BatchId}

theorem Takes.ran (htakes : s.Takes m s') {n : Nat} {c : Cycle} (h : s.Ran b n c) : s'.Ran b n c := by
  obtain ⟨r, hr, hbatch, hattempt, hc⟩ := h
  cases htakes with
  | read => exact ⟨r, List.mem_append_left _ hr, hbatch, hattempt, hc⟩
  | @perform k _ r' x c' _ hr' hnone =>
    obtain ⟨j, hj⟩ := List.getElem?_of_mem hr
    have hjk : k ≠ j := by
      rintro rfl
      obtain rfl := Option.some.inj (hr'.symm.trans hj)
      cases hnone.symm.trans hc
    exact ⟨r, List.mem_of_getElem? ((List.getElem?_set_ne hjk).trans hj), hbatch, hattempt, hc⟩
  | @record k r' c' hr' =>
    obtain ⟨j, hj⟩ := List.getElem?_of_mem hr
    by_cases hjk : k = j
    · subst hjk
      obtain rfl := Option.some.inj (hr'.symm.trans hj)
      obtain ⟨hlt, -⟩ := List.getElem?_eq_some_iff.1 hj
      exact ⟨{ r' with recorded := true }, List.mem_set hlt _, hbatch, hattempt, hc⟩
    · exact ⟨r, List.mem_of_getElem? ((List.getElem?_set_ne hjk).trans hj), hbatch, hattempt, hc⟩
  | create | change | first | again | beginEnd | save | finishEnd | compile | wait =>
    exact ⟨r, hr, hbatch, hattempt, hc⟩

/-- A batch has the cycle that it had, in the same attempt; it has none; or a run has just recorded it. -/
theorem Takes.cycle (htakes : s.Takes m s') {run' : BatchRun} (hrun' : s'.manager.batches.get? b = some run') :
    (∃ run, s.manager.batches.get? b = some run ∧ run'.cycle = run.cycle ∧ run'.attempt = run.attempt) ∨
      run'.cycle = none ∨
      ∃ run r c, s.Recording m b run r ∧ r.cycle = some c ∧ run' = { run with cycle := some c } := by
  cases htakes with
  | first | again =>
    rw [Table.get?_insert] at hrun'
    split at hrun'
    · cases hrun'
      exact .inr (.inl rfl)
    · exact .inl ⟨run', hrun', rfl, rfl⟩
  | @record k r c hr hc hnew =>
    rw [Table.get?_modify] at hrun'
    split at hrun'
    · next hb =>
      obtain ⟨run, hrun, rfl⟩ := Option.map_eq_some_iff.1 hrun'
      exact .inr (.inr ⟨run, r, c, ⟨⟨k, rfl, hr⟩, hb, ⟨c, hc⟩, hnew, hrun⟩, hc, rfl⟩)
    · exact .inl ⟨run', hrun', rfl, rfl⟩
  | @beginEnd b' run x hrun =>
    rw [Table.get?_insert] at hrun'
    split at hrun'
    · next hb =>
      cases hrun'
      exact .inl ⟨run, hb ▸ hrun, rfl, rfl⟩
    · exact .inl ⟨run', hrun', rfl, rfl⟩
  | finishEnd =>
    rw [Table.get?_modify] at hrun'
    split at hrun'
    · obtain ⟨run, hrun, rfl⟩ := Option.map_eq_some_iff.1 hrun'
      exact .inl ⟨run, hrun, rfl, rfl⟩
    · exact .inl ⟨run', hrun', rfl, rfl⟩
  | create | change | read | perform | save | compile | wait => exact .inl ⟨run', hrun', rfl, rfl⟩

/-! ## The attempt of a cycle -/

theorem WellFormed.attempt_le (h : s.WellFormed) {r : RunCall} (hr : r ∈ s.runs) {run : BatchRun}
    (hrun : s.manager.batches.get? r.batch = some run) : r.attempt ≤ run.attempt := by
  have hvalid := h.runs r hr
  obtain ⟨run', hrun', hle⟩ := h.attempts.latest _ _ hvalid.started
  rw [hvalid.batch, hrun] at hrun'
  exact Option.some.inj hrun' ▸ hle

/-- The cycle on a batch has been performed in an attempt up to now, and in this one if runs have recorded in
theirs. -/
theorem ran_of_recorded {e : Engine} {moves : List Move} {run : BatchRun} {c : Cycle}
    (hrun : (after { engine := e } moves).manager.batches.get? b = some run) (hc : run.cycle = some c) :
    ∃ n ≤ run.attempt, (after { engine := e } moves).Ran b n c ∧
      (RecordsWhile b SameAttempt { engine := e } moves → n = run.attempt) := by
  induction moves using List.reverseRecOn generalizing run c with
  | nil => exact nomatch hrun
  | append_singleton moves m ih =>
    have hwell := ((wellFormed_start e).after moves).1
    rw [after_concat] at hrun ⊢
    simp only [recordsWhile_concat]
    obtain heq | htakes := (after { engine := e } moves).step_cases m
    · rw [heq] at hrun ⊢
      obtain ⟨n, hle, hran, hsame⟩ := ih hrun hc
      exact ⟨n, hle, hran, fun hrecords => hsame hrecords.1⟩
    obtain ⟨old, hold, hcycle, hattempt⟩ | hnone | ⟨old, r, c', hrecording, hc', rfl⟩ := htakes.cycle hrun
    · obtain ⟨n, hle, hran, hsame⟩ := ih hold (hcycle ▸ hc)
      exact ⟨n, hattempt ▸ hle, htakes.ran hran, fun hrecords => hattempt ▸ hsame hrecords.1⟩
    · cases hnone.symm.trans hc
    · obtain rfl := Option.some.inj hc
      obtain ⟨k, -, hr⟩ := hrecording.place
      have hmem := List.mem_of_getElem? hr
      have hle : r.attempt ≤ old.attempt := hwell.attempt_le hmem (hrecording.batch ▸ hrecording.stands)
      exact ⟨r.attempt, hle, htakes.ran ⟨r, hmem, hrecording.batch, rfl, hc'⟩,
        fun hrecords => hrecords.2 old r hrecording⟩

/-! ## The cycle of a record -/

/-- Wherever a record of a batch is the one that counts, it names the cycle that the batch shows. -/
structure Named (s : Session) (b : BatchId) (run : BatchRun) : Prop where
  pending : ∀ k e, Pending s.ends k e → e.batch = b → e.record.cycle = run.cycle.map (·.id)
  ended : run.status = .ended → ∀ record, s.store.load? b = some record → record.cycle = run.cycle.map (·.id)

/-- While nobody ends a batch, no record of it counts. -/
theorem Endings.named (h : s.Endings)
    (hfree : ∀ old, s.manager.batches.get? b = some old → old.status = .ended ∨ old.ending = false)
    {run : BatchRun} (hrunning : run.status = .running) : s.Named b run := by
  refine ⟨fun k e he hb => ?_, fun hended => by cases hrunning.symm.trans hended⟩
  obtain ⟨old, hold, hrunning', hending, -⟩ := h.held k e he
  obtain hended | hidle := hfree old (hb ▸ hold)
  · cases hrunning'.symm.trans hended
  · cases hidle.symm.trans hending

/-- Names stay as they are while ends and the store do. -/
theorem Named.of_eq {run : BatchRun} (h : s.Named b run) (hends : s'.ends = s.ends) (hstore : s'.store = s.store) :
    s'.Named b run := by
  refine ⟨?_, ?_⟩
  · rw [hends]
    exact h.pending
  · rw [hstore]
    exact h.ended

theorem Named.beginEnd {run : BatchRun} (h : s.Named b run) (hrunning : run.status = .running) (x : Snapshot)
    (now : Instant) (hends : s'.ends = s.ends ++ [{ batch := b, record := recordOf run x now, cycle := run.cycle }]) :
    s'.Named b { run with ending := true } := by
  refine ⟨fun k e he hb => ?_, fun hended => by cases hrunning.symm.trans hended⟩
  rw [hends] at he
  obtain he | ⟨-, rfl⟩ := pending_append he
  · exact h.pending k e he hb
  · rfl

/-- The end of another batch begins. -/
theorem Named.append {run : BatchRun} (h : s.Named b run) {e : EndCall} (hb : e.batch ≠ b)
    (hends : s'.ends = s.ends ++ [e]) (hstore : s'.store = s.store) : s'.Named b run := by
  refine ⟨fun k e' he' heb => ?_, ?_⟩
  · rw [hends] at he'
    obtain he' | ⟨-, rfl⟩ := pending_append he'
    · exact h.pending k e' he' heb
    · exact absurd heb hb
  · rw [hstore]
    exact h.ended

theorem Named.save {run : BatchRun} (h : s.Named b run) (hrun : s.manager.batches.get? b = some run)
    (hendings : s.Endings) {k : Nat} {e : EndCall} (hpending : Pending s.ends k e) (hbatch : e.record.batch = e.batch)
    {result : Except ServiceError Unit} (hends : s'.ends = s.ends.set k { e with saved := some result })
    (hstore : s'.store = if result.isOk then s.store.save e.record else s.store) : s'.Named b run := by
  refine ⟨fun j e' he' hb => ?_, fun hended record hrecord => ?_⟩
  · rw [hends] at he'
    obtain ⟨-, he'⟩ | ⟨-, rfl⟩ := pending_set he'
    · exact h.pending j e' he' hb
    · exact h.pending k e hpending hb
  -- What is saved belongs to a batch that is running still.
  · have hb : e.record.batch ≠ b := by
      rw [hbatch]
      rintro rfl
      obtain ⟨run', hrun', hrunning, -⟩ := hendings.held k e hpending
      obtain rfl := Option.some.inj (hrun.symm.trans hrun')
      cases hrunning.symm.trans hended
    refine h.ended hended record ?_
    rw [hstore] at hrecord
    split at hrecord
    · rwa [load?_save, if_neg hb] at hrecord
    · exact hrecord

theorem Named.finishEnd {run : BatchRun} (h : s.Named b run) (hendings : s.Endings) {k : Nat} {e : EndCall}
    {result : Except ServiceError Unit} (hpending : Pending s.ends k e) (hsaved : e.saved = some result)
    (hb : e.batch = b) (hends : s'.ends = s.ends.set k { e with finished := true }) (hstore : s'.store = s.store) :
    s'.Named b { run with ending := false, status := if result.isOk then .ended else run.status } := by
  refine ⟨fun j e' he' => ?_, fun hended record hrecord => ?_⟩
  · rw [hends] at he'
    exact h.pending j e' (pending_set_finished he').2
  · rw [hstore] at hrecord
    cases result with
    | ok _ =>
      have hstored := hendings.stored k e hpending hsaved
      rw [hb] at hstored
      obtain rfl : e.record = record := Option.some.inj (hstored.symm.trans hrecord)
      exact h.pending k e hpending hb
    | error _ => exact h.ended hended record hrecord

/-- The end of another batch is over. -/
theorem Named.set {run : BatchRun} (h : s.Named b run) {k : Nat} {e : EndCall}
    (hends : s'.ends = s.ends.set k { e with finished := true }) (hstore : s'.store = s.store) : s'.Named b run := by
  refine ⟨fun j e' he' => ?_, ?_⟩
  · rw [hends] at he'
    exact h.pending j e' (pending_set_finished he').2
  · rw [hstore]
    exact h.ended

theorem Takes.named (hwell : s.WellFormed) (hendings : s.Endings) (htakes : s.Takes m s')
    (hopen : ∀ run r, s.Recording m b run r → Open run r)
    (h : ∀ run, s.manager.batches.get? b = some run → s.Named b run) :
    ∀ run', s'.manager.batches.get? b = some run' → s'.Named b run' := by
  intro run' hrun'
  cases htakes with
  | @first job hnone =>
    rw [Table.get?_insert] at hrun'
    split at hrun'
    · next hb =>
      cases hrun'
      have hfree : ∀ old, s.manager.batches.get? b = some old → old.status = .ended ∨ old.ending = false := by
        intro old hold
        cases hnone.symm.trans (hb ▸ hold)
      exact (hendings.named hfree rfl).of_eq rfl rfl
    · exact (h run' hrun').of_eq rfl rfl
  | @again job run hrun hended =>
    rw [Table.get?_insert] at hrun'
    split at hrun'
    · next hb =>
      cases hrun'
      have hfree : ∀ old, s.manager.batches.get? b = some old → old.status = .ended ∨ old.ending = false := by
        intro old hold
        obtain rfl := Option.some.inj (hrun.symm.trans (hb ▸ hold))
        exact .inl hended
      exact (hendings.named hfree rfl).of_eq rfl rfl
    · exact (h run' hrun').of_eq rfl rfl
  | @record k r c hr hc hnew =>
    rw [Table.get?_modify] at hrun'
    split at hrun'
    · next hb =>
      obtain ⟨run, hrun, rfl⟩ := Option.map_eq_some_iff.1 hrun'
      obtain ⟨hrunning, hidle⟩ := hopen run r ⟨⟨k, rfl, hr⟩, hb, ⟨c, hc⟩, hnew, hrun⟩
      have hfree : ∀ old, s.manager.batches.get? b = some old → old.status = .ended ∨ old.ending = false := by
        intro old hold
        obtain rfl := Option.some.inj (hrun.symm.trans hold)
        exact .inr hidle
      have hnamed : s.Named b { run with cycle := some c } := hendings.named hfree hrunning
      exact hnamed.of_eq rfl rfl
    · exact (h run' hrun').of_eq rfl rfl
  | @beginEnd b' run x hrun hrunning =>
    rw [Table.get?_insert] at hrun'
    split at hrun'
    · next hb =>
      subst hb
      cases hrun'
      exact (h run hrun).beginEnd hrunning x s.engine.now rfl
    · next hb => exact (h run' hrun').append hb rfl rfl
  | @save k result e he hnone =>
    exact (h run' hrun').save hrun' hendings (hendings.pending he hnone)
      (hwell.ends e (List.mem_of_getElem? he)).record_batch rfl rfl
  | @finishEnd k e result he hsaved hunfinished =>
    rw [Table.get?_modify] at hrun'
    split at hrun'
    · next hb =>
      obtain ⟨run, hrun, rfl⟩ := Option.map_eq_some_iff.1 hrun'
      exact (h run hrun).finishEnd hendings ⟨he, hunfinished⟩ hsaved hb rfl rfl
    · exact (h run' hrun').set rfl rfl
  | create | change | read | perform | compile | wait => exact (h run' hrun').of_eq rfl rfl

/-- If the runs of a batch have all recorded while it was open, every record that counts names the cycle that the
batch shows. -/
theorem named_of_recordsWhile {e : Engine} {moves : List Move}
    (hopen : RecordsWhile b Open { engine := e } moves) :
    ∀ run, (after { engine := e } moves).manager.batches.get? b = some run →
      (after { engine := e } moves).Named b run := by
  induction moves using List.reverseRecOn with
  | nil => exact fun _ hrun => nomatch hrun
  | append_singleton moves m ih =>
    obtain ⟨hbefore, hlast⟩ := recordsWhile_concat.1 hopen
    have hwell := ((wellFormed_start e).after moves).1
    have hendings := (endings_start e).after (wellFormed_start e) moves
    rw [after_concat]
    obtain heq | htakes := (after { engine := e } moves).step_cases m
    · rw [heq]
      exact ih hbefore
    · exact htakes.named hwell hendings hlast (ih hbefore)

/-! ## A session -/

/-- Take any session, and a batch in it. The cycle that it shows was performed by a run of the batch, in an attempt
up to the present one, and in the present one if every run has recorded in its own. When the batch has ended, the
store has the record of the attempt, and this names the cycle that the batch shows if every run has recorded while
the batch was open. -/
theorem recorded_cycle {e : Engine} {moves : List Move} {run : BatchRun}
    (hrun : (after { engine := e } moves).manager.batches.get? b = some run) :
    (∀ c, run.cycle = some c → ∃ n ≤ run.attempt, (after { engine := e } moves).Ran b n c ∧
      (RecordsWhile b SameAttempt { engine := e } moves → n = run.attempt)) ∧
    (run.status = .ended → ∃ record, (after { engine := e } moves).store.load? b = some record ∧
      record.attempt = run.attempt ∧
      (RecordsWhile b Open { engine := e } moves → record.cycle = run.cycle.map (·.id))) := by
  refine ⟨fun c hc => ran_of_recorded hrun hc, fun hended => ?_⟩
  obtain ⟨record, hrecord, hattempt⟩ := ((endings_start e).after (wellFormed_start e) moves).ended b run hrun hended
  exact ⟨record, hrecord, hattempt, fun hopen => (named_of_recordsWhile hopen run hrun).ended hended record hrecord⟩

end

/-! ### In time and late -/

/-- A run records its cycle, and the batch is ended afterwards. -/
def inTime : List Move :=
  [.start Demo.job, .create default, .read Demo.job.batch Demo.singleView, .perform 0 {}, .record 0,
    .change default .markComplete, .beginEnd Demo.job.batch, .save 0 (.ok ()), .finishEnd 0]

theorem recordsWhile_cons_of_ne {b : BatchId} {p : BatchRun → RunCall → Prop} {s : Session} {m : Move}
    {moves : List Move} (hm : ∀ k, m ≠ .record k) :
    RecordsWhile b p s (m :: moves) ↔ RecordsWhile b p (s.step m) moves := by
  refine and_iff_right fun run r h => ?_
  obtain ⟨k, hk, -⟩ := h.place
  exact absurd hk (hm k)

theorem recordsWhile_inTime {p : BatchRun → RunCall → Prop}
    (h : ∀ run r, Open run r → SameAttempt run r → p run r) :
    RecordsWhile Demo.job.batch p { engine := Demo.engine } inTime := by
  unfold inTime
  iterate 4 refine (recordsWhile_cons_of_ne (by simp)).2 ?_
  refine ⟨fun run r hrecording => ?_, ?_⟩
  · obtain ⟨k, hk, hr⟩ := hrecording.place
    cases hk
    obtain rfl := Option.some.inj hr
    obtain rfl := Option.some.inj hrecording.stands
    exact h _ _ ⟨rfl, rfl⟩ rfl
  · iterate 4 refine (recordsWhile_cons_of_ne (by simp)).2 ?_
    trivial

/-- A batch that is run and then ended. -/
theorem demo_recorded : ∃ run c record,
    (after { engine := Demo.engine } inTime).manager.batches.get? Demo.job.batch = some run ∧
      run.status = .ended ∧ run.cycle = some c ∧
      (after { engine := Demo.engine } inTime).Ran Demo.job.batch run.attempt c ∧
      (after { engine := Demo.engine } inTime).store.load? Demo.job.batch = some record ∧
      record.attempt = run.attempt ∧ record.cycle = some c.id := by
  obtain ⟨run, c, hrun, hended, hc⟩ : ∃ run c,
      (after { engine := Demo.engine } inTime).manager.batches.get? Demo.job.batch = some run ∧
        run.status = .ended ∧ run.cycle = some c := ⟨_, _, rfl, rfl, rfl⟩
  obtain ⟨hcycle, hrecord⟩ := recorded_cycle hrun
  obtain ⟨n, -, hran, hsame⟩ := hcycle c hc
  obtain ⟨record, hload, hattempt, hnamed⟩ := hrecord hended
  obtain rfl := hsame (recordsWhile_inTime fun _ _ _ h => h)
  refine ⟨run, c, record, hrun, hended, hc, hran, hload, hattempt, ?_⟩
  rw [hnamed (recordsWhile_inTime fun _ _ h _ => h), hc]
  rfl

/-- A second run records its cycle while the record of the first one is being saved. -/
def lateForEnd : List Move :=
  [.start Demo.job, .create default, .read Demo.job.batch Demo.singleView, .perform 0 {}, .record 0,
    .read Demo.job.batch Demo.singleView, .perform 1 {}, .change default .markComplete, .beginEnd Demo.job.batch,
    .record 1, .save 0 (.ok ()), .finishEnd 0]

/-- A run records its cycle when its batch has been ended and started again. -/
def lateForAttempt : List Move :=
  [.start Demo.job, .create default, .read Demo.job.batch Demo.singleView, .perform 0 {},
    .change default .markComplete, .beginEnd Demo.job.batch, .save 0 (.ok ()), .finishEnd 0, .start Demo.job,
    .record 0]

/-- A run that records late leaves an ended batch with a cycle that is not the one of its record, or a started
batch with a cycle that was not run in its attempt. -/
theorem recorded_late :
    (∃ run c record,
      (after { engine := Demo.engine } lateForEnd).manager.batches.get? Demo.job.batch = some run ∧
        run.status = .ended ∧ run.cycle = some c ∧
        (after { engine := Demo.engine } lateForEnd).store.load? Demo.job.batch = some record ∧
        record.attempt = run.attempt ∧ record.cycle ≠ some c.id) ∧
    ∃ run c,
      (after { engine := Demo.engine } lateForAttempt).manager.batches.get? Demo.job.batch = some run ∧
        run.cycle = some c ∧
        ∀ n, (after { engine := Demo.engine } lateForAttempt).Ran Demo.job.batch n c → n ≠ run.attempt := by
  have hids : some (CycleId.generate 0) ≠ some (CycleId.generate 1) := by decide
  refine ⟨⟨_, _, _, rfl, rfl, rfl, rfl, rfl, hids⟩, _, _, rfl, rfl, ?_⟩
  rintro n ⟨r, hr, -, rfl, -⟩
  obtain rfl := List.mem_singleton.1 hr
  exact (by decide : (1 : Nat) ≠ 2)

end Session
end BatchManager
end Valuation
