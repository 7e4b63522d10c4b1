import Valuation.Proofs.Batch.Session
import Valuation.Proofs.ResultModel

/-!
# What holds throughout a session with batches

No move takes a snapshot back or changes a sealed one, and no move forgets a start (`Keeps`). So whatever a run
or an end has taken from the manager stays what it was taken for (`WellFormed`): the job of a run is the one that
its attempt was started for, and the record of an end is of a snapshot that is still sealed. If the compiler
answers what compiling afresh gives, the cycle of a run shows what its graph means, on values that the snapshot
still has (`Faithful`).
-/
namespace Valuation

/-- A cycle has executed and has the results that its graph means on the values of a snapshot, or it has none. -/
inductive Cycle.Shows (c : Cycle) (options : ResultOptions) (x : Snapshot) : Prop
  | nothing (state : c.state ≠ .executed) (result : c.result = none)
  | results (g : Graph) (runnable : g.Runnable) (ready : x.state.reaches .complete = true)
    (state : c.state = .executed) (graph : c.graph = some g) (o : ExecutionOutcome) (agrees : o.Agrees g x)
    (time : Instant)
    (result : c.result = some (ResultModel.build c.id time g o.cache o.failures options))

namespace BatchManager

theorem Performed.shows {e : Engine} {job : BatchJob} {x : Snapshot} {d : ViewDefinition} {c : Cycle}
    (h : Performed e job x d c) (hcompiler : e.compiler.Current) : c.Shows d.options x := by
  cases h with
  | unready _ state result | uncompiled _ _ state result | stopped _ _ _ state result =>
    exact .nothing (by simp [state]) result
  | executed g ready compiled state graph goes result =>
    have hcompile := hcompiler.answer d (.snapshot x)
    rw [compiled] at hcompile
    have hg := Graph.runnable_of_compile hcompile.symm
    exact .results g.graph hg ready state graph _ (Executor.runUnder_agrees hg _ _ _ _ goes) _ result

/-- A cycle executes if its snapshot is complete and there is a graph for it, and has what its run comes to. -/
theorem Performed.executed_of_compile {e : Engine} {job : BatchJob} {x : Snapshot} {d : ViewDefinition} {c : Cycle}
    (h : Performed e job x d c) (hcompiler : e.compiler.Current) (hready : x.state.reaches .complete = true)
    {g : Graph} (hcompile : e.compiler.compileUncached d x.availability = .ok g)
    (hraised : ∀ k, e.interleaving.raised k = false) : c.state = .executed ∧
    ∃ o, o = e.executor.runUnder e.interleaving g x { attached := false } ∧
      c.result = some (ResultModel.build c.id job.valuationTime g o.cache o.failures d.options) := by
  have hanswer := hcompiler.answer d (.snapshot x)
  rw [hcompile] at hanswer
  cases h with
  | unready unready => cases hready.symm.trans unready
  | uncompiled err compiled =>
    rw [compiled] at hanswer
    cases hanswer
  | stopped g' compiled stops =>
    rw [compiled] at hanswer
    have hg := Graph.runnable_of_compile (hcompile.trans hanswer.symm)
    have hgoes := Executor.cancelled_eq_false hg x (c := { attached := false }) rfl (fun hattached => nomatch hattached)
      e.executor hraised
    cases hgoes.symm.trans stops
  | executed g' _ compiled state _ _ result =>
    rw [compiled] at hanswer
    obtain rfl : g'.graph = g := Except.ok.inj hanswer
    exact ⟨state, _, rfl, result⟩

namespace Session

/-! ## What no move takes back -/

structure Keeps (s s' : Session) : Prop where
  snapshots : ∀ id x, s.manager.snapshots.get? id = some x →
    ∃ x', s'.manager.snapshots.get? id = some x' ∧ x.Later x' ∧ (x.isSealed = true → x' = x)
  starts : s.starts ⊆ s'.starts

theorem Keeps.refl (s : Session) : s.Keeps s :=
  ⟨fun _ x hx => ⟨x, hx, .refl x, fun _ => rfl⟩, List.Subset.refl _⟩

theorem Keeps.trans {s s' s'' : Session} (h : s.Keeps s') (h' : s'.Keeps s'') : s.Keeps s'' := by
  refine ⟨fun id x hx => ?_, List.Subset.trans h.starts h'.starts⟩
  obtain ⟨x', hx', hlater, hsealed⟩ := h.snapshots id x hx
  obtain ⟨x'', hx'', hlater', hsealed'⟩ := h'.snapshots id x' hx'
  refine ⟨x'', hx'', hlater.trans hlater', fun hx => ?_⟩
  obtain rfl := hsealed hx
  exact hsealed' hx

theorem Keeps.of_eq {s s' : Session} (hsnapshots : s'.manager.snapshots = s.manager.snapshots)
    (hstarts : s.starts ⊆ s'.starts) : s.Keeps s' := by
  refine ⟨fun id x hx => ?_, hstarts⟩
  rw [hsnapshots]
  exact (Keeps.refl s).snapshots id x hx

/-! ## What is taken from the manager -/

/-- Every batch is in the attempt that it was started for last, with the job of that start. -/
structure Attempts (batches : Table BatchId BatchRun) (starts : List (Nat × BatchJob)) : Prop where
  current : ∀ b run, batches.get? b = some run → run.job.batch = b ∧ (run.attempt, run.job) ∈ starts
  latest : ∀ n job, (n, job) ∈ starts → ∃ run, batches.get? job.batch = some run ∧ n ≤ run.attempt
  unique : ∀ n job job', (n, job) ∈ starts → (n, job') ∈ starts → job.batch = job'.batch → job = job'

structure RunValid (s : Session) (r : RunCall) : Prop where
  batch : r.job.batch = r.batch
  started : (r.attempt, r.job) ∈ s.starts

structure EndValid (s : Session) (e : EndCall) : Prop where
  taken : ∃ run x now, e.record = recordOf run x now ∧ run.cycle = e.cycle ∧ run.job.batch = e.batch ∧
    (run.attempt, run.job) ∈ s.starts ∧ s.manager.snapshots.get? run.job.snapshot = some x ∧ x.isSealed = true

/-- The cycle of a run shows a snapshot as it was once, and the snapshot is still there. -/
def RunShows (s : Session) (r : RunCall) : Prop :=
  ∀ c, r.cycle = some c → ∃ x x', s.manager.snapshots.get? r.job.snapshot = some x' ∧ x.Later x' ∧
    c.Shows r.definition.options x

structure WellFormed (s : Session) : Prop where
  snapshots : ∀ id x, s.manager.snapshots.get? id = some x → x.WellFormed
  attempts : Attempts s.manager.batches s.starts
  runs : ∀ r ∈ s.runs, s.RunValid r
  ends : ∀ e ∈ s.ends, s.EndValid e

structure Faithful (s : Session) : Prop extends WellFormed s where
  compiler : s.engine.compiler.Current
  shows : ∀ r ∈ s.runs, s.RunShows r

theorem RunValid.keeps {s s' : Session} {r : RunCall} (h : s.RunValid r) (hkeeps : s.Keeps s') :
    s'.RunValid r :=
  ⟨h.batch, hkeeps.starts h.started⟩

theorem RunShows.keeps {s s' : Session} {r : RunCall} (h : s.RunShows r) (hkeeps : s.Keeps s') :
    s'.RunShows r := by
  intro c hc
  obtain ⟨x, x', hx', hlater, hshows⟩ := h c hc
  obtain ⟨x'', hx'', hlater', -⟩ := hkeeps.snapshots _ x' hx'
  exact ⟨x, x'', hx'', hlater.trans hlater', hshows⟩

theorem EndValid.keeps {s s' : Session} {e : EndCall} (h : s.EndValid e) (hkeeps : s.Keeps s') :
    s'.EndValid e := by
  obtain ⟨run, x, now, hrecord, hcycle, hbatch, hstarted, hx, hsealed⟩ := h.taken
  obtain ⟨x', hx', -, hsame⟩ := hkeeps.snapshots _ x hx
  obtain rfl := hsame hsealed
  exact ⟨run, x', now, hrecord, hcycle, hbatch, hkeeps.starts hstarted, hx', hsealed⟩

theorem Attempts.start {batches : Table BatchId BatchRun} {starts : List (Nat × BatchJob)}
    (h : Attempts batches starts) {job : BatchJob} {run : BatchRun} (hjob : run.job = job)
    (hnew : ∀ old, batches.get? job.batch = some old → old.attempt < run.attempt) :
    Attempts (batches.insert job.batch run) (starts ++ [(run.attempt, job)]) := by
  have hfresh : ∀ other, (run.attempt, other) ∈ starts → other.batch ≠ job.batch := by
    intro other hother hbatch
    obtain ⟨old, hold, hle⟩ := h.latest _ other hother
    have hlt := hnew old (hbatch ▸ hold)
    omega
  refine ⟨fun b run' hrun' => ?_, fun n other hother => ?_, fun n job₁ job₂ h₁ h₂ hbatch => ?_⟩
  · rw [Table.get?_insert] at hrun'
    split at hrun'
    · next hb =>
      cases hrun'
      exact ⟨hjob ▸ hb, by simp [hjob]⟩
    · obtain ⟨hb, hmem⟩ := h.current b run' hrun'
      exact ⟨hb, List.mem_append_left _ hmem⟩
  · rw [Table.get?_insert]
    obtain hold | hnew' := List.mem_append.1 hother
    · obtain ⟨run', hrun', hle⟩ := h.latest n other hold
      split
      · next hb =>
        exact ⟨run, rfl, hle.trans (hnew run' (hb ▸ hrun')).le⟩
      · exact ⟨run', hrun', hle⟩
    · obtain ⟨rfl, rfl⟩ := Prod.mk.inj (List.mem_singleton.1 hnew')
      exact ⟨run, if_pos rfl, le_rfl⟩
  · simp only [List.mem_append, List.mem_singleton, Prod.mk.injEq] at h₁ h₂
    obtain h₁ | ⟨rfl, rfl⟩ := h₁ <;> obtain h₂ | ⟨hn, rfl⟩ := h₂
    · exact h.unique n job₁ job₂ h₁ h₂ hbatch
    · exact absurd hbatch (hfresh job₁ (hn ▸ h₁))
    · exact absurd hbatch.symm (hfresh job₂ h₂)
    · rfl

/-- Attempts stay as they are while batches keep their jobs and the numbers of their attempts. -/
theorem Attempts.of_eq {batches batches' : Table BatchId BatchRun} {starts : List (Nat × BatchJob)}
    (h : Attempts batches starts)
    (heq : ∀ b, (batches'.get? b).map (fun run => (run.attempt, run.job)) =
      (batches.get? b).map fun run => (run.attempt, run.job)) : Attempts batches' starts := by
  refine ⟨fun b run' hrun' => ?_, fun n job hjob => ?_, h.unique⟩
  · obtain ⟨run, hrun, hsame⟩ := Option.map_eq_some_iff.1 ((heq b).symm.trans (by rw [hrun']; rfl))
    obtain ⟨hattempt, hjob⟩ := Prod.mk.inj hsame
    rw [← hattempt, ← hjob]
    exact h.current b run hrun
  · obtain ⟨run, hrun, hle⟩ := h.latest n job hjob
    obtain ⟨run', hrun', hsame⟩ := Option.map_eq_some_iff.1 ((heq job.batch).trans (by rw [hrun]; rfl))
    exact ⟨run', hrun', (Prod.mk.inj hsame).1 ▸ hle⟩

theorem Attempts.modify {batches : Table BatchId BatchRun} {starts : List (Nat × BatchJob)}
    (h : Attempts batches starts) (b : BatchId) {f : BatchRun → BatchRun}
    (hf : ∀ run, (f run).attempt = run.attempt ∧ (f run).job = run.job) :
    Attempts (batches.modify b f) starts := by
  refine h.of_eq fun b' => ?_
  rw [Table.get?_modify]
  split
  · rw [Option.map_map]
    exact Option.map_congr fun run _ => Prod.ext (hf run).1 (hf run).2
  · rfl

/-! ## A move -/

section
variable {s s' : Session} {m : Move} (h : s.WellFormed) (htakes : s.Takes m s')
include h htakes

theorem Takes.keeps : s.Keeps s' := by
  cases htakes with
  | create hnone =>
    refine ⟨fun id x hx => ?_, List.Subset.refl _⟩
    rw [Table.get?_insert, if_neg]
    · exact ⟨x, hx, .refl x, fun _ => rfl⟩
    · rintro rfl
      cases hnone.symm.trans hx
  | @change id call x x' hx hcall =>
    refine ⟨fun id' y hy => ?_, List.Subset.refl _⟩
    rw [Table.get?_insert]
    split
    · next hid =>
      obtain rfl : x = y := Option.some.inj (hx.symm.trans (hid ▸ hy))
      exact ⟨x', rfl, ((h.snapshots id x hx).apply hcall).2, fun hsealed =>
        absurd hcall (Snapshot.not_ok_of_isSealed hsealed call)⟩
    · exact ⟨y, hy, .refl y, fun _ => rfl⟩
  | first | again => exact .of_eq rfl (List.subset_append_left ..)
  | read | perform | record | beginEnd | save | finishEnd | compile | wait => exact .of_eq rfl (List.Subset.refl _)

theorem Takes.snapshots : ∀ id x, s'.manager.snapshots.get? id = some x → x.WellFormed := by
  cases htakes with
  | create hnone =>
    intro id x hx
    rw [Table.get?_insert] at hx
    split at hx
    · cases hx
      exact Snapshot.wellFormed_new _
    · exact h.snapshots id x hx
  | @change id call x x' hx hcall =>
    intro id' y hy
    rw [Table.get?_insert] at hy
    split at hy
    · cases hy
      exact ((h.snapshots id x hx).apply hcall).1
    · exact h.snapshots id' y hy
  | first | again | read | perform | record | beginEnd | save | finishEnd | compile | wait => exact h.snapshots

theorem Takes.attempts : Attempts s'.manager.batches s'.starts := by
  cases htakes with
  | first hnone =>
    exact h.attempts.start rfl fun old hold => nomatch hnone.symm.trans hold
  | again hrun _ =>
    refine h.attempts.start rfl fun old hold => ?_
    obtain rfl := Option.some.inj (hrun.symm.trans hold)
    exact Nat.lt_succ_self _
  | record => exact h.attempts.modify _ fun _ => ⟨rfl, rfl⟩
  | finishEnd => exact h.attempts.modify _ fun _ => ⟨rfl, rfl⟩
  | @beginEnd b run x hrun =>
    refine h.attempts.of_eq fun b' => ?_
    rw [Table.get?_insert]
    split
    · next hb => rw [← hb, hrun]; rfl
    · rfl
  | create | change | read | perform | save | compile | wait => exact h.attempts

theorem Takes.runs : ∀ r ∈ s'.runs, s'.RunValid r := by
  have hkeeps := htakes.keeps h
  have hold : ∀ r ∈ s.runs, s'.RunValid r := fun r hr => (h.runs r hr).keeps hkeeps
  cases htakes with
  | @read b d run x hrun =>
    intro r hr
    obtain hr | hr := List.mem_append.1 hr
    · exact hold r hr
    · obtain rfl := List.mem_singleton.1 hr
      obtain ⟨hbatch, hstarted⟩ := h.attempts.current b run hrun
      exact ⟨hbatch, hstarted⟩
  | @perform k _ r _ _ _ hr | @record k r _ hr =>
    intro r' hr'
    obtain hr' | rfl := List.mem_or_eq_of_mem_set hr'
    · exact hold r' hr'
    · have hvalid := hold r (List.mem_of_getElem? hr)
      exact ⟨hvalid.batch, hvalid.started⟩
  | create | change | first | again | beginEnd | save | finishEnd | compile | wait => exact hold

theorem Takes.ends : ∀ e ∈ s'.ends, s'.EndValid e := by
  have hkeeps := htakes.keeps h
  have hold : ∀ e ∈ s.ends, s'.EndValid e := fun e he => (h.ends e he).keeps hkeeps
  cases htakes with
  | @beginEnd b run x hrun _ _ hx hsealed =>
    intro e he
    obtain he | he := List.mem_append.1 he
    · exact hold e he
    · obtain rfl := List.mem_singleton.1 he
      obtain ⟨hbatch, hstarted⟩ := h.attempts.current b run hrun
      exact ⟨run, x, s.engine.now, rfl, rfl, hbatch, hstarted, hx, hsealed⟩
  | @save k _ e he | @finishEnd k e _ he =>
    intro e' he'
    obtain he' | rfl := List.mem_or_eq_of_mem_set he'
    · exact hold e' he'
    · exact ⟨(hold e (List.mem_of_getElem? he)).taken⟩
  | create | change | first | again | read | perform | record | compile | wait => exact hold

end

section
variable {s s' : Session} {m : Move} (h : s.Faithful) (htakes : s.Takes m s')
include h htakes

theorem Takes.compiler : s'.engine.compiler.Current := by
  cases htakes with
  | @perform _ _ r x _ _ _ _ _ _ hcompiler =>
    obtain rfl | rfl := hcompiler
    · exact h.compiler
    · exact h.compiler.compile r.definition (.snapshot x)
  | @compile call listed => exact GraphCompiler.Call.current_apply h.compiler listed
  | create | change | first | again | read | record | beginEnd | save | finishEnd | wait => exact h.compiler

theorem Takes.shows : ∀ r ∈ s'.runs, s'.RunShows r := by
  have hkeeps := htakes.keeps h.toWellFormed
  have hold : ∀ r ∈ s.runs, s'.RunShows r := fun r hr => (h.shows r hr).keeps hkeeps
  cases htakes with
  | read =>
    intro r hr
    obtain hr | hr := List.mem_append.1 hr
    · exact hold r hr
    · obtain rfl := List.mem_singleton.1 hr
      exact fun c hc => absurd hc (Option.some_ne_none c).symm
  | @perform k _ r x c _ _ _ hx hc =>
    intro r' hr'
    obtain hr' | rfl := List.mem_or_eq_of_mem_set hr'
    · exact hold r' hr'
    · intro c' hc'
      obtain rfl : c = c' := Option.some.inj hc'
      exact ⟨x, x, hx, .refl x, hc.shows h.compiler⟩
  | @record k r _ hr =>
    intro r' hr'
    obtain hr' | rfl := List.mem_or_eq_of_mem_set hr'
    · exact hold r' hr'
    · exact hold r (List.mem_of_getElem? hr)
  | create | change | first | again | beginEnd | save | finishEnd | compile | wait => exact hold

end

theorem WellFormed.step {s : Session} (h : s.WellFormed) (m : Move) :
    (s.step m).WellFormed ∧ s.Keeps (s.step m) := by
  obtain heq | htakes := s.step_cases m
  · rw [heq]
    exact ⟨h, .refl s⟩
  · exact ⟨⟨htakes.snapshots h, htakes.attempts h, htakes.runs h, htakes.ends h⟩, htakes.keeps h⟩

theorem Faithful.step {s : Session} (h : s.Faithful) (m : Move) : (s.step m).Faithful := by
  have hwell := (h.toWellFormed.step m).1
  obtain heq | htakes := s.step_cases m
  · rwa [heq]
  · exact ⟨hwell, htakes.compiler h, htakes.shows h⟩

/-! ## A session -/

theorem wellFormed_start (e : Engine) : WellFormed { engine := e } where
  snapshots _ _ hx := nomatch hx
  attempts := {
    current := fun _ _ hrun => nomatch hrun
    latest := fun _ _ hjob => nomatch hjob
    unique := fun _ _ _ hjob => nomatch hjob }
  runs _ hr := nomatch hr
  ends _ he := nomatch he

theorem faithful_start {e : Engine} (h : e.compiler.Current) : Faithful { engine := e } where
  toWellFormed := wellFormed_start e
  compiler := h
  shows _ hr := nomatch hr

theorem WellFormed.after {s : Session} (h : s.WellFormed) (moves : List Move) :
    (s.after moves).WellFormed ∧ s.Keeps (s.after moves) := by
  induction moves generalizing s with
  | nil => exact ⟨h, .refl s⟩
  | cons m moves ih =>
    obtain ⟨hstep, hkeeps⟩ := h.step m
    exact ⟨(ih hstep).1, hkeeps.trans (ih hstep).2⟩

theorem Faithful.after {s : Session} (h : s.Faithful) (moves : List Move) : (s.after moves).Faithful := by
  induction moves generalizing s with
  | nil => exact h
  | cons m moves ih => exact ih (h.step m)

end Session
end BatchManager
end Valuation
