import Valuation.Proofs.Execution.Tracing

/-!
# Which nodes a run starts, and when

A run is told here as its events, those of its moments in which it looks whether it is to stop or starts a node
(`driveLogged`). A node is started at most once, and just those are that end otherwise than by failing behind another
node (`Sent`): every step keeps this (`Sent.effect`). No node is started once a look has found that the run is to stop,
however the nodes in flight go on (`driveLogged_dispatched`).
-/
namespace Valuation
namespace Executor

/-- `drive` with its events. -/
def driveLogged (e : Executor) (x : Interleaving) (g : Graph) (s : Snapshot) (c : Control) :
    (Run × Bool) × List Event :=
  let (ending, moments) := e.driveTraced x g s c
  (ending, Run.eventsOf moments)

/-- The events change nothing about a run. -/
theorem driveLogged_fst (e : Executor) (x : Interleaving) (g : Graph) (s : Snapshot) (c : Control) :
    (e.driveLogged x g s c).1 = e.drive x g s c :=
  driveTraced_fst ..

/-! ## The nodes started so far -/

open Run

/-- The nodes started so far: each once, and just those that no longer wait, but for those behind a
failure. -/
structure Sent (g : Graph) (s : Snapshot) (r : Run) (nodes : List Nat) : Prop where
  nodup : nodes.Nodup
  mem_iff : ∀ i, i ∈ nodes ↔ r.statusOf i ≠ .notStarted ∧ g.evaluate s i ≠ .upstream

section
variable {g : Graph} {s : Snapshot} {c : Control} {raised : Nat → Bool} {r r' : Run} {nodes : List Nat}

theorem sent_start (g : Graph) (s : Snapshot) (c : Control) : Sent g s (start g s c) [] :=
  ⟨List.nodup_nil, fun i => by simp [statusOf_start]⟩

theorem Sent.startsNone (h : Sent g s r nodes) (hnone : StartsNone g s r r') : Sent g s r' nodes := by
  refine ⟨h.nodup, fun i => (h.mem_iff i).trans (and_congr_left fun hown => not_congr ?_)⟩
  exact (hnone i hown).symm

theorem Sent.begin (hg : g.Runnable) (h : Sent g s r nodes) {i : Nat} (hwaits : r.statusOf i = .notStarted)
    (hst : Changes r r' i .running) (h' : Tracks g s r') : Sent g s r' (nodes ++ [i]) := by
  have hnew : i ∉ nodes := fun hi => ((h.mem_iff i).1 hi).1 hwaits
  have hown := h'.evaluate_ne_upstream hg (.inl hst.statusOf_self)
  refine ⟨List.nodup_append.2 ⟨h.nodup, List.nodup_singleton i, ?_⟩, fun j => ?_⟩
  · rintro j hj _ hi rfl
    exact hnew (List.mem_singleton.1 hi ▸ hj)
  · rw [List.mem_append, List.mem_singleton]
    by_cases hji : j = i
    · subst hji
      simp [hst.statusOf_self, hown]
    · rw [h.mem_iff, hst.statusOf_of_ne hji]
      simp [hji]

/-- A node that has failed without being started has done so behind another one. -/
theorem Sent.evaluate_eq_upstream (h : Sent g s r nodes) {i : Nat} (hfailed : r.statusOf i = .failed)
    (hi : i ∉ nodes) : g.evaluate s i = .upstream := by
  by_contra hown
  exact hi ((h.mem_iff i).2 ⟨by simp [hfailed], hown⟩)

/-- The next node of the order is started and ends. -/
theorem Sent.executeNext (hg : g.Runnable) (hsent : Sent g s r nodes) {before rest : List Nat} {i : Nat}
    (horder : g.order = before ++ i :: rest) (h : Coherent g s c raised r) (hswept : Swept r before)
    (hfailed : r.statusOf i ≠ .failed) :
    Coherent g s c raised ((r.setStatus i .running).execute i) ∧
      Swept ((r.setStatus i .running).execute i) (before ++ [i]) ∧
      Sent g s ((r.setStatus i .running).execute i) (nodes ++ [i]) := by
  obtain ⟨hwaits, hbegun, hst, huntouched⟩ := hswept.begin hg horder h hfailed
  have hi := hst.statusOf_self
  obtain ⟨hcoherent, hend, -⟩ := hbegun.execute hg hi huntouched
  have hstarted := hsent.begin hg hwaits hst hbegun.toTracks
  have hnone := hend.startsNone hg hi hbegun.graph hcoherent.toTracks
  exact ⟨hcoherent, hswept.execute hst hend, hstarted.startsNone hnone⟩

/-- Every step starts the node that it tells, if any, and no other one. -/
theorem Sent.effect (hg : g.Runnable) (h : Sent g s r nodes) (hr : Faithful g s r) {started failed : Option Nat}
    (heffect : Step.Effect g s r r' started failed) (hr' : Faithful g s r') :
    Sent g s r' (nodes ++ started.toList) := by
  have hsame : StartsNone g s r r' → Sent g s r' (nodes ++ []) := fun hnone => by
    rw [List.append_nil]
    exact h.startsNone hnone
  cases heffect with
  | idle => exact hsame fun _ _ => .rfl
  | starts hwaits hchanges _ => exact h.begin hg hwaits hchanges hr'.toTracks
  | executes hi hchanges _ =>
    exact hsame fun j _ => hchanges.statusOf_eq_iff .notStarted (by simp [hi]) (by simp) j
  | fails hi hverdict =>
    obtain ⟨-, hend⟩ := hr.fail hg hi hverdict
    exact hsame (hend.startsNone hg hi hr.graph hr'.toTracks)

/-- A run starts the nodes that its moments tell, and no others. -/
theorem Traces.sent (hg : g.Runnable) {moments : List Moment} (h : Traces g s r moments r')
    (hsent : Sent g s r nodes) : Sent g s r' (nodes ++ dispatches (eventsOf moments)) := by
  rw [dispatches_eventsOf]
  exact h.induction (fun nodes r => Sent g s r nodes) (fun m => m.event?.bind Event.node?)
    (fun _ _ _ hsame hsent => hsent.startsNone (startsNone_of_eq hsame.status))
    (fun _ _ hr hlaw hr' hsent => hsent.effect hg hr (hlaw.effect hg hr) hr') hsent

/-! ## Whole runs -/

/-- What the events of a run tell of it. -/
structure Dispatched (g : Graph) (s : Snapshot) (r : Run) (cancelled : Bool) (events : List Event) : Prop where
  once : (dispatches events).Nodup
  stops : StopsStarting events
  seen : cancelled = true ↔ .looked true ∈ events
  ended : ∀ i, .dispatched i ∈ events ↔
    r.statusOf i = .executed ∨ r.statusOf i = .failed ∧ g.evaluate s i ≠ .upstream
  called : ∀ v ∈ r.journal, .dispatched v.node ∈ events

theorem dispatched_of_atRest (hg : g.Runnable) {cancelled : Bool} (h : AtRest g s c raised r cancelled)
    {events : List Event} (hsent : Sent g s r (dispatches events)) (hstops : StopsStarting events)
    (hseen : cancelled = true ↔ .looked true ∈ events) : Dispatched g s r cancelled events := by
  refine ⟨hsent.nodup, hstops, hseen, fun i => ?_, fun v hv => ?_⟩
  · rw [← mem_dispatches, hsent.mem_iff]
    cases hi : r.statusOf i with
    | notStarted => simp
    | running => exact absurd hi (h.idle i)
    | executed => simpa using h.evaluate_ne_upstream hg (.inr hi)
    | failed => simp
  · obtain ⟨hcall, hbegun, hdeps, -⟩ := h.called v hv
    obtain ⟨n, f, hn, hf⟩ := hcall
    rw [← mem_dispatches, hsent.mem_iff]
    refine ⟨hbegun, ?_⟩
    rw [g.evaluate_call hg hn hf.kind fun j hj => h.executed j (hdeps j hj)]
    exact Verdict.ofExcept_ne_upstream _

/-- The events of a whole run, under every executor and every interleaving. -/
theorem driveLogged_dispatched (hg : g.Runnable) (e : Executor) (x : Interleaving) (s : Snapshot) (c : Control) :
    Dispatched g s (e.drive x g s c).1 (e.drive x g s c).2 (e.driveLogged x g s c).2 := by
  have hsent := Traces.sent hg (drive_traces hg e x s c) (sent_start g s c)
  rw [List.nil_append] at hsent
  obtain ⟨hstops, hseen⟩ := drive_looks hg e x s c
  exact dispatched_of_atRest hg (drive_atRest hg e x s c) hsent hstops hseen

end

end Executor
end Valuation
