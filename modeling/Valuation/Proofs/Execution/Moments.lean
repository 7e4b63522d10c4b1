import Valuation.Proofs.Execution.Cancellation

/-!
# The moments of a run

Whatever strategy and interleaving a run is under, nothing happens to its nodes but by a few kinds of steps
(`Run.Step`): a node is started, executes or fails. In between something is called, cached or raised that leaves
the nodes as they are (`Run.SameNodes`), and the strategy looks whether the run is to stop. A run is told by its
moments, each with the step that is taken in it (`Run.Traces`). What a step comes to is said once
(`Run.Step.Lawful.effect`), and what every step keeps holds at the end (`Run.Traces.induction`). Of the moments only
some tell something: those in which the strategy looks or starts a node are the events of the run, and in those in
which a node fails by itself its failures begin.
-/
namespace Valuation

/-! ## Events -/

/-- What a strategy does from round to round. -/
inductive Event where
  | looked (cancelled : Bool)
  | dispatched (node : Nat)
deriving DecidableEq

/-- The node that an event starts. -/
def Event.node? : Event → Option Nat
  | .looked _ => none
  | .dispatched i => some i

/-- The nodes started, in their order. -/
def dispatches (events : List Event) : List Nat := events.filterMap Event.node?

@[simp] theorem dispatches_nil : dispatches [] = [] := rfl

@[simp] theorem dispatches_looked (b : Bool) (events : List Event) :
    dispatches (.looked b :: events) = dispatches events :=
  List.filterMap_cons_none rfl

@[simp] theorem dispatches_append (events events' : List Event) :
    dispatches (events ++ events') = dispatches events ++ dispatches events' :=
  List.filterMap_append

@[simp] theorem dispatches_map (nodes : List Nat) : dispatches (nodes.map .dispatched) = nodes := by
  rw [dispatches, List.filterMap_map]
  exact List.filterMap_some

theorem mem_dispatches {events : List Event} {i : Nat} : i ∈ dispatches events ↔ .dispatched i ∈ events := by
  rw [dispatches, List.mem_filterMap]
  constructor
  · rintro ⟨event, hevent, hi⟩
    cases event with
    | looked b => cases hi
    | dispatched j =>
      cases hi
      exact hevent
  · exact fun hi => ⟨_, hi, rfl⟩

@[simp] theorem looked_notMem_map (b : Bool) (nodes : List Nat) : .looked b ∉ nodes.map Event.dispatched := by
  intro hmem
  obtain ⟨i, -, hi⟩ := List.mem_map.1 hmem
  cases hi

/-- Nothing is started after a look that has found that the run is to stop. -/
def StopsStarting (events : List Event) : Prop :=
  events.Pairwise fun event later => event = .looked true → ∀ i, later ≠ .dispatched i

theorem stopsStarting_looked {b : Bool} {events : List Event} (h : StopsStarting events)
    (hnone : b = true → dispatches events = []) : StopsStarting (.looked b :: events) := by
  refine List.pairwise_cons.2 ⟨fun later hlater hlooked i hi => ?_, h⟩
  have hmem : i ∈ dispatches events := mem_dispatches.2 (hi ▸ hlater)
  rw [hnone (Event.looked.inj hlooked)] at hmem
  cases hmem

theorem stopsStarting_dispatched {nodes : List Nat} {events : List Event} (h : StopsStarting events) :
    StopsStarting (nodes.map .dispatched ++ events) := by
  induction nodes with
  | nil => exact h
  | cons i nodes ih => exact List.pairwise_cons.2 ⟨fun _ _ => nofun, ih⟩

namespace Run

/-! ## Steps -/

/-- What a strategy does to the nodes of a run. It also looks whether the run is to stop. -/
inductive Step where
  | look (cancelled : Bool)
  | mark (node : Nat)
  | take
  | complete (node : Nat)
  | fail (node : Nat) (reason : FailureReason)

/-- A step on a run. Taking the next ready node changes nothing if there is none. -/
def Step.apply (r : Run) : Step → Run
  | .look _ => r
  | .mark i => r.setStatus i .running
  | .take => (r.nextReady.map Prod.snd).getD r
  | .complete i => r.complete i
  | .fail i reason => r.fail i reason

/-- The node that fails by itself in a step. -/
def Step.failed? : Step → Option Nat
  | .fail i _ => some i
  | _ => none

/-- A step, and the moment it is taken in. -/
structure Moment where
  run : Run
  step : Step

/-- The moment after the step. -/
def Moment.next (m : Moment) : Run := m.step.apply m.run

/-- What a moment tells of the rounds of a strategy. -/
def Moment.event? (m : Moment) : Option Event :=
  match m.step with
  | .look cancelled => some (.looked cancelled)
  | .mark i => some (.dispatched i)
  | .take => m.run.nextReady.map fun next => .dispatched next.1
  | .complete _ | .fail .. => none

/-- The events of some moments. -/
def eventsOf (moments : List Moment) : List Event := moments.filterMap Moment.event?

/-- The nodes that fail by themselves, in turn. -/
def failuresOf (moments : List Moment) : List Nat := moments.filterMap fun m => m.step.failed?

@[simp] theorem eventsOf_nil : eventsOf [] = [] := rfl

@[simp] theorem eventsOf_append (moments moments' : List Moment) :
    eventsOf (moments ++ moments') = eventsOf moments ++ eventsOf moments' :=
  List.filterMap_append

@[simp] theorem eventsOf_look (r : Run) (b : Bool) (moments : List Moment) :
    eventsOf (⟨r, .look b⟩ :: moments) = .looked b :: eventsOf moments :=
  rfl

@[simp] theorem eventsOf_mark (r : Run) (i : Nat) (moments : List Moment) :
    eventsOf (⟨r, .mark i⟩ :: moments) = .dispatched i :: eventsOf moments :=
  rfl

@[simp] theorem failuresOf_append (moments moments' : List Moment) :
    failuresOf (moments ++ moments') = failuresOf moments ++ failuresOf moments' :=
  List.filterMap_append

theorem dispatches_eventsOf (moments : List Moment) :
    dispatches (eventsOf moments) = moments.filterMap fun m => m.event?.bind Event.node? :=
  List.filterMap_filterMap

/-! ## Traces -/

/-- The nodes stand as before, and so do the failures. -/
structure SameNodes (r r' : Run) : Prop where
  graph : r'.graph = r.graph
  status : r'.status = r.status
  pending : r'.pending = r.pending
  ready : r'.ready = r.ready
  failures : r'.failures = r.failures

/-- One moment of a run comes to another by the given steps alone: between them the nodes stand as they are. -/
def Chained (r : Run) : List Moment → Run → Prop
  | [], r' => SameNodes r r'
  | m :: moments, r' => SameNodes r m.run ∧ Chained m.next moments r'

/-- What holds of every step, and of the moment it is taken in. -/
inductive Step.Lawful (g : Graph) (s : Snapshot) (r : Run) : Step → Prop
  | look : Lawful g s r (.look r.isCancelled)
  | mark {i : Nat} (node : i < g.size) (waits : r.statusOf i = .notStarted) : Lawful g s r (.mark i)
  | take : Lawful g s r .take
  | complete {i : Nat} (running : r.statusOf i = .running) : Lawful g s r (.complete i)
  | fail {i : Nat} {reason : FailureReason} (running : r.statusOf i = .running)
      (verdict : g.evaluate s i = .failed reason) : Lawful g s r (.fail i reason)

/-- The steps lead from one moment to another, each is lawful, and the moments agree with the meaning of the
graph. -/
structure Traces (g : Graph) (s : Snapshot) (r : Run) (moments : List Moment) (r' : Run) : Prop where
  chained : Chained r moments r'
  lawful : ∀ m ∈ moments, Faithful g s m.run ∧ m.step.Lawful g s m.run ∧ Faithful g s m.next

section
variable {g : Graph} {s : Snapshot} {r r' r'' : Run} {moments moments' : List Moment}

theorem SameNodes.refl (r : Run) : SameNodes r r := ⟨rfl, rfl, rfl, rfl, rfl⟩

theorem SameNodes.trans (h : SameNodes r r') (h' : SameNodes r' r'') : SameNodes r r'' :=
  ⟨h'.graph.trans h.graph, h'.status.trans h.status, h'.pending.trans h.pending, h'.ready.trans h.ready,
    h'.failures.trans h.failures⟩

theorem SameNodes.statusOf_eq (h : SameNodes r r') (i : Nat) : r'.statusOf i = r.statusOf i := by
  rw [statusOf, statusOf, h.status]

theorem sameNodes_observe (r : Run) (raised : Bool) : SameNodes r (r.observe raised) := by
  cases raised with
  | false => exact ⟨rfl, rfl, rfl, rfl, rfl⟩
  | true => exact ⟨rfl, rfl, rfl, rfl, rfl⟩

theorem Chained.trans (h : Chained r moments r') (h' : Chained r' moments' r'') :
    Chained r (moments ++ moments') r'' := by
  induction moments generalizing r with
  | nil =>
    cases moments' with
    | nil => exact h.trans h'
    | cons m moments' => exact ⟨h.trans h'.1, h'.2⟩
  | cons m moments ih => exact ⟨h.1, ih h.2⟩

theorem Traces.trans (h : Traces g s r moments r') (h' : Traces g s r' moments' r'') :
    Traces g s r (moments ++ moments') r'' := by
  refine ⟨h.chained.trans h'.chained, fun m hm => ?_⟩
  rcases List.mem_append.1 hm with hm | hm
  · exact h.lawful m hm
  · exact h'.lawful m hm

theorem SameNodes.traces (h : SameNodes r r') : Traces g s r [] r' :=
  ⟨h, fun _ hm => absurd hm List.not_mem_nil⟩

/-- A single step. -/
theorem Step.Lawful.traces {step : Step} (h : step.Lawful g s r) (hr : Faithful g s r)
    (hr' : Faithful g s (step.apply r)) : Traces g s r [⟨r, step⟩] (step.apply r) :=
  ⟨⟨.refl _, .refl _⟩, List.forall_mem_singleton.2 ⟨hr, h, hr'⟩⟩

/-- A look at the flag. -/
theorem Faithful.look_traces (h : Faithful g s r) : Traces g s r [⟨r, .look r.isCancelled⟩] r :=
  Step.Lawful.look.traces h h

/-- What a lawful step comes to for the nodes: the run it leads to, the node it starts, if any, and the node that
fails by itself in it, if any. -/
inductive Step.Effect (g : Graph) (s : Snapshot) (r : Run) : Run → Option Nat → Option Nat → Prop
  | idle : Effect g s r r none none
  | starts {i : Nat} {r' : Run} (waits : r.statusOf i = .notStarted) (changes : Changes r r' i .running)
      (failures : r'.failures = r.failures) : Effect g s r r' (some i) none
  | executes {i : Nat} {r' : Run} (running : r.statusOf i = .running) (changes : Changes r r' i .executed)
      (failures : r'.failures = r.failures) : Effect g s r r' none none
  | fails {i : Nat} {reason : FailureReason} (running : r.statusOf i = .running)
      (verdict : g.evaluate s i = .failed reason) : Effect g s r (r.fail i reason) none (some i)

theorem Step.Lawful.effect (hg : g.Runnable) (hr : Faithful g s r) {step : Step} (h : step.Lawful g s r) :
    Step.Effect g s r (step.apply r) ((Moment.event? ⟨r, step⟩).bind Event.node?) step.failed? := by
  have hchanges : ∀ r₀ : Run, r₀.status = r.status → ∀ i < g.size, ∀ status,
      Changes r (r₀.setStatus i status) i status := fun r₀ hstatus i hi status =>
    changes_setStatus hstatus (hr.length_status ▸ hi) status
  cases h with
  | look => exact .idle
  | @mark i hi hwaits => exact .starts hwaits (hchanges r rfl i hi .running) rfl
  | take =>
    cases hnext : r.nextReady with
    | none =>
      simp only [Step.apply, Moment.event?, hnext]
      exact .idle
    | some next =>
      obtain ⟨⟨i, rest⟩, hfirst, rfl⟩ := Option.map_eq_some_iff.1 hnext
      obtain ⟨hmem, hwaits, -⟩ := Executor.firstReady_eq_some hfirst
      simp only [Step.apply, Moment.event?, hnext]
      exact .starts hwaits (hchanges { r with ready := rest } rfl i (hr.ready_sound i hmem).1 .running) rfl
  | @complete i hi =>
    have hbehind : (r.graph.dependentsOf i).Nodup := hr.graph ▸ hg.nodup_dependentsOf i
    obtain ⟨pending, ready, heq, -⟩ := complete_eq hbehind
    have hlt : i < g.size := hr.lt_size (by simp [hi])
    have hexecutes : Step.Effect g s r (r.complete i) none none := by
      rw [heq]
      exact .executes hi (hchanges { r with pending, ready } rfl i hlt .executed) rfl
    exact hexecutes
  | fail hi hverdict => exact .fails hi hverdict

/-- What every step keeps, told what it tells, holds at the end of a run if it does so in the beginning. -/
theorem Traces.induction {α : Type} (P : List α → Run → Prop) (told : Moment → Option α)
    (same : ∀ xs r r', SameNodes r r' → P xs r → P xs r')
    (step : ∀ xs m, Faithful g s m.run → m.step.Lawful g s m.run → Faithful g s m.next → P xs m.run →
      P (xs ++ (told m).toList) m.next)
    (h : Traces g s r moments r') {xs : List α} (hr : P xs r) : P (xs ++ moments.filterMap told) r' := by
  induction moments generalizing r xs with
  | nil =>
    rw [List.filterMap_nil, List.append_nil]
    exact same xs r r' h.chained hr
  | cons m moments ih =>
    obtain ⟨⟨hsame, hchained⟩, hlawful⟩ := h
    obtain ⟨⟨hfaithful, hlaw, hnext⟩, hothers⟩ := List.forall_mem_cons.1 hlawful
    have hrest := ih ⟨hchained, hothers⟩ (step xs m hfaithful hlaw hnext (same xs r m.run hsame hr))
    have htold : (m :: moments).filterMap told = (told m).toList ++ moments.filterMap told := by
      cases hm : told m with
      | none => rw [List.filterMap_cons_none hm]; rfl
      | some x => rw [List.filterMap_cons_some hm]; rfl
    rwa [htold, ← List.append_assoc]

end

end Run
end Valuation
