import Valuation.Proofs.Processor.Registry

/-!
# Runs and the table

Every cycle in the table was filed by a run of its process (`Traced`), and no two runs file cycles under one identifier
(`Runs`). As long as the process has yet to let its cycles go, it also retains each one that a run has retained: what
it loses has left the table.
-/
namespace Valuation

/-! ## A cycle keeps its process -/

namespace Cycle

/-- The same cycle, further on. -/
structure Same (c c' : Cycle) : Prop where
  id : c'.id = c.id
  process : c'.process = c.process

variable {c c' c'' : Cycle}

theorem Same.refl (c : Cycle) : c.Same c := ⟨rfl, rfl⟩

theorem Same.trans (h : c.Same c') (h' : c'.Same c'') : c.Same c'' :=
  ⟨h'.id.trans h.id, h'.process.trans h.process⟩

theorem same_stopAt (c : Cycle) (stops : Stops) (p : StopPoint) : c.Same (c.stopAt stops p) := by
  unfold stopAt
  split
  · dsimp only [cancel]
    split <;> exact ⟨rfl, rfl⟩
  · exact .refl c

theorem same_of_fail {now : Instant} {failure : CycleFailure} (h : c.fail now failure = .ok c') : c.Same c' := by
  obtain ⟨-, rfl⟩ := fail_eq_ok h
  exact ⟨rfl, rfl⟩

theorem same_of_begin {now : Instant} {s : Snapshot} {g : Graph} (h : c.begin now s g = .ok c') : c.Same c' := by
  obtain ⟨-, rfl⟩ := begin_eq_ok h
  exact ⟨rfl, rfl⟩

theorem same_of_complete {now : Instant} {o : ExecutionOutcome} (h : c.complete now o = .ok c') : c.Same c' := by
  obtain ⟨g, -, ⟨-, -, rfl⟩ | ⟨-, -, rfl⟩⟩ := complete_eq_ok h <;> exact ⟨rfl, rfl⟩

theorem same_run (c : Cycle) (e : Executor) (s : Snapshot) (g : Graph) (x : Interleaving) :
    c.Same (c.run e s g x).2 := by
  obtain ⟨control, hrun⟩ := c.run_eq e s g x
  rw [hrun]
  exact ⟨rfl, rfl⟩

end Cycle

namespace Engine

theorem same_ofMove {e : Engine} {c : Cycle} {moved : Except EngineError Cycle}
    (h : ∀ c', moved = .ok c' → c.Same c') : c.Same (Performance.ofMove e c moved).cycle := by
  cases moved with
  | ok c' => exact h c' rfl
  | error err => exact .refl c

variable (e : Engine) (stops : Stops) (c : Cycle)

theorem same_performFailure (failure : CycleFailure) : c.Same (e.performFailure stops c failure).cycle :=
  (c.same_stopAt stops .failing).trans (same_ofMove fun _ => Cycle.same_of_fail)

theorem same_performRun (s : Snapshot) (g : Graph) : c.Same (e.performRun stops c s g).cycle := by
  refine (c.same_stopAt stops .beginning).trans ?_
  unfold performRun
  dsimp only
  split
  · exact .refl _
  · next begun hbegun =>
    refine (Cycle.same_of_begin hbegun).trans ((begun.same_stopAt stops .executing).trans ?_)
    exact (Cycle.same_run ..).trans (same_ofMove fun _ => Cycle.same_of_complete)

theorem same_performGraph (s : Snapshot) (g : Graph) : c.Same (e.performGraph stops c s g).cycle := by
  refine (c.same_stopAt stops .compiling).trans ?_
  unfold performGraph Performance.orStopped
  dsimp only
  split
  · exact same_ofMove fun _ => Cycle.same_of_fail
  · exact same_performRun ..

/-- Performing a cycle goes on with the same cycle. -/
theorem same_perform (d : ViewDefinition) (source : Except EngineError Snapshot) :
    c.Same (e.perform stops d c source).cycle := by
  refine (c.same_stopAt stops .takingSnapshot).trans ?_
  unfold perform performSnapshot Performance.orStopped
  dsimp only
  split
  · exact same_performFailure ..
  split
  · exact same_performFailure ..
  split
  · exact same_performFailure ..
  · exact same_performGraph ..

end Engine

/-- Taking a cycle to its end changes the table only where the cycle is still filed. -/
theorem Process.finish_engine (p : Process) (e : Engine) (stops : Stops) (trigger : CycleTrigger) (c : Cycle) :
    ∃ c' compiler feeds, c.Same c' ∧ (∀ d, (p.finish e stops trigger c).result = .ok d → d = c') ∧
      (p.finish e stops trigger c).engine = { e with compiler, feeds }.updateCycle c' := by
  obtain ⟨feeds, hfeeds⟩ := e.engine_takeSnapshot p.source
  obtain ⟨compiler, -, hperform⟩ :=
    (e.takeSnapshot p.source).2.engine_perform stops p.definition c (e.takeSnapshot p.source).1
  refine ⟨_, compiler, feeds, Engine.same_perform (e.takeSnapshot p.source).2 stops c p.definition
    (e.takeSnapshot p.source).1, fun d => ?_, ?_⟩
  · unfold finish finishCycle
    dsimp only
    split
    · exact fun h => (Except.ok.inj h).symm
    · split
      · exact fun h => (Except.ok.inj h).symm
      · nofun
  · have hengine : (p.finish e stops trigger c).engine =
        ((e.takeSnapshot p.source).2.perform stops p.definition c (e.takeSnapshot p.source).1).engine.updateCycle
          ((e.takeSnapshot p.source).2.perform stops p.definition c (e.takeSnapshot p.source).1).cycle := by
      unfold finish finishCycle
      dsimp only
      split
      · rfl
      · split <;> rfl
    rw [hengine, hperform, hfeeds]

namespace Processor

/-- The run has filed a cycle under an identifier, for a process. -/
def RunCall.Filed (r : RunCall) (id : CycleId) (process : ProcessId) : Prop :=
  r.process = process ∧ r.cycle.map (·.id) = some id

namespace Session

/-! ## Runs -/

/-- The runs of a session are of processes that are held, and their cycles have identifiers of their own. -/
structure Runs (s : Session) : Prop where
  held : ∀ r ∈ s.runs, (s.held r.process).isSome = true
  pending : ∀ r ∈ s.runs, r.cycle = none → r.inTime = none
  named : ∀ r ∈ s.runs, ∀ c, r.cycle = some c →
    c.process = r.process ∧ ∃ n < s.processor.engine.serial, c.id = CycleId.generate n
  distinct : ∀ (j k : Nat) (r r' : RunCall) (c c' : Cycle), s.runs[j]? = some r → s.runs[k]? = some r' →
    r.cycle = some c → r'.cycle = some c' → c.id = c'.id → j = k

/-- What is kept while no further cycle is filed. -/
theorem Runs.of_eq {s s' : Session} (h : s.Runs) (hheld : ∀ id, (s.held id).isSome = true → (s'.held id).isSome = true)
    (hserial : s.processor.engine.serial ≤ s'.processor.engine.serial)
    (hruns : ∀ (j : Nat) (r' : RunCall), s'.runs[j]? = some r' →
      (∃ r, s.runs[j]? = some r ∧ r'.process = r.process ∧ r'.cycle = r.cycle ∧ (r.cycle = none → r'.inTime = none)) ∨
      (s.held r'.process).isSome = true ∧ r'.cycle = none ∧ r'.inTime = none) : s'.Runs := by
  constructor
  case held =>
    intro r' hr'
    obtain ⟨j, hj⟩ := List.mem_iff_getElem?.1 hr'
    obtain ⟨r, hr, hprocess, -⟩ | ⟨hopened, -⟩ := hruns j r' hj
    · exact hheld _ (hprocess ▸ h.held r (List.mem_of_getElem? hr))
    · exact hheld _ hopened
  case pending =>
    intro r' hr' hnone
    obtain ⟨j, hj⟩ := List.mem_iff_getElem?.1 hr'
    obtain ⟨r, hr, -, hcycle, hpending⟩ | ⟨-, -, hpending⟩ := hruns j r' hj
    · exact hpending (hcycle ▸ hnone)
    · exact hpending
  case named =>
    intro r' hr' c hc
    obtain ⟨j, hj⟩ := List.mem_iff_getElem?.1 hr'
    obtain ⟨r, hr, hprocess, hcycle, -⟩ | ⟨-, hnone, -⟩ := hruns j r' hj
    · obtain ⟨hc', n, hn, hid⟩ := h.named r (List.mem_of_getElem? hr) c (hcycle ▸ hc)
      exact ⟨hc'.trans hprocess.symm, n, hn.trans_le hserial, hid⟩
    · cases hnone.symm.trans hc
  case distinct =>
    intro j k r₁ r₂ c₁ c₂ h₁ h₂ hc₁ hc₂ hid
    obtain ⟨r, hr, -, hcycle, -⟩ | ⟨-, hnone, -⟩ := hruns j r₁ h₁
    · obtain ⟨r', hr', -, hcycle', -⟩ | ⟨-, hnone', -⟩ := hruns k r₂ h₂
      · exact h.distinct j k r r' c₁ c₂ hr hr' (hcycle ▸ hc₁) (hcycle' ▸ hc₂) hid
      · cases hnone'.symm.trans hc₂
    · cases hnone.symm.trans hc₁

/-- What a session with one run changed lists. -/
theorem getElem?_set_run {runs : List RunCall} {j k : Nat} {r r' : RunCall} (h : (runs.set k r)[j]? = some r') :
    j = k ∧ r' = r ∨ j ≠ k ∧ runs[j]? = some r' := by
  by_cases hjk : k = j
  · subst hjk
    rw [List.getElem?_set_self'] at h
    obtain ⟨-, -, rfl⟩ := Option.map_eq_some_iff.1 h
    exact .inl ⟨rfl, rfl⟩
  · rw [List.getElem?_set_ne hjk] at h
    exact .inr ⟨Ne.symm hjk, h⟩

section
variable {s : Session} {k : Nat} {r : RunCall} {p : Process}

/-- The identifier of a cycle that is filed has not been used before. -/
theorem Runs.file (h : s.Runs) (hserial : s.processor.engine.serial < 16 ^ 32) (hk : s.runs[k]? = some r)
    (hcycle : r.cycle = none) (hp : s.held r.process = some p) (hid : p.id = r.process) :
    (s.step (.file k)).Runs := by
  rw [step_file hk hcycle hp]
  generalize hc : (p.newCycle s.processor.engine).1 = c
  have hnew : c.process = r.process ∧ c.id = CycleId.generate s.processor.engine.serial := by
    rw [← hc]
    exact ⟨hid, rfl⟩
  have hfresh : ∀ (j : Nat) (r' : RunCall) (c' : Cycle), s.runs[j]? = some r' → r'.cycle = some c' → c'.id ≠ c.id := by
    intro j r' c' hr' hc' heq
    obtain ⟨-, n, hn, hname⟩ := h.named r' (List.mem_of_getElem? hr') c' hc'
    have hsame := CycleId.generate_inj (hn.trans hserial) hserial (hname.symm.trans (heq.trans hnew.2))
    omega
  constructor
  case held =>
    intro r' hr'
    obtain ⟨j, hj⟩ := List.mem_iff_getElem?.1 hr'
    obtain ⟨-, rfl⟩ | ⟨-, hj⟩ := getElem?_set_run hj
    · exact h.held r (List.mem_of_getElem? hk)
    · exact h.held r' (List.mem_of_getElem? hj)
  case pending =>
    intro r' hr' hnone
    obtain ⟨j, hj⟩ := List.mem_iff_getElem?.1 hr'
    obtain ⟨-, rfl⟩ | ⟨-, hj⟩ := getElem?_set_run hj
    · cases hnone
    · exact h.pending r' (List.mem_of_getElem? hj) hnone
  case named =>
    intro r' hr' c' hc'
    obtain ⟨j, hj⟩ := List.mem_iff_getElem?.1 hr'
    obtain ⟨-, rfl⟩ | ⟨-, hj⟩ := getElem?_set_run hj
    · cases hc'
      exact ⟨hnew.1, _, Nat.lt_succ_self _, hnew.2⟩
    · obtain ⟨hprocess, n, hn, hname⟩ := h.named r' (List.mem_of_getElem? hj) c' hc'
      exact ⟨hprocess, n, Nat.lt_succ_of_lt hn, hname⟩
  case distinct =>
    intro i j r₁ r₂ c₁ c₂ h₁ h₂ hc₁ hc₂ heq
    obtain ⟨rfl, rfl⟩ | ⟨-, hold₁⟩ := getElem?_set_run h₁ <;> obtain ⟨rfl, rfl⟩ | ⟨-, hold₂⟩ := getElem?_set_run h₂
    · rfl
    · cases hc₁
      exact absurd heq.symm (hfresh j r₂ c₂ hold₂ hc₂)
    · cases hc₂
      exact absurd heq (hfresh i r₁ c₁ hold₁ hc₁)
    · exact h.distinct i j r₁ r₂ c₁ c₂ hold₁ hold₂ hc₁ hc₂ heq

end

theorem Runs.unchanged {s : Session} (h : s.Runs) (j : Nat) (r : RunCall) (hj : s.runs[j]? = some r) :
    (∃ r', s.runs[j]? = some r' ∧ r.process = r'.process ∧ r.cycle = r'.cycle ∧ (r'.cycle = none → r.inTime = none)) ∨
      (s.held r.process).isSome = true ∧ r.cycle = none ∧ r.inTime = none :=
  .inl ⟨r, hj, rfl, rfl, h.pending r (List.mem_of_getElem? hj)⟩

/-- A run that has filed its cycle goes on, and its process with it. -/
theorem Runs.goOn {s : Session} (h : s.Runs) {k : Nat} {r r' : RunCall} {p p' : Process} {c : Cycle}
    (hk : s.runs[k]? = some r) (hcycle : r.cycle = some c) (hid : p.id = r.process) (hkept : p'.id = p.id) {e : Engine}
    (hserial : e.serial = s.processor.engine.serial) (hprocess : r'.process = r.process)
    (hcycle' : r'.cycle = r.cycle) : Runs { s.put p' e with runs := s.runs.set k r' } := by
  refine h.of_eq (fun _ => s.isSome_held_put hid hkept e) (Nat.le_of_eq ?_) fun j r'' hj => ?_
  · rw [Session.put, engine_putProcess, hserial]
  · obtain ⟨rfl, rfl⟩ | ⟨-, hj⟩ := getElem?_set_run hj
    · exact .inl ⟨r, hk, hprocess, hcycle', fun hnone => by cases hcycle.symm.trans hnone⟩
    · exact h.unchanged j r'' hj

/-! ## The table -/

/-- Whatever is in the table was filed by a run. If the process retained it in time, the process retains it still, and
has yet to let it go. -/
def Traced (s : Session) : Prop :=
  ∀ id c, s.processor.engine.cycles.get? id = some c → c.id = id ∧
    ∃ (k : Nat) (r : RunCall), s.runs[k]? = some r ∧ r.Filed id c.process ∧ (r.inTime = some true →
      c.process ∉ s.deregistered ∧ ∃ p, s.held c.process = some p ∧ id ∈ p.retained)

/-- What is kept while no further cycle is filed or retained, and what processes lose has left the table. -/
theorem Traced.of_le {s s' : Session} (h : s.Traced)
    (hruns : ∀ (j : Nat) (r : RunCall), s.runs[j]? = some r → ∃ r', s'.runs[j]? = some r' ∧ r'.process = r.process ∧
      (r.cycle ≠ none → r'.cycle = r.cycle) ∧ r'.inTime = r.inTime)
    (hcycles : ∀ id c', s'.processor.engine.cycles.get? id = some c' →
      ∃ c, s.processor.engine.cycles.get? id = some c ∧ c.Same c')
    (hretained : ∀ id c' p, s'.processor.engine.cycles.get? id = some c' → c'.process ∉ s.deregistered →
      s.held c'.process = some p → id ∈ p.retained →
      c'.process ∉ s'.deregistered ∧ ∃ p', s'.held c'.process = some p' ∧ id ∈ p'.retained) : s'.Traced := by
  intro id c' hc'
  obtain ⟨c, hc, hid, hprocess⟩ := hcycles id c' hc'
  obtain ⟨hcid, k, r, hk, ⟨hrun, hfiled⟩, hinTime⟩ := h id c hc
  obtain ⟨r', hk', hrun', hcycle, htime⟩ := hruns k r hk
  have hcycle' : r'.cycle = r.cycle := hcycle fun hnone => by simp [hnone] at hfiled
  refine ⟨hid.trans hcid, k, r', hk', ⟨hrun'.trans (hrun.trans hprocess.symm), hcycle' ▸ hfiled⟩, fun htrue => ?_⟩
  obtain ⟨hstays, p, hp, hmem⟩ := hinTime (htime ▸ htrue)
  rw [← hprocess] at hstays hp
  exact hretained id c' p hc' hstays hp hmem

/-- Runs that stay as they are. -/
theorem runs_refl (s : Session) (j : Nat) (r : RunCall) (hj : s.runs[j]? = some r) :
    ∃ r', s.runs[j]? = some r' ∧ r'.process = r.process ∧ (r.cycle ≠ none → r'.cycle = r.cycle) ∧
      r'.inTime = r.inTime :=
  ⟨r, hj, rfl, fun _ => rfl, rfl⟩

/-- The cycles that a process lets go have left the table. -/
theorem Traced.drop {s s' : Session} (h : s.Traced) {id : ProcessId} {p p' : Process} (hp : s.held id = some p)
    (hheld : ∀ id', s'.held id' = if id = id' then some p' else s.held id')
    (hcycles : s'.processor.engine.cycles = p.retained.foldl Table.erase s.processor.engine.cycles)
    (hruns : s'.runs = s.runs) (hderegistered : ∀ id' ∈ s'.deregistered, id' ∈ s.deregistered ∨ id' = id) :
    s'.Traced := by
  have hleft : ∀ cycle c, s'.processor.engine.cycles.get? cycle = some c →
      cycle ∉ p.retained ∧ s.processor.engine.cycles.get? cycle = some c := by
    intro cycle c hc
    rw [hcycles, Table.get?_foldl_erase] at hc
    split at hc
    · cases hc
    · next hmem => exact ⟨hmem, hc⟩
  refine h.of_le (hruns ▸ s.runs_refl) (fun cycle c hc => ⟨c, (hleft cycle c hc).2, .refl c⟩) ?_
  intro cycle c q hc hstays hq hmem
  have hother : c.process ≠ id := by
    intro heq
    rw [heq, hp] at hq
    cases hq
    exact (hleft cycle c hc).1 hmem
  refine ⟨fun hgone => ?_, q, by rw [hheld, if_neg hother.symm]; exact hq, hmem⟩
  exact (hderegistered _ hgone).elim hstays hother

section
variable {s : Session} {k : Nat} {r : RunCall} {p : Process}

theorem Traced.file (h : s.Traced) (hruns : s.Runs) (hk : s.runs[k]? = some r) (hcycle : r.cycle = none)
    (hp : s.held r.process = some p) (hid : p.id = r.process) : (s.step (.file k)).Traced := by
  rw [step_file hk hcycle hp]
  have hlt : k < s.runs.length := (List.getElem?_eq_some_iff.1 hk).1
  have hpending : r.inTime = none := hruns.pending r (List.mem_of_getElem? hk) hcycle
  intro id c hc
  rw [Engine.file, Table.get?_insert] at hc
  split at hc
  · next hnew =>
    cases hc
    refine ⟨hnew, k, _, List.getElem?_set_self hlt, ⟨hid.symm, congrArg some hnew⟩, fun htrue => ?_⟩
    cases hpending.symm.trans htrue
  · obtain ⟨hcid, j, r', hj, hfiled, hinTime⟩ := h id c hc
    refine ⟨hcid, j, r', ?_, hfiled, hinTime⟩
    refine (List.getElem?_set_ne ?_).trans hj
    rintro rfl
    obtain rfl := Option.some.inj (hk.symm.trans hj)
    simp [RunCall.Filed, hcycle] at hfiled

theorem Traced.keep {c : Cycle} (h : s.Traced) (hk : s.runs[k]? = some r) (hcycle : r.cycle = some c)
    (hnone : r.inTime = none) (hp : s.held r.process = some p) (hid : p.id = r.process) :
    (s.step (.keep k)).Traced := by
  rw [step_keep hk hcycle hnone hp]
  have hlt : k < s.runs.length := (List.getElem?_eq_some_iff.1 hk).1
  have hkept : (p.keep s.processor.engine c.id).1.id = p.id := rfl
  have hheld : ∀ id', (s.put (p.keep s.processor.engine c.id).1 (p.keep s.processor.engine c.id).2).held id' =
      if r.process = id' then some (p.keep s.processor.engine c.id).1 else s.held id' :=
    s.held_put hid hkept _
  intro id a ha
  have hget : (p.keep s.processor.engine c.id).2.cycles.get? id = some a := by
    simpa only [put, engine_putProcess] using ha
  simp only [Process.keep, Table.get?_foldl_erase] at hget
  split at hget
  · cases hget
  next hout =>
  -- What is on the list of the process and has not been dropped is still on it.
  have hstill : id ∈ p.retained ++ [c.id] → id ∈ (p.keep s.processor.engine c.id).1.retained := by
    intro hmem
    rw [← List.take_append_drop ((p.retained ++ [c.id]).length - s.processor.engine.cycleRetention)
      (p.retained ++ [c.id])] at hmem
    exact (List.mem_append.1 hmem).resolve_left hout
  obtain ⟨haid, j, r', hj, hfiled, hinTime⟩ := h id a hget
  refine ⟨haid, j, ?_⟩
  by_cases hjk : j = k
  · subst hjk
    obtain rfl := Option.some.inj (hk.symm.trans hj)
    refine ⟨_, List.getElem?_set_self hlt, hfiled, fun htrue => ?_⟩
    have hnew : id = c.id := by
      have hsame := hfiled.2
      rw [hcycle] at hsame
      exact (Option.some.inj hsame).symm
    rw [← hfiled.1]
    refine ⟨of_decide_eq_true (Option.some.inj htrue), _, ?_, hstill (by simp [hnew])⟩
    exact (hheld _).trans (if_pos rfl)
  · refine ⟨r', (List.getElem?_set_ne (Ne.symm hjk)).trans hj, hfiled, fun htrue => ?_⟩
    obtain ⟨hstays, q, hq, hmem⟩ := hinTime htrue
    refine ⟨hstays, ?_⟩
    by_cases hprocess : r.process = a.process
    · rw [← hprocess, hp] at hq
      cases hq
      exact ⟨_, (hheld _).trans (if_pos hprocess), hstill (List.mem_append_left _ hmem)⟩
    · exact ⟨q, ((hheld _).trans (if_neg hprocess)).trans hq, hmem⟩

end

/-- A cycle that is taken to its end is that of the run that has filed it. -/
theorem Traced.same {s : Session} (h : s.Traced) (hruns : s.Runs) {k : Nat} {r : RunCall} {c c' old : Cycle}
    (hk : s.runs[k]? = some r) (hcycle : r.cycle = some c) (hsame : c.Same c')
    (hold : s.processor.engine.cycles.get? c'.id = some old) : old.Same c' := by
  obtain ⟨hid, j, r', hj, ⟨hprocess, hfiled⟩, -⟩ := h c'.id old hold
  obtain ⟨c₀, hc₀, hid₀⟩ := Option.map_eq_some_iff.1 hfiled
  obtain rfl := hruns.distinct j k r' r c₀ c hj hk hc₀ hcycle (hid₀.trans hsame.id)
  obtain rfl := Option.some.inj (hk.symm.trans hj)
  refine ⟨hid.symm, ?_⟩
  rw [hsame.process, (hruns.named r (List.mem_of_getElem? hk) c hcycle).1, hprocess]

/-- The cycle of a run comes to its end, in the table if it is still there. -/
theorem Traced.finish {s : Session} (h : s.Traced) (hruns : s.Runs) {k : Nat} {r : RunCall} {p p' : Process}
    {c c' : Cycle} {e : Engine} (hk : s.runs[k]? = some r) (hcycle : r.cycle = some c)
    (hp : s.held r.process = some p) (hid : p.id = r.process) (hkept : p'.id = p.id ∧ p'.retained = p.retained)
    (hsame : c.Same c') (hcycles : e.cycles = s.processor.engine.cycles.modify c'.id fun _ => c') :
    Traced { s.put p' e with runs := s.runs.set k { r with finished := true } } := by
  have hheld := s.held_put hid hkept.1 e
  refine h.of_le (fun j r' hj => ?_) (fun id a ha => ?_) fun id a q _ hstays hq hmem => ?_
  · by_cases hjk : j = k
    · subst hjk
      obtain rfl := Option.some.inj (hk.symm.trans hj)
      exact ⟨_, List.getElem?_set_self (List.getElem?_eq_some_iff.1 hk).1, rfl, fun _ => rfl, rfl⟩
    · exact ⟨r', (List.getElem?_set_ne (Ne.symm hjk)).trans hj, rfl, fun _ => rfl, rfl⟩
  · have hget : e.cycles.get? id = some a := by simpa only [put, engine_putProcess] using ha
    rw [hcycles, Table.get?_modify] at hget
    split at hget
    · next heq =>
      subst heq
      obtain ⟨old, hold, rfl⟩ := Option.map_eq_some_iff.1 hget
      exact ⟨old, hold, h.same hruns hk hcycle hsame hold⟩
    · exact ⟨a, hget, .refl a⟩
  · refine ⟨hstays, ?_⟩
    by_cases hprocess : r.process = a.process
    · rw [← hprocess, hp] at hq
      cases hq
      exact ⟨p', (hheld _).trans (if_pos hprocess), hkept.2 ▸ hmem⟩
    · exact ⟨q, ((hheld _).trans (if_neg hprocess)).trans hq, hmem⟩

end Session
end Processor
end Valuation
