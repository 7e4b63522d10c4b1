import Mathlib.Data.Finset.Card
import Valuation.Proofs.Graph.Nodes

/-!
# Resolving

`Resolves` describes the resolution of some specifications by its derivations. What `resolveAllLogged`
answers has a derivation (`resolves_of_resolveAllLogged`), so whatever holds along derivations holds of
every answer: what a resolution adds (`Resolves.adds`) and what it complains of (`Resolves.complaint`).
It has an answer whenever there are finitely many requirements (`resolveAllLogged_isSome`).
-/
namespace Valuation
namespace Graph

open Relation

/-- How some specifications are resolved in turn, starting from the nodes at hand, and what functions are consulted
about on the way. The first error ends it. -/
inductive Resolves (r : FunctionRepository) (a : Availability) : List Specification → List Node →
    List Specification → Except EngineError (List Node) → List Consultation → Prop
  | nil {stack nodes} : Resolves r a stack nodes [] (.ok nodes) []
  | known {stack nodes s ss result made} : Produced nodes s → Resolves r a stack nodes ss result made →
    Resolves r a stack nodes (s :: ss) result made
  | cyclic {stack nodes s ss} : ¬Produced nodes s → s ∈ stack →
    Resolves r a stack nodes (s :: ss) (.error (.cyclicDependency (cyclePath stack s))) []
  | call {stack nodes s ss f resolved result made made'} : ¬Produced nodes s → s ∉ stack → r.resolve? s = some f →
    Resolves r a (s :: stack) nodes (f.requirements s) (.ok resolved) made →
    Resolves r a stack (addCall resolved f s (f.requirements s)) ss result made' →
    Resolves r a stack nodes (s :: ss) result (⟨s, stack⟩ :: (made ++ made'))
  | callError {stack nodes s ss f e made} : ¬Produced nodes s → s ∉ stack → r.resolve? s = some f →
    Resolves r a (s :: stack) nodes (f.requirements s) (.error e) made →
    Resolves r a stack nodes (s :: ss) (.error e) (⟨s, stack⟩ :: made)
  | marketData {stack nodes s ss result made} : ¬Produced nodes s → s ∉ stack → r.resolve? s = none →
    a.isAvailable s.marketDataKey = true → Resolves r a stack (addMarketData nodes s) ss result made →
    Resolves r a stack nodes (s :: ss) result made
  | unsatisfied {stack nodes s ss} : ¬Produced nodes s → s ∉ stack → r.resolve? s = none →
    a.isAvailable s.marketDataKey = false →
    Resolves r a stack nodes (s :: ss) (.error (.unsatisfiedDependency s)) []

section
variable {r : FunctionRepository} {a : Availability}

/-! ## Answers have derivations -/

theorem Resolves.append {stack xs ys : List Specification} {nodes next : List Node}
    {result : Except EngineError (List Node)} {made made' : List Consultation}
    (hx : Resolves r a stack nodes xs (.ok next) made) (hy : Resolves r a stack next ys result made') :
    Resolves r a stack nodes (xs ++ ys) result (made ++ made') := by
  generalize hok : Except.ok next = first at hx
  induction hx with
  | nil =>
    cases hok
    exact hy
  | known hp _ ih => exact .known hp (ih hy hok)
  | cyclic => cases hok
  | call hp hs hf hreq _ _ ih =>
    simpa only [List.cons_append, List.append_assoc] using Resolves.call hp hs hf hreq (ih hy hok)
  | callError => cases hok
  | marketData hp hs hf hav _ ih => exact .marketData hp hs hf hav (ih hy hok)
  | unsatisfied => cases hok

theorem Resolves.append_error {stack xs : List Specification} {nodes : List Node} {e : EngineError}
    {made : List Consultation} (hx : Resolves r a stack nodes xs (.error e) made) (ys : List Specification) :
    Resolves r a stack nodes (xs ++ ys) (.error e) made := by
  generalize hok : Except.error e = result at hx
  induction hx with
  | nil => cases hok
  | known hp _ ih => exact .known hp (ih hok)
  | cyclic hp hs => exact .cyclic hp hs
  | call hp hs hf hreq _ _ ih => exact .call hp hs hf hreq (ih hok)
  | callError hp hs hf hreq => exact .callError hp hs hf hreq
  | marketData hp hs hf hav _ ih => exact .marketData hp hs hf hav (ih hok)
  | unsatisfied hp hs hf hav => exact .unsatisfied hp hs hf hav

theorem run_bind_of_ok {α β : Type} {x : Resolution α} {f : α → Resolution β} {v : α}
    {log log' : List Consultation} (h : x.run.run log = some (.ok v, log')) :
    (x >>= f).run.run log = (f v).run.run log' := by
  rw [ExceptT.run_bind, StateT.run_bind, h]
  rfl

theorem run_bind_of_error {α β : Type} {x : Resolution α} {e : EngineError} {log log' : List Consultation}
    (h : x.run.run log = some (.error e, log')) (f : α → Resolution β) :
    (x >>= f).run.run log = some (.error e, log') := by
  rw [ExceptT.run_bind, StateT.run_bind, h]
  rfl

theorem run_bind_eq_some {α β : Type} {x : Resolution α} {f : α → Resolution β} {log : List Consultation}
    {answer : Except EngineError β × List Consultation} (h : (x >>= f).run.run log = some answer) :
    (∃ v log', x.run.run log = some (.ok v, log') ∧ (f v).run.run log' = some answer) ∨
      ∃ e log', x.run.run log = some (.error e, log') ∧ answer = (.error e, log') := by
  cases hx : x.run.run log with
  | none =>
    rw [ExceptT.run_bind, StateT.run_bind, hx] at h
    cases h
  | some first =>
    obtain ⟨first, log'⟩ := first
    cases first with
    | ok v =>
      rw [run_bind_of_ok hx] at h
      exact .inl ⟨v, log', rfl, h⟩
    | error e =>
      rw [run_bind_of_error hx] at h
      exact .inr ⟨e, log', rfl, (Option.some.inj h).symm⟩

/-- What an answer says of a resolution: its result, and what was added to the log. -/
def Answers (r : FunctionRepository) (a : Availability) (stack : List Specification) (nodes : List Node)
    (ss : List Specification) (log : List Consultation)
    (answer : Except EngineError (List Node) × List Consultation) : Prop :=
  ∃ made, answer.2 = log ++ made ∧ Resolves r a stack nodes ss answer.1 made

theorem answers_of_run {step : List Node → Specification → Resolution (List Node)} {stack : List Specification}
    (hstep : ∀ nodes s log answer, (step nodes s).run.run log = some answer →
      Answers r a stack nodes [s] log answer)
    {nodes : List Node} {ss : List Specification} {log : List Consultation}
    {answer : Except EngineError (List Node) × List Consultation}
    (h : (ss.foldlM step nodes).run.run log = some answer) : Answers r a stack nodes ss log answer := by
  induction ss generalizing nodes log with
  | nil =>
    cases h
    exact ⟨[], (List.append_nil log).symm, .nil⟩
  | cons s ss ih =>
    rw [List.foldlM_cons] at h
    rcases run_bind_eq_some h with ⟨next, log', hs, h⟩ | ⟨e, log', hs, rfl⟩
    · obtain ⟨made, hmade, hfirst⟩ := hstep _ _ _ _ hs
      obtain rfl : log' = log ++ made := hmade
      obtain ⟨made', hmade', hrest⟩ := ih h
      exact ⟨made ++ made', by rw [hmade', List.append_assoc], hfirst.append hrest⟩
    · obtain ⟨made, hmade, hfirst⟩ := hstep _ _ _ _ hs
      exact ⟨made, hmade, hfirst.append_error ss⟩

theorem answers_of_resolveLogged {stack : List Specification} {nodes : List Node} {s : Specification}
    {log : List Consultation} {answer : Except EngineError (List Node) × List Consultation}
    (h : resolveLogged r a stack nodes s log = some answer) : Answers r a stack nodes [s] log answer := by
  refine resolveLogged.partial_correctness r a
    (fun stack nodes s log answer => Answers r a stack nodes [s] log answer) ?_ stack nodes s log answer h
  intro rec hrec stack nodes s log answer h
  -- no function is consulted, except about a specification that is neither produced nor on the stack
  have hsilent : ∀ {result}, Resolves r a stack nodes [s] result [] → Answers r a stack nodes [s] log (result, log) :=
    fun hresolves => ⟨[], (List.append_nil log).symm, hresolves⟩
  split at h
  · next hp =>
    cases h
    exact hsilent (.known (producer?_isSome_iff.1 hp) .nil)
  next hp =>
  rw [producer?_isSome_iff] at hp
  split at h
  · next hs =>
    cases h
    exact hsilent (.cyclic hp hs)
  next hs =>
  split at h
  · next f hf =>
    have hconsult : (consult f stack s).run.run log = some (.ok (f.requirements s), log ++ [⟨s, stack⟩]) := rfl
    rw [run_bind_of_ok hconsult] at h
    rcases run_bind_eq_some h with ⟨resolved, log', hall, h⟩ | ⟨e, log', hall, rfl⟩
    · cases h
      obtain ⟨made, hmade, hresolves⟩ := answers_of_run (hrec _) hall
      refine ⟨⟨s, stack⟩ :: (made ++ []), ?_, .call hp hs hf hresolves .nil⟩
      simp [show log' = _ from hmade]
    · obtain ⟨made, hmade, hresolves⟩ := answers_of_run (hrec _) hall
      exact ⟨⟨s, stack⟩ :: made, by simp [show log' = _ from hmade], .callError hp hs hf hresolves⟩
  · next hf =>
    split at h
    · next hav =>
      cases h
      exact hsilent (.marketData hp hs hf hav .nil)
    · next hav =>
      cases h
      exact hsilent (.unsatisfied hp hs hf (by simpa using hav))

theorem resolves_of_resolveAllLogged {stack : List Specification} {nodes : List Node}
    {ss : List Specification} {result : Except EngineError (List Node)} {made : List Consultation}
    (h : resolveAllLogged r a stack nodes ss [] = some (result, made)) : Resolves r a stack nodes ss result made := by
  obtain ⟨_, rfl, hresolves⟩ := answers_of_run (fun _ _ _ _ => answers_of_resolveLogged) h
  exact hresolves

theorem resolves_of_resolveAll {stack : List Specification} {nodes : List Node}
    {ss : List Specification} {result : Except EngineError (List Node)}
    (h : resolveAll r a stack nodes ss = some result) : ∃ made, Resolves r a stack nodes ss result made := by
  obtain ⟨⟨_, made⟩, hlogged, rfl⟩ := Option.map_eq_some_iff.1 h
  exact ⟨made, resolves_of_resolveAllLogged hlogged⟩

theorem resolveAllLogged_cons {stack : List Specification} {nodes next : List Node} {s : Specification}
    {log log' : List Consultation} (h : resolveLogged r a stack nodes s log = some (.ok next, log'))
    (ss : List Specification) :
    resolveAllLogged r a stack nodes (s :: ss) log = resolveAllLogged r a stack next ss log' := by
  unfold resolveAllLogged
  rw [List.foldlM_cons]
  exact run_bind_of_ok h

theorem resolveAllLogged_cons_error {stack : List Specification} {nodes : List Node} {s : Specification}
    {e : EngineError} {log log' : List Consultation}
    (h : resolveLogged r a stack nodes s log = some (.error e, log')) (ss : List Specification) :
    resolveAllLogged r a stack nodes (s :: ss) log = some (.error e, log') := by
  unfold resolveAllLogged
  rw [List.foldlM_cons]
  exact run_bind_of_error h _

/-- A specification that a function computes is resolved with the requirements of the function, once the function has
been consulted about it. -/
theorem resolveLogged_of_function {stack : List Specification} {nodes : List Node} {s : Specification}
    {f : CalculationFunction} (hp : producer? nodes s = none) (hs : s ∉ stack) (hf : r.resolve? s = some f)
    (log : List Consultation) :
    resolveLogged r a stack nodes s log =
      (resolveAllLogged r a (s :: stack) nodes (f.requirements s) (log ++ [⟨s, stack⟩])).map fun (result, log) =>
        (result.map fun resolved => addCall resolved f s (f.requirements s), log) := by
  rw [resolveLogged, hp, if_neg (by simp), if_neg hs, hf]
  have hconsult : (consult f stack s).run.run log = some (.ok (f.requirements s), log ++ [⟨s, stack⟩]) := rfl
  dsimp only
  rw [run_bind_of_ok hconsult, ExceptT.run_bind, StateT.run_bind]
  change resolveAllLogged r a (s :: stack) nodes (f.requirements s) (log ++ [⟨s, stack⟩]) >>= _ = _
  cases resolveAllLogged r a (s :: stack) nodes (f.requirements s) (log ++ [⟨s, stack⟩]) with
  | none => rfl
  | some answer =>
    obtain ⟨result, log'⟩ := answer
    cases result with
    | ok resolved => rfl
    | error e => rfl

/-! ## What a resolution adds -/

/-- A successful resolution adds exactly what its specifications need. Nothing on the stack is
produced meanwhile. -/
theorem Resolves.adds {stack ss : List Specification} {nodes nodes' : List Node} {made : List Consultation}
    (h : Resolves r a stack nodes ss (.ok nodes') made) (hsound : Sound r a nodes) :
    Sound r a nodes' ∧ (∀ t, Produced nodes' t ↔ Produced nodes t ∨ Required r ss t) ∧
      ∀ t ∈ stack, Produced nodes' t → Produced nodes t := by
  generalize hok : Except.ok nodes' = result at h
  induction h generalizing nodes' with
  | nil =>
    cases hok
    exact ⟨hsound, fun t => by simp [not_required_nil], fun _ _ ht => ht⟩
  | @known stack nodes s ss result _ hp _ ih =>
    obtain ⟨hsound', hprod, hstack⟩ := ih hsound hok
    refine ⟨hsound', fun t => ?_, hstack⟩
    rw [hprod, required_cons, or_left_comm]
    refine ⟨.inr, fun ht => ht.elim (fun ht => .inl ?_) id⟩
    exact hsound.produced_of_required (by simpa using hp) ht
  | cyclic => cases hok
  | @call stack nodes s ss f resolved result _ _ hp hs hf _ _ ihreq ih =>
    obtain ⟨hres, hprod, hstack⟩ := ihreq hsound rfl
    have hreq : ∀ t ∈ f.requirements s, Produced resolved t := fun t ht =>
      (hprod t).2 (.inr (.root ht))
    have hnew : ¬Produced resolved s := fun h => hp (hstack s (List.mem_cons_self ..) h)
    obtain ⟨hadd, hprod'⟩ := sound_addCall hres hf hnew hreq
    obtain ⟨hsound', hprod'', hstack'⟩ := ih hadd hok
    refine ⟨hsound', fun t => ?_, fun t ht h => ?_⟩
    · rw [hprod'', hprod', hprod, required_cons, required_singleton,
        FunctionRepository.requirements_of_some hf]
      tauto
    · have hts : t ≠ s := fun e => hs (e ▸ ht)
      have h' := ((hprod' t).1 (hstack' t ht h)).resolve_right hts
      exact hstack t (List.mem_cons_of_mem _ ht) h'
  | callError => cases hok
  | @marketData stack nodes s ss result _ hp hs hf hav _ ih =>
    obtain ⟨hadd, hprod⟩ := sound_addMarketData hsound hf hav hp
    obtain ⟨hsound', hprod', hstack⟩ := ih hadd hok
    refine ⟨hsound', fun t => ?_, fun t ht h => ?_⟩
    · rw [hprod', hprod, required_cons, required_singleton, FunctionRepository.requirements_of_none hf]
      simp only [not_required_nil, or_false, or_assoc]
    · have hts : t ≠ s := fun e => hs (e ▸ ht)
      exact ((hprod t).1 (hstack t ht h)).resolve_right hts
  | unsatisfied => cases hok

/-! ## What a resolution complains of -/

/-- A resolution goes wrong only at a specification that leads back to itself, or at one that neither
a function nor market data can serve. -/
inductive Complaint (r : FunctionRepository) (a : Availability) (roots : List Specification) :
    EngineError → Prop
  | cyclic {s path} : TransGen (Requires r roots) s s → Complaint r a roots (.cyclicDependency path)
  | unsatisfied {s} : Required r roots s → r.resolve? s = none → a.isAvailable s.marketDataKey = false →
    Complaint r a roots (.unsatisfiedDependency s)

theorem Resolves.complaint {roots stack ss : List Specification} {nodes : List Node} {e : EngineError}
    {made : List Consultation} (h : Resolves r a stack nodes ss (.error e) made)
    (hss : ∀ s ∈ ss, Required r roots s)
    (hstack : ∀ s ∈ ss, ∀ x ∈ stack, TransGen (Requires r roots) x s) : Complaint r a roots e := by
  generalize he : Except.error e = result at h
  induction h with
  | nil => cases he
  | known _ _ ih =>
    rw [List.forall_mem_cons] at hss hstack
    exact ih hss.2 hstack.2 he
  | cyclic hp hs =>
    cases he
    exact .cyclic (hstack _ (List.mem_cons_self ..) _ hs)
  | call _ _ _ _ _ _ ih =>
    rw [List.forall_mem_cons] at hss hstack
    exact ih hss.2 hstack.2 he
  | @callError stack nodes s ss f _ _ hp hs hf _ ih =>
    have hs := hss s (List.mem_cons_self ..)
    rw [← FunctionRepository.requirements_of_some hf] at ih
    refine ih (fun t ht => .step hs ht) (fun t ht x hx => ?_) he
    have hst : Requires r roots s t := ⟨hs, ht⟩
    rcases List.mem_cons.1 hx with rfl | hx
    · exact .single hst
    · exact (hstack s (List.mem_cons_self ..) x hx).tail hst
  | marketData _ _ _ _ _ ih =>
    rw [List.forall_mem_cons] at hss hstack
    exact ih hss.2 hstack.2 he
  | unsatisfied hp hs hf hav =>
    cases he
    exact .unsatisfied (hss _ (List.mem_cons_self ..)) hf hav

/-! ## Resolving ends -/

theorem run_bind_isSome {α β : Type} {x : Resolution α} {f : α → Resolution β}
    (hx : ∀ log, ∃ answer, x.run.run log = some answer) (hf : ∀ v log, ∃ answer, (f v).run.run log = some answer)
    (log : List Consultation) : ∃ answer, (x >>= f).run.run log = some answer := by
  obtain ⟨⟨first, log'⟩, hx⟩ := hx log
  cases first with
  | ok v =>
    rw [run_bind_of_ok hx]
    exact hf v log'
  | error e => exact ⟨_, run_bind_of_error hx f⟩

theorem run_foldlM_isSome {step : List Node → Specification → Resolution (List Node)}
    {ss : List Specification} (h : ∀ s ∈ ss, ∀ nodes log, ∃ answer, (step nodes s).run.run log = some answer)
    (nodes : List Node) (log : List Consultation) : ∃ answer, (ss.foldlM step nodes).run.run log = some answer := by
  induction ss generalizing nodes log with
  | nil => exact ⟨(.ok nodes, log), rfl⟩
  | cons s ss ih =>
    rw [List.foldlM_cons]
    rw [List.forall_mem_cons] at h
    exact run_bind_isSome (h.1 nodes) (fun next => ih h.2 next) log

/-- Over finitely many requirements every resolution ends: each call puts a new one of them on the stack. -/
theorem resolveLogged_isSome {roots : List Specification} (hfinite : {s | Required r roots s}.Finite)
    (stack : List Specification) (nodes : List Node) {s : Specification} (hs : Required r roots s)
    (log : List Consultation) : ∃ answer, resolveLogged r a stack nodes s log = some answer := by
  induction hk : (hfinite.toFinset \ stack.toFinset).card using Nat.strong_induction_on
    generalizing stack nodes s log with
  | _ k ih =>
    rw [resolveLogged]
    split
    · exact ⟨_, rfl⟩
    split
    · exact ⟨_, rfl⟩
    next hmem =>
    split
    · next f hf =>
      have hlt : (hfinite.toFinset \ (s :: stack).toFinset).card < k := by
        rw [← hk]
        refine Finset.card_lt_card (Finset.ssubset_iff_of_subset ?_ |>.2 ⟨s, ?_, ?_⟩)
        · exact Finset.sdiff_subset_sdiff (Finset.Subset.refl _) (by intro x; simp; tauto)
        · simp [hs, hmem]
        · simp
      have hconsult : (consult f stack s).run.run log = some (.ok (f.requirements s), log ++ [⟨s, stack⟩]) := rfl
      rw [run_bind_of_ok hconsult, ← FunctionRepository.requirements_of_some hf]
      refine run_bind_isSome (run_foldlM_isSome (fun t ht nodes log => ?_) nodes) (fun _ _ => ⟨_, rfl⟩) _
      exact ih _ hlt (s :: stack) nodes (.step hs ht) log rfl
    · split
      · exact ⟨_, rfl⟩
      · exact ⟨_, rfl⟩

theorem resolveAllLogged_isSome {roots : List Specification} (hfinite : {s | Required r roots s}.Finite)
    (stack : List Specification) (nodes : List Node) (log : List Consultation) :
    ∃ answer, resolveAllLogged r a stack nodes roots log = some answer :=
  run_foldlM_isSome (fun _ hs nodes log => resolveLogged_isSome hfinite stack nodes (.root hs) log) nodes log

theorem resolveAll_isSome {roots : List Specification} (hfinite : {s | Required r roots s}.Finite)
    (stack : List Specification) (nodes : List Node) : ∃ result, resolveAll r a stack nodes roots = some result := by
  obtain ⟨⟨result, made⟩, h⟩ := resolveAllLogged_isSome (a := a) hfinite stack nodes []
  exact ⟨result, by rw [resolveAll, h]; rfl⟩

end

end Graph
end Valuation
