import Mathlib.Data.Finset.Prod
import Mathlib.Data.Set.Card
import Mathlib.Data.Set.Finite.Lattice
import Valuation.Proofs.Graph.Cycles
import Valuation.Proofs.Graph.Resolution

/-!
# What resolving consults functions about

Resolving consults a function about what a specification requires, and keeps the specification on the stack until its
requirements are resolved. Along every resolution there is one consultation about a specification at most, while it is
neither produced nor on the stack (`Resolves.course`). So over finitely many requirements resolving ends with a stack
that holds each of them once at most, whether they lead back to themselves or not (`resolving_ends`). Where each leads
to another one there is no answer (`Demo.resolveAll_endless`).
-/
namespace Valuation

/-! ## Finite closures -/

/-- Requirements have the name of the output or one from a fixed list, and so their target and their properties. -/
def Confined (r : FunctionRepository) : Prop :=
  ∃ (names : List String) (targets : List Target) (properties : List Properties), ∀ s, ∀ t ∈ r.requirements s,
    (t.name = s.name ∨ t.name ∈ names) ∧ (t.target = s.target ∨ t.target ∈ targets) ∧
      (t.properties = s.properties ∨ t.properties ∈ properties)

theorem Confined.finite_required {r : FunctionRepository} (h : Confined r) (roots : List Specification) :
    {s | Required r roots s}.Finite := by
  obtain ⟨names, targets, properties, h⟩ := h
  let parts : Specification → String × Target × Properties := fun s => (s.name, s.target, s.properties)
  have hinjective : parts.Injective := by
    rintro ⟨t, n, p⟩ ⟨t', n', p'⟩ heq
    obtain ⟨rfl, rfl, rfl⟩ : n = n' ∧ t = t' ∧ p = p' := by simpa [parts] using heq
    rfl
  have hparts : ∀ s, Required r roots s → s.name ∈ names ++ roots.map (·.name) ∧
      s.target ∈ targets ++ roots.map (·.target) ∧ s.properties ∈ properties ++ roots.map (·.properties) := by
    intro s hs
    induction hs with
    | root hs =>
      exact ⟨List.mem_append_right _ (List.mem_map_of_mem hs), List.mem_append_right _ (List.mem_map_of_mem hs),
        List.mem_append_right _ (List.mem_map_of_mem hs)⟩
    | @step s t _ ht ih =>
      obtain ⟨hname, htarget, hproperties⟩ := h s t ht
      refine ⟨?_, ?_, ?_⟩
      · exact hname.elim (fun heq => heq ▸ ih.1) fun hmem => List.mem_append_left _ hmem
      · exact htarget.elim (fun heq => heq ▸ ih.2.1) fun hmem => List.mem_append_left _ hmem
      · exact hproperties.elim (fun heq => heq ▸ ih.2.2) fun hmem => List.mem_append_left _ hmem
  have hfinite := (List.finite_toSet (names ++ roots.map (·.name))).prod
    ((List.finite_toSet (targets ++ roots.map (·.target))).prod
      (List.finite_toSet (properties ++ roots.map (·.properties))))
  exact (hfinite.preimage hinjective.injOn).subset hparts

theorem required_append {r : FunctionRepository} {ss ts : List Specification} {s : Specification} :
    Required r (ss ++ ts) s ↔ Required r ss s ∨ Required r ts s := by
  induction ss with
  | nil => simp [not_required_nil]
  | cons t ss ih => rw [List.cons_append, required_cons, ih, @required_cons r t s ss, or_assoc]

namespace Graph

/-! ## The course of a resolution -/

/-- Why a consultation is due in resolving some specifications. -/
structure Consultation.Due (r : FunctionRepository) (stack : List Specification) (nodes : List Node)
    (ss : List Specification) (q : Consultation) : Prop where
  required : Required r ss q.specification
  computed : ∃ f, r.resolve? q.specification = some f
  unproduced : ¬Produced nodes q.specification
  unstacked : q.specification ∉ q.below
  below : ∃ pushed, q.below = pushed ++ stack ∧ ∀ t ∈ pushed, Required r ss t
  nodup : stack.Nodup → q.below.Nodup

/-- The consultations in resolving some specifications: every one is due, there are no two about one specification, and
nothing that a function computes is resolved without any. -/
structure Course (r : FunctionRepository) (stack : List Specification) (nodes : List Node) (ss : List Specification)
    (result : Except EngineError (List Node)) (made : List Consultation) : Prop where
  due : ∀ q ∈ made, q.Due r stack nodes ss
  once : (made.map (·.specification)).Nodup
  complete : ∀ nodes', result = .ok nodes' → ∀ s f, Required r ss s → ¬Produced nodes s → r.resolve? s = some f →
    s ∈ made.map (·.specification)

section
variable {r : FunctionRepository} {a : Availability} {stack xs ys : List Specification} {nodes next : List Node}
  {s : Specification} {result : Except EngineError (List Node)} {made made' : List Consultation}

theorem Consultation.Due.mono {q : Consultation} (h : q.Due r stack next xs)
    (hnodes : ∀ t, Produced nodes t → Produced next t) (hss : ∀ t, Required r xs t → Required r ys t) :
    q.Due r stack nodes ys := by
  obtain ⟨pushed, hbelow, hpushed⟩ := h.below
  exact ⟨hss _ h.required, h.computed, fun hp => h.unproduced (hnodes _ hp), h.unstacked,
    ⟨pushed, hbelow, fun t ht => hss t (hpushed t ht)⟩, h.nodup⟩

/-- There are no consultations where nothing is left to resolve that a function computes. -/
theorem course_silent
    (hsilent : ∀ nodes' t f, result = .ok nodes' → Required r xs t → ¬Produced nodes t → r.resolve? t ≠ some f) :
    Course r stack nodes xs result [] where
  due := by simp
  once := .nil
  complete nodes' hok t f hreq hp hf := absurd hf (hsilent nodes' t f hok hreq hp)

theorem Course.append (hprod : ∀ t, Produced next t ↔ Produced nodes t ∨ Required r xs t)
    (hx : Course r stack nodes xs (.ok next) made) (hy : Course r stack next ys result made') :
    Course r stack nodes (xs ++ ys) result (made ++ made') := by
  refine ⟨fun q hq => ?_, ?_, fun nodes' hok t f hreq hp hf => ?_⟩
  · obtain hq | hq := List.mem_append.1 hq
    · exact (hx.due q hq).mono (fun _ ht => ht) fun _ ht => required_append.2 (.inl ht)
    · exact (hy.due q hq).mono (fun t ht => (hprod t).2 (.inl ht)) fun _ ht => required_append.2 (.inr ht)
  · -- what there was a consultation about is produced by the time the rest is resolved
    rw [List.map_append, List.nodup_append]
    refine ⟨hx.once, hy.once, fun t ht t' ht' heq => ?_⟩
    obtain ⟨q, hq, rfl⟩ := List.mem_map.1 ht
    obtain ⟨q', hq', rfl⟩ := List.mem_map.1 ht'
    refine (hy.due q' hq').unproduced ((hprod _).2 (.inr ?_))
    rw [← heq]
    exact (hx.due q hq).required
  · rw [List.map_append, List.mem_append]
    by_cases hxs : Required r xs t
    · exact .inl (hx.complete next rfl t f hxs hp hf)
    · have hys : Required r ys t := (required_append.1 hreq).resolve_left hxs
      have hp' : ¬Produced next t := fun h => ((hprod t).1 h).elim hp hxs
      exact .inr (hy.complete nodes' hok t f hys hp' hf)

theorem Course.append_error {e : EngineError} (hx : Course r stack nodes xs (.error e) made)
    (ys : List Specification) : Course r stack nodes (xs ++ ys) (.error e) made where
  due q hq := (hx.due q hq).mono (fun _ ht => ht) fun _ ht => required_append.2 (.inl ht)
  once := hx.once
  complete _ hok := nomatch hok

/-- The consultation about a specification comes before those about its requirements. -/
theorem Course.call {f : CalculationFunction} (hp : ¬Produced nodes s) (hs : s ∉ stack) (hf : r.resolve? s = some f)
    (h : Course r (s :: stack) nodes (f.requirements s) result made) :
    Course r stack nodes [s] (result.map fun resolved => addCall resolved f s (f.requirements s))
      (⟨s, stack⟩ :: made) := by
  have hrequired : ∀ t, Required r (f.requirements s) t → Required r [s] t := by
    intro t ht
    rw [← FunctionRepository.requirements_of_some hf] at ht
    exact required_singleton.2 (.inr ht)
  have hself : Required r [s] s := .root (List.mem_singleton_self s)
  refine ⟨fun q hq => ?_, ?_, fun nodes' hok t g hreq hpt hg => ?_⟩
  · obtain rfl | hq := List.mem_cons.1 hq
    · exact ⟨hself, ⟨f, hf⟩, hp, hs, ⟨[], rfl, by simp⟩, fun hnodup => hnodup⟩
    · have hdue := h.due q hq
      obtain ⟨pushed, hbelow, hpushed⟩ := hdue.below
      refine ⟨hrequired _ hdue.required, hdue.computed, hdue.unproduced, hdue.unstacked,
        ⟨pushed ++ [s], by simp [hbelow], ?_⟩, fun hnodup => hdue.nodup (List.nodup_cons.2 ⟨hs, hnodup⟩)⟩
      intro t ht
      obtain ht | ht := List.mem_append.1 ht
      · exact hrequired t (hpushed t ht)
      · rwa [List.mem_singleton.1 ht]
  · rw [List.map_cons, List.nodup_cons]
    refine ⟨fun hmem => ?_, h.once⟩
    obtain ⟨q, hq, hqs⟩ := List.mem_map.1 hmem
    obtain ⟨pushed, hbelow, -⟩ := (h.due q hq).below
    refine (h.due q hq).unstacked ?_
    simp [hbelow, hqs]
  · obtain ⟨resolved, hresolved, -⟩ := map_eq_ok.1 hok
    rw [List.map_cons, List.mem_cons]
    obtain rfl | hreq := required_singleton.1 hreq
    · exact .inl rfl
    · rw [FunctionRepository.requirements_of_some hf] at hreq
      exact .inr (h.complete resolved hresolved t g hreq hpt hg)

/-- Every resolution takes that course. -/
theorem Resolves.course {ss : List Specification} (h : Resolves r a stack nodes ss result made)
    (hsound : Sound r a nodes) : Course r stack nodes ss result made := by
  induction h with
  | nil => exact course_silent fun _ _ _ _ hreq => absurd hreq not_required_nil
  | @known stack nodes s ss result made hp _ ih =>
    have hrequired : ∀ t, Required r [s] t → Produced nodes t := fun t ht =>
      hsound.produced_of_required (by simpa using hp) ht
    have hfirst : Course r stack nodes [s] (.ok nodes) [] :=
      course_silent fun _ t _ _ hreq hnew => absurd (hrequired t hreq) hnew
    exact hfirst.append (fun t => ⟨.inl, fun ht => ht.elim id (hrequired t)⟩) (ih hsound)
  | cyclic => exact course_silent nofun
  | @call stack nodes s ss f resolved result made made' hp hs hf hreq _ ihreq ih =>
    have hresolves : Resolves r a stack nodes [s] (.ok (addCall resolved f s (f.requirements s)))
      (⟨s, stack⟩ :: (made ++ [])) := .call hp hs hf hreq .nil
    obtain ⟨hsound', hprod, -⟩ := hresolves.adds hsound
    have hfirst : Course r stack nodes [s] (.ok (addCall resolved f s (f.requirements s))) (⟨s, stack⟩ :: made) :=
      (ihreq hsound).call hp hs hf
    exact hfirst.append hprod (ih hsound')
  | @callError stack nodes s ss f e made hp hs hf _ ih =>
    have hfirst : Course r stack nodes [s] (.error e) (⟨s, stack⟩ :: made) := (ih hsound).call hp hs hf
    exact hfirst.append_error ss
  | @marketData stack nodes s ss result made hp hs hf hav _ ih =>
    obtain ⟨hsound', hprod⟩ := sound_addMarketData hsound hf hav hp
    have hrequired : ∀ t, Required r [s] t ↔ t = s := by
      intro t
      rw [required_singleton, FunctionRepository.requirements_of_none hf, or_iff_left not_required_nil]
    have hfirst : Course r stack nodes [s] (.ok (addMarketData nodes s)) [] := by
      refine course_silent fun _ t f _ hreq _ => ?_
      rw [(hrequired t).1 hreq, hf]
      exact nofun
    exact hfirst.append (fun t => (hprod t).trans (or_congr_right (hrequired t).symm)) (ih hsound')
  | unsatisfied => exact course_silent nofun

end

/-! ## Resolving ends -/

/-- The requirements of a view are finitely many if they are taken from fixed lists or from the outputs. Over finitely
many requirements, whether they lead back to themselves or not, every terminal requirement is resolved or refused,
whatever is on the stack and at hand. In one compilation no function is consulted about a specification twice, no
specification is on the stack twice, and the stack holds no more of them than are required. A resolution that succeeds
has consulted functions about just those that they compute. -/
theorem resolving_ends (r : FunctionRepository) (a : Availability) (d : ViewDefinition) :
    (Confined r → {s | Required r d.terminals s}.Finite) ∧
    ({s | Required r d.terminals s}.Finite →
      (∀ stack nodes, ∀ s ∈ d.terminals, ∃ result, resolve r a stack nodes s = some result) ∧
      ∃ result made, resolveAll r a [] [] d.terminals = some result ∧
        resolveAllLogged r a [] [] d.terminals [] = some (result, made) ∧ (made.map (·.specification)).Nodup ∧
        (∀ q ∈ made, q.stack.Nodup ∧ (∀ s ∈ q.stack, Required r d.terminals s) ∧
          q.stack.length ≤ {s | Required r d.terminals s}.ncard) ∧
        ∀ nodes, result = .ok nodes → ∀ s, s ∈ made.map (·.specification) ↔
          Required r d.terminals s ∧ ∃ f, r.resolve? s = some f) := by
  refine ⟨fun h => h.finite_required d.terminals, fun hfinite => ⟨fun stack nodes s hs => ?_, ?_⟩⟩
  · obtain ⟨⟨result, made⟩, h⟩ := resolveLogged_isSome (a := a) hfinite stack nodes (.root hs) []
    exact ⟨result, by rw [resolve, h]; rfl⟩
  obtain ⟨⟨result, made⟩, hlogged⟩ := resolveAllLogged_isSome (a := a) hfinite [] [] []
  have hresult : resolveAll r a [] [] d.terminals = some result := by rw [resolveAll, hlogged]; rfl
  have hcourse := (resolves_of_resolveAllLogged hlogged).course sound_nil
  refine ⟨result, made, hresult, hlogged, hcourse.once, fun q hq => ?_, fun nodes hok s => ⟨fun hs => ?_, ?_⟩⟩
  · have hdue := hcourse.due q hq
    obtain ⟨pushed, hbelow, hpushed⟩ := hdue.below
    have hnodup : q.stack.Nodup := List.nodup_cons.2 ⟨hdue.unstacked, hdue.nodup .nil⟩
    have hrequired : ∀ s ∈ q.stack, Required r d.terminals s := by
      intro s hs
      obtain rfl | hs := List.mem_cons.1 hs
      · exact hdue.required
      · rw [hbelow, List.append_nil] at hs
        exact hpushed s hs
    refine ⟨hnodup, hrequired, ?_⟩
    rw [← List.toFinset_card_of_nodup hnodup, Set.ncard_eq_toFinset_card _ hfinite]
    exact Finset.card_le_card fun s hs => hfinite.mem_toFinset.2 (hrequired s (List.mem_toFinset.1 hs))
  · obtain ⟨q, hq, rfl⟩ := List.mem_map.1 hs
    exact ⟨(hcourse.due q hq).required, (hcourse.due q hq).computed⟩
  · rintro ⟨hs, f, hf⟩
    exact hcourse.complete nodes hok s f hs (by simp [Produced]) hf

theorem confined_loop : Confined Demo.loop := by
  refine ⟨["A"], [], [∅], fun s t ht => ?_⟩
  obtain ⟨f, hf⟩ := FunctionRepository.resolve?_of_mem_requirements ht
  rw [FunctionRepository.requirements_of_some hf] at ht
  obtain ⟨hmem, -⟩ := FunctionRepository.resolves_of_resolve? hf
  rw [List.mem_singleton.1 hmem] at ht
  rw [List.mem_singleton.1 ht]
  exact ⟨.inr (by simp), .inl rfl, .inr (by simp)⟩

/-- A requirement that leads back to itself is one requirement, and on the stack once. -/
theorem loop_ends : {s | Required Demo.loop (Demo.viewOf "A").terminals s}.Finite ∧
    ∃ result made, (∀ q ∈ made, q.stack.Nodup) ∧
      resolveAllLogged Demo.loop Demo.everything [] [] (Demo.viewOf "A").terminals [] = some (result, made) := by
  obtain ⟨hconfined, hends⟩ := resolving_ends Demo.loop Demo.everything (Demo.viewOf "A")
  have hfinite := hconfined confined_loop
  obtain ⟨-, result, made, -, hlogged, -, hstack, -⟩ := hends hfinite
  exact ⟨hfinite, result, made, fun q hq => (hstack q hq).1, hlogged⟩

end Graph

namespace Demo

/-! ## Resolving need not end -/

/-- A value on a position requires the same value on a position with a longer name. -/
def endless : FunctionRepository :=
  { functions := [{ requiring ["A"] fun _ => [] with
      requirements := fun s => [{ s with target := .position (s.target.id.text ++ "*") }] }] }

theorem not_resolves_endless {a : Availability} {stack : List Specification} {nodes : List Node}
    {ss : List Specification} {result : Except EngineError (List Node)} {made : List Graph.Consultation}
    (h : Graph.Resolves endless a stack nodes ss result made) (hnodes : nodes = []) (name : String)
    (hss : ss = [⟨.position name, "A", ∅⟩]) (hstack : ∀ t ∈ stack, t.target.id.text.length < name.length) : False := by
  induction h generalizing name with
  | nil => cases hss
  | known hp =>
    obtain ⟨n, hn, -⟩ := hp
    rw [hnodes] at hn
    cases hn
  | cyclic _ hs =>
    cases hss
    exact absurd (hstack _ hs) (Nat.lt_irrefl _)
  | call _ _ hf _ _ ih | callError _ _ hf _ ih =>
    cases hss
    cases hf
    refine ih hnodes (name ++ "*") rfl fun t ht => ?_
    have hlonger : name.length < (name ++ "*").length := by
      rw [String.length_append]
      exact Nat.lt_add_of_pos_right (by decide)
    obtain rfl | ht := List.mem_cons.1 ht
    · exact hlonger
    · exact (hstack t ht).trans hlonger
  | marketData _ _ hf | unsatisfied _ _ hf =>
    cases hss
    cases hf

/-- Where requirements lead on without end there is no answer, not even an error. -/
theorem resolveAll_endless (a : Availability) :
    Graph.resolveAll endless a [] [] (viewOf "A").terminals = none := by
  refine Option.eq_none_iff_forall_ne_some.2 fun result hresult => ?_
  obtain ⟨made, h⟩ := Graph.resolves_of_resolveAll hresult
  exact not_resolves_endless h rfl _ rfl (by simp)

end Demo
end Valuation
