import Mathlib.Data.List.Chain
import Valuation.Graph.Compiler
import Valuation.Proofs.Demo

/-!
# What a report of a cyclic dependency says

A cyclic dependency is found in two ways. Resolving comes upon a specification that is being resolved already, and
reports the way from it back to itself, each step of it a requirement of the one before (`Resolves.cyclic_path`).
Resolving does not miss a specification that leads back to itself (`Resolves.not_requires`), so where none does, the
cycle is one of calls that were merged. The report is then made of the outputs of one such call, which need not
require each other (`CycleReport`).
-/
namespace Valuation
namespace Graph

open Relation

variable {r : FunctionRepository} {a : Availability} {d : ViewDefinition}

/-! ## Cycles met while resolving -/

/-- The way round goes down the stack and back to its start. -/
theorem reverse_cyclePath (stack : List Specification) (s : Specification) :
    (cyclePath stack s).reverse = s :: (stack.takeWhile fun t => t ≠ s) ++ [s] := by
  simp [cyclePath]

theorem cyclePath_on_stack {stack : List Specification} {s : Specification} (h : s ∈ stack) :
    (cyclePath stack s).reverse <+: s :: stack := by
  have hdrop : ∃ rest, stack.dropWhile (fun t => decide (t ≠ s)) = s :: rest := by
    induction stack with
    | nil => simp at h
    | cons t stack ih =>
      by_cases hts : t = s
      · exact ⟨stack, by simp [hts]⟩
      · obtain ⟨rest, hrest⟩ := ih ((List.mem_cons.1 h).resolve_left (Ne.symm hts))
        exact ⟨rest, by simpa [hts] using hrest⟩
  obtain ⟨rest, hrest⟩ := hdrop
  refine ⟨rest, ?_⟩
  have hsplit := List.takeWhile_append_dropWhile (p := fun t => decide (t ≠ s)) (l := stack)
  rw [hrest] at hsplit
  rw [reverse_cyclePath]
  simpa using hsplit

/-- Every specification on the stack is required, and a requirement of the one below it. -/
structure Pending (r : FunctionRepository) (roots stack : List Specification) : Prop where
  required : ∀ s ∈ stack, Required r roots s
  requirements : stack.IsChain fun t s => t ∈ r.requirements s

/-- The way round that resolving reports goes from each specification to one of its requirements. -/
theorem Resolves.cyclic_path {roots stack ss : List Specification} {nodes : List Node} {path : List Specification}
    {made : List Consultation} (h : Resolves r a stack nodes ss (.error (.cyclicDependency path)) made)
    (hstack : ∀ s ∈ ss, Pending r roots (s :: stack)) :
    2 ≤ path.length ∧ path.head? = path.getLast? ∧ (∀ s ∈ path, Required r roots s) ∧
      path.IsChain fun s t => t ∈ r.requirements s := by
  generalize he : Except.error (EngineError.cyclicDependency path) = result at h
  induction h with
  | nil => cases he
  | known _ _ ih => exact ih (List.forall_mem_cons.1 hstack).2 he
  | @cyclic stack nodes s ss hp hs =>
    cases he
    obtain ⟨hrequired, hchain⟩ := hstack s (List.mem_cons_self ..)
    have hpath := cyclePath_on_stack hs
    have hback := List.IsChain.prefix hchain hpath
    refine ⟨by simp [cyclePath], List.getLast?_concat.symm, fun t ht => ?_, ?_⟩
    · exact hrequired t (hpath.subset (List.mem_reverse.2 ht))
    · exact List.isChain_reverse.1 hback
  | call _ _ _ _ _ _ ih => exact ih (List.forall_mem_cons.1 hstack).2 he
  | @callError stack nodes s ss f _ _ hp hs hf _ ih =>
    obtain ⟨hrequired, hchain⟩ := hstack s (List.mem_cons_self ..)
    rw [← FunctionRepository.requirements_of_some hf] at ih
    refine ih (fun t ht => ⟨?_, List.isChain_cons_cons.2 ⟨ht, hchain⟩⟩) he
    exact List.forall_mem_cons.2 ⟨.step (hrequired s (List.mem_cons_self ..)) ht, hrequired⟩
  | marketData _ _ _ _ _ ih => exact ih (List.forall_mem_cons.1 hstack).2 he
  | unsatisfied => cases he

/-! ## Resolving misses no specification that leads back to itself -/

/-- Nothing that a specification requires, directly or not, goes on without end. -/
def Grounded (r : FunctionRepository) (s : Specification) : Prop := Acc (fun t s => t ∈ r.requirements s) s

theorem Grounded.not_requires {s : Specification} (h : Grounded r s) (roots : List Specification) :
    ¬TransGen (Requires r roots) s s := by
  intro hcycle
  have hback : TransGen (fun t s => t ∈ r.requirements s) s s :=
    transGen_swap.1 (hcycle.lift id fun _ _ hst => hst.2)
  have hacc : Acc (TransGen fun t s => t ∈ r.requirements s) s := h.transGen
  induction hacc with
  | intro s _ ih => exact ih s hback h hcycle hback

theorem Resolves.grounded {stack ss : List Specification} {nodes nodes' : List Node} {made : List Consultation}
    (h : Resolves r a stack nodes ss (.ok nodes') made) (hsound : Sound r a nodes)
    (hnodes : ∀ t, Produced nodes t → Grounded r t) : ∀ t, Produced nodes' t → Grounded r t := by
  generalize hok : Except.ok nodes' = result at h
  induction h generalizing nodes' with
  | nil =>
    cases hok
    exact hnodes
  | known _ _ ih => exact ih hsound hnodes hok
  | cyclic => cases hok
  | @call stack nodes s ss f resolved result _ _ hp hs hf hres _ ihreq ih =>
    obtain ⟨hadds, hprod, hstack⟩ := hres.adds hsound
    have hreq : ∀ t ∈ f.requirements s, Produced resolved t := fun t ht => (hprod t).2 (.inr (.root ht))
    have hnew : ¬Produced resolved s := fun h => hp (hstack s (List.mem_cons_self ..) h)
    obtain ⟨hadd, hprod'⟩ := sound_addCall hadds hf hnew hreq
    have hresolved := ihreq hsound hnodes rfl
    refine ih hadd (fun t ht => ?_) hok
    rcases (hprod' t).1 ht with ht | rfl
    · exact hresolved t ht
    · refine .intro t fun u hu => hresolved u (hreq u ?_)
      rwa [FunctionRepository.requirements_of_some hf] at hu
  | callError => cases hok
  | @marketData stack nodes s ss result _ hp hs hf hav _ ih =>
    obtain ⟨hadd, hprod⟩ := sound_addMarketData hsound hf hav hp
    refine ih hadd (fun t ht => ?_) hok
    rcases (hprod t).1 ht with ht | rfl
    · exact hnodes t ht
    · refine .intro t fun u hu => ?_
      rw [FunctionRepository.requirements_of_none hf] at hu
      cases hu
  | unsatisfied => cases hok

/-- Where all requirements were resolved, no specification leads back to itself. -/
theorem Resolves.not_requires {roots : List Specification} {nodes : List Node} {made : List Consultation}
    (h : Resolves r a [] [] roots (.ok nodes) made) (s : Specification) : ¬TransGen (Requires r roots) s s := by
  intro hcycle
  have hs : Required r roots s := by
    obtain ⟨t, hst, -⟩ := TransGen.head'_iff.1 hcycle
    exact hst.1
  have hnodes : ∀ t, Produced [] t → Grounded r t := fun t ⟨n, hn, _⟩ => absurd hn List.not_mem_nil
  exact (h.grounded sound_nil hnodes s ((h.gathers.2 s).2 hs)).not_requires roots hcycle

/-! ## Cycles of merged calls -/

/-- What the node with a number stands for in the graph of calls. -/
def vertexAt (nodes : List Node) (i : Nat) : Vertex := (nodes[i]?.map nodeVertex).getD (.marketData default)

theorem Sound.calls_of_dependsOn {nodes : List Node} {roots : List Specification} (h : Sound r a nodes)
    (hprod : ∀ s, Produced nodes s ↔ Required r roots s) {i j : Nat} (hij : DependsOn nodes i j) :
    Calls r roots (vertexAt nodes i) (vertexAt nodes j) := by
  have hvertex : ∀ {s : Specification} {i : Nat}, producer? nodes s = some i → vertexOf r s = vertexAt nodes i := by
    intro s i hi
    obtain ⟨n, hn, hs⟩ := producer?_eq_some hi
    rw [vertexAt, hn, (h.node i n hn).vertexOf_eq hs]
    rfl
  obtain ⟨s, t, hst, hi, hj⟩ := (h.dependsOn_iff hprod).1 hij
  exact ⟨s, t, hst, hvertex hi, hvertex hj⟩

/-- A node that depends on itself in the end is a call that does, and its outputs are all that is asked of the
call. -/
theorem Sound.merged_call {nodes : List Node} {roots : List Specification} (h : Sound r a nodes)
    (hprod : ∀ s, Produced nodes s ↔ Required r roots s) {i : Nat} (hcycle : TransGen (DependsOn nodes) i i) :
    ∃ n function target, nodes[i]? = some n ∧
      (∀ s, s ∈ n.outputs ↔ Required r roots s ∧ vertexOf r s = .call function target) ∧
      TransGen (Calls r roots) (.call function target) (.call function target) := by
  obtain ⟨j, ⟨n, hn, t, ht, -⟩, -⟩ := TransGen.head'_iff.1 hcycle
  have hnode := h.node i n hn
  obtain ⟨s, hs, hst⟩ := (hnode.mem_inputs t).1 ht
  obtain ⟨f, hf⟩ := FunctionRepository.resolve?_of_mem_requirements hst
  have hvertex : nodeVertex n = .call f.id n.target := by
    cases hk : n.kind with
    | function g =>
      obtain rfl : f = g := Option.some.inj (hf.symm.trans (hnode.resolve?_eq_some hk hs))
      simp [nodeVertex, hk]
    | marketData key => cases hf.symm.trans (hnode.resolve?_eq_none hk hs)
  have hcalls : TransGen (Calls r roots) (vertexAt nodes i) (vertexAt nodes i) :=
    hcycle.lift (vertexAt nodes) fun _ _ hij => h.calls_of_dependsOn hprod hij
  have hat : vertexAt nodes i = .call f.id n.target := by rw [vertexAt, hn, ← hvertex]; rfl
  refine ⟨n, f.id, n.target, hn, fun u => ⟨fun hu => ⟨?_, ?_⟩, fun ⟨hu, huv⟩ => ?_⟩, hat ▸ hcalls⟩
  · exact (hprod u).1 ⟨n, List.mem_of_getElem? hn, hu⟩
  · exact (hnode.vertexOf_eq hu).trans hvertex
  · obtain ⟨k, m, hm, hum⟩ := produced_iff_getElem?.1 ((hprod u).2 hu)
    have hmn : nodeVertex m = nodeVertex n := by rw [hvertex, ← huv, (h.node k m hm).vertexOf_eq hum]
    obtain rfl := h.eq_of_nodeVertex_eq hm hn hmn
    exact Option.some.inj (hn.symm.trans hm) ▸ hum

/-! ## Reports -/

/-- What a report of a cyclic dependency says. -/
structure CycleReport (r : FunctionRepository) (roots path : List Specification) : Prop where
  two_le_length : 2 ≤ path.length
  closed : path.head? = path.getLast?
  required : ∀ s ∈ path, Required r roots s
  requirements : (∃ s, TransGen (Requires r roots) s s) → path.IsChain fun s t => t ∈ r.requirements s
  merged : (∀ s, ¬TransGen (Requires r roots) s s) → ∃ function target outputs, path = outputs ++ outputs.take 1 ∧
    outputs.Nodup ∧ (∀ s, s ∈ outputs ↔ Required r roots s ∧ vertexOf r s = .call function target) ∧
      TransGen (Calls r roots) (.call function target) (.call function target)

theorem cycleReport_closedOutputs {nodes : List Node} {roots : List Specification} (h : Sound r a nodes)
    (hprod : ∀ s, Produced nodes s ↔ Required r roots s) (hgrounded : ∀ s, ¬TransGen (Requires r roots) s s) {i : Nat}
    (hcycle : TransGen (DependsOn nodes) i i) : CycleReport r roots (closedOutputs nodes i) := by
  obtain ⟨n, function, target, hn, hmem, hcalls⟩ := h.merged_call hprod hcycle
  have hpath : closedOutputs nodes i = n.outputs ++ n.outputs.take 1 := by rw [closedOutputs, hn]
  have hnode := h.node i n hn
  obtain ⟨s, rest, houtputs⟩ := List.exists_cons_of_ne_nil hnode.outputs_ne_nil
  refine ⟨?_, ?_, fun t ht => ?_, fun ⟨s, hs⟩ => absurd hs (hgrounded s), fun _ => ?_⟩
  · simp [hpath, houtputs]
  · rw [hpath, houtputs]
    exact List.getLast?_concat.symm
  · have ht : t ∈ n.outputs := by
      rw [hpath] at ht
      rcases List.mem_append.1 ht with ht | ht
      · exact ht
      · exact List.mem_of_mem_take ht
    exact ((hmem t).1 ht).1
  · exact ⟨function, target, n.outputs, hpath, hnode.outputs_nodup, hmem, hcalls⟩

end Graph

namespace Demo

/-- A function of some values that require others on the same target. -/
def requiring (valueNames : List String) (requirements : String → List String) : CalculationFunction :=
  { id := "requiring"
    targetKinds := [.position]
    valueNames
    requirements := fun s => CalculationFunction.inputsOnTarget (requirements s.name) s
    execute := fun _ _ _ => CalculationFunction.withoutComputation "requiring" }

/-- A view of one value. -/
def viewOf (name : String) : ViewDefinition :=
  { name := "view", targets := [position 1], requested := [{ name }] }

/-- `A` requires itself. -/
def loop : FunctionRepository := { functions := [requiring ["A"] fun _ => ["A"]] }

/-- `B` requires `A`, which the same function computes and which requires nothing. -/
def merged : FunctionRepository := { functions := [requiring ["A", "B"] fun name => if name = "B" then ["A"] else []] }

theorem compile_loop : Graph.compile loop everything (viewOf "A") =
    .error (.cyclicDependency [⟨position 1, "A", ∅⟩, ⟨position 1, "A", ∅⟩]) := by
  have hagain : Graph.resolveLogged loop everything [⟨position 1, "A", ∅⟩] [] ⟨position 1, "A", ∅⟩
      [⟨⟨position 1, "A", ∅⟩, []⟩] = some
        (.error (.cyclicDependency [⟨position 1, "A", ∅⟩, ⟨position 1, "A", ∅⟩]), [⟨⟨position 1, "A", ∅⟩, []⟩]) := by
    rw [Graph.resolveLogged]
    rfl
  have hresolve : Graph.resolveLogged loop everything [] [] ⟨position 1, "A", ∅⟩ [] = some
      (.error (.cyclicDependency [⟨position 1, "A", ∅⟩, ⟨position 1, "A", ∅⟩]), [⟨⟨position 1, "A", ∅⟩, []⟩]) := by
    rw [Graph.resolveLogged_of_function rfl List.not_mem_nil rfl]
    exact congrArg (Option.map _) (Graph.resolveAllLogged_cons_error hagain [])
  have hterminals : (viewOf "A").terminals = [⟨position 1, "A", ∅⟩] := rfl
  unfold Graph.compile Graph.resolveAll
  rw [hterminals, Graph.resolveAllLogged_cons_error hresolve]
  rfl

theorem compile_merged : Graph.compile merged everything (viewOf "B") =
    .error (.cyclicDependency [⟨position 1, "A", ∅⟩, ⟨position 1, "B", ∅⟩, ⟨position 1, "A", ∅⟩]) := by
  obtain ⟨f, hf⟩ : ∃ f, merged.functions = [f] := ⟨_, rfl⟩
  have hrequired : Graph.resolveLogged merged everything [⟨position 1, "B", ∅⟩] [] ⟨position 1, "A", ∅⟩
      [⟨⟨position 1, "B", ∅⟩, []⟩] = some (.ok [⟨0, position 1, .function f, [], [⟨position 1, "A", ∅⟩]⟩],
        [⟨⟨position 1, "B", ∅⟩, []⟩, ⟨⟨position 1, "A", ∅⟩, [⟨position 1, "B", ∅⟩]⟩]) := by
    cases hf
    rw [Graph.resolveLogged_of_function rfl (by decide) rfl]
    rfl
  have hresolve : Graph.resolveLogged merged everything [] [] ⟨position 1, "B", ∅⟩ [] = some (.ok
      [⟨0, position 1, .function f, [⟨position 1, "A", ∅⟩], [⟨position 1, "A", ∅⟩, ⟨position 1, "B", ∅⟩]⟩],
      [⟨⟨position 1, "B", ∅⟩, []⟩, ⟨⟨position 1, "A", ∅⟩, [⟨position 1, "B", ∅⟩]⟩]) := by
    cases hf
    rw [Graph.resolveLogged_of_function rfl List.not_mem_nil rfl]
    exact congrArg (Option.map _) (Graph.resolveAllLogged_cons hrequired [])
  have hterminals : (viewOf "B").terminals = [⟨position 1, "B", ∅⟩] := rfl
  have horder : Search.topologicalOrder 1 ([[0]].getD · []) ([[0]].getD · []) = .error 0 := by
    have hfinished : Search.finishingOrder 1 ([[0]].getD · []) = .error 0 := by
      simp [Search.finishingOrder, Search.depthFirst, Except.map]
    exact bind_eq_error.2 (.inl hfinished)
  unfold Graph.compile Graph.resolveAll
  rw [hterminals, Graph.resolveAllLogged_cons hresolve]
  refine bind_eq_error.2 (.inr ⟨[[0]], rfl, ?_⟩)
  dsimp only
  split
  · next order hok => cases horder.symm.trans hok
  · next i herror =>
    cases horder.symm.trans herror
    rfl

end Demo

namespace GraphCompiler

open Valuation.Graph Relation

/-- A report of a cyclic dependency is a closed path of required specifications. If some specification leads back to
itself, each one in the path is a requirement of the one before. Otherwise the path goes through the outputs of one
call, and this call leads back to itself. -/
theorem compileUncached_cyclic {c : GraphCompiler} {d : ViewDefinition} {a : Availability}
    {path : List Specification} (h : c.compileUncached d a = .error (.cyclicDependency path)) :
    CycleReport c.repository d.terminals path := by
  unfold compileUncached Graph.compile at h
  split at h
  · next nodes hnodes =>
    obtain ⟨_, hresolves⟩ := resolves_of_resolveAll hnodes
    obtain ⟨hsound, hprod⟩ := hresolves.gathers
    obtain ⟨i, hpath, hcycle⟩ := ofNodes_eq_error hsound.produced_of_mem_inputs h
    cases hpath
    exact cycleReport_closedOutputs hsound hprod hresolves.not_requires hcycle
  · next e herror =>
    cases h
    obtain ⟨_, hresolves⟩ := resolves_of_resolveAll herror
    obtain ⟨hlength, hclosed, hrequired, hchain⟩ := hresolves.cyclic_path
      fun s hs => ⟨by simpa using Required.root hs, List.isChain_singleton s⟩
    have hcycle : ∃ s, TransGen (Requires c.repository d.terminals) s s := by
      cases hresolves.complaint (fun s hs => .root hs) (by simp) with
      | cyclic hs => exact ⟨_, hs⟩
    exact ⟨hlength, hclosed, hrequired, fun _ => hchain, fun hnone => absurd hcycle.choose_spec (hnone _)⟩
  · cases h

theorem demo_cyclic : (GraphCompiler.ofRepository Demo.loop 1).compileUncached (Demo.viewOf "A") Demo.everything =
      .error (.cyclicDependency [⟨Demo.position 1, "A", ∅⟩, ⟨Demo.position 1, "A", ∅⟩]) ∧
    [⟨Demo.position 1, "A", ∅⟩, ⟨Demo.position 1, "A", ∅⟩].IsChain fun s t => t ∈ Demo.loop.requirements s := by
  have hreport : (GraphCompiler.ofRepository Demo.loop 1).compileUncached (Demo.viewOf "A") Demo.everything =
      .error (.cyclicDependency [⟨Demo.position 1, "A", ∅⟩, ⟨Demo.position 1, "A", ∅⟩]) := Demo.compile_loop
  have hself : Requires Demo.loop (Demo.viewOf "A").terminals ⟨Demo.position 1, "A", ∅⟩ ⟨Demo.position 1, "A", ∅⟩ :=
    ⟨.root (by decide), by decide⟩
  exact ⟨hreport, (compileUncached_cyclic hreport).requirements ⟨_, .single hself⟩⟩

/-- `B` requires `A`, which one call computes as well, and `A` requires nothing. The report goes from `A` to `B` all
the same. -/
theorem cyclic_without_requirement :
    (GraphCompiler.ofRepository Demo.merged 1).compileUncached (Demo.viewOf "B") Demo.everything =
      .error (.cyclicDependency
        [⟨Demo.position 1, "A", ∅⟩, ⟨Demo.position 1, "B", ∅⟩, ⟨Demo.position 1, "A", ∅⟩]) ∧
    Demo.merged.requirements ⟨Demo.position 1, "A", ∅⟩ = [] ∧
    ¬[⟨Demo.position 1, "A", ∅⟩, ⟨Demo.position 1, "B", ∅⟩, ⟨Demo.position 1, "A", ∅⟩].IsChain
      fun s t => t ∈ Demo.merged.requirements s :=
  ⟨Demo.compile_merged, rfl, by decide⟩

end GraphCompiler
end Valuation
