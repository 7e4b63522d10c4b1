import Valuation.Proofs.Demo
import Valuation.Proofs.Terminals

/-!
# The graph compiler

What a compiled graph is: the requirement closure of its view (`isClosure_of_compileUncached`), with
numbers, edges and an order that fit together (`wellFormed_of_compileUncached`). And when a view has one
(`compileUncached_complete`).
-/
namespace Valuation

namespace Graph

/-- A graph is the requirement closure of a view: it has what the view needs, no more, and all of it
once. -/
structure IsClosure (r : FunctionRepository) (a : Availability) (d : ViewDefinition) (g : Graph) :
    Prop where
  terminals : g.terminals = (d.admitted.map fun p => p.2.specification p.1).eraseDups
  outputs : ∀ s, (∃ n ∈ g.nodes, s ∈ n.outputs) ↔ Required r g.terminals s
  producer : ∀ s, Required r g.terminals s → ∃ (i : Nat) (n : Node),
    g.node? i = some n ∧ g.producerOf? s = some i ∧ n.outputs.count s = 1 ∧
      (∀ (j : Nat) m, g.node? j = some m → s ∈ m.outputs → j = i) ∧
      match r.resolve? s with
      | some f => n.kind = .function f ∧ n.target = s.target
      | none => n.kind = .marketData s.marketDataKey ∧ a.isAvailable s.marketDataKey
  call_unique : ∀ (i j : Nat) n m id, g.node? i = some n → g.node? j = some m →
    n.functionId? = some id → m.functionId? = some id → n.target = m.target → i = j
  inputs_nodup : ∀ n ∈ g.nodes, n.inputs.Nodup
  function_inputs : ∀ n ∈ g.nodes, ∀ f, n.kind = .function f →
    ∀ t, t ∈ n.inputs ↔ ∃ s ∈ n.outputs, t ∈ f.requirements s

end Graph

namespace GraphCompiler

open Valuation.Graph

variable {c : GraphCompiler} {a : Availability} {d : ViewDefinition} {g : Graph}

/-- The nodes of a compiled graph are numbered in place, its edges lead once from each producer to each
consumer, and it lists every node behind all that it depends on. -/
theorem wellFormed_of_compileUncached (h : c.compileUncached d a = .ok g) : g.WellFormed := by
  obtain ⟨nodes, hsound, -, hg⟩ := compile_eq_ok h
  exact ofNodes_wellFormed hsound.numbered hg

theorem demo_wellFormed : ∃ r g, Demo.repository = .ok r ∧
    (ofRepository r 1).compileUncached (Demo.definition 2) Demo.everything = .ok g ∧ g.WellFormed := by
  obtain ⟨r, g, hr, -, hg⟩ := Demo.exists_graph 2
  exact ⟨r, g, hr, hg, wellFormed_of_compileUncached hg⟩

/-- A compiled graph is the requirement closure of its view. -/
theorem isClosure_of_compileUncached (h : c.compileUncached d a = .ok g) :
    IsClosure c.repository a d g := by
  obtain ⟨nodes, hsound, hprod, hg⟩ := compile_eq_ok h
  obtain ⟨-, hterminals, rfl, -⟩ := ofNodes_eq_ok hg
  rw [← hterminals] at hprod
  refine ⟨by rw [hterminals, d.terminals_eq], hprod, fun s hs => ?_, hsound.call_unique, ?_, ?_⟩
  · obtain ⟨i, n, hn, hsn⟩ := produced_iff_getElem?.1 ((hprod s).2 hs)
    have hnode := hsound.node i n hn
    obtain ⟨htarget, hserves⟩ := hnode.serves s hsn
    refine ⟨i, n, hn, hsound.producer?_eq_some_iff.2 ⟨n, hn, hsn⟩,
      List.count_eq_one_of_mem hnode.outputs_nodup hsn,
      fun j m hm hsm => hsound.output_unique j i m n s hm hn hsm hsn, ?_⟩
    cases hf : c.repository.resolve? s with
    | some f =>
      rw [hf] at hserves
      exact ⟨hserves, htarget⟩
    | none =>
      rw [hf] at hserves
      exact hserves
  · exact fun n hn => (hsound.node_of_mem hn).inputs_nodup
  · intro n hn f hf t
    have hnode := hsound.node_of_mem hn
    rw [hnode.mem_inputs]
    refine exists_congr fun s => and_congr_right fun hs => ?_
    rw [hnode.requirements_eq hf hs]

theorem demo_isClosure : ∃ r g, Demo.repository = .ok r ∧
    (ofRepository r 1).compileUncached (Demo.definition 2) Demo.everything = .ok g ∧
    IsClosure r Demo.everything (Demo.definition 2) g := by
  obtain ⟨r, g, hr, -, hg⟩ := Demo.exists_graph 2
  exact ⟨r, g, hr, hg, isClosure_of_compileUncached hg⟩

/-- A view with finitely many requirements has a graph just if all of them are satisfied and its calls
do not go round in a circle. What fails alone is what the error reports. -/
theorem compileUncached_complete (hfinite : {s | Required c.repository d.terminals s}.Finite) :
    ((∃ g, c.compileUncached d a = .ok g) ↔
      Satisfied c.repository a d.terminals ∧ AcyclicCalls c.repository d.terminals) ∧
    (¬Satisfied c.repository a d.terminals → AcyclicCalls c.repository d.terminals →
      ∃ s, c.compileUncached d a = .error (.unsatisfiedDependency s) ∧
        Required c.repository d.terminals s ∧ c.repository.resolve? s = none ∧
        a.isAvailable s.marketDataKey = false) ∧
    (Satisfied c.repository a d.terminals → ¬AcyclicCalls c.repository d.terminals →
      ∃ path, c.compileUncached d a = .error (.cyclicDependency path)) := by
  have hiff := compile_isOk_iff (a := a) hfinite
  refine ⟨hiff, fun hsatisfied hacyclic => ?_, fun hsatisfied hacyclic => ?_⟩
  · cases he : c.compileUncached d a with
    | ok g => exact absurd (hiff.1 ⟨g, he⟩).1 hsatisfied
    | error e =>
      rcases compile_eq_error hfinite he with ⟨s, rfl, hs⟩ | ⟨-, hcyclic⟩
      · exact ⟨s, rfl, hs⟩
      · exact absurd hacyclic hcyclic
  · cases he : c.compileUncached d a with
    | ok g => exact absurd (hiff.1 ⟨g, he⟩).2 hacyclic
    | error e =>
      rcases compile_eq_error hfinite he with ⟨s, -, hs, hf, hav⟩ | ⟨⟨path, rfl⟩, -⟩
      · simpa [hf, hav] using hsatisfied s hs
      · exact ⟨path, rfl⟩

theorem demo_complete : ∃ r, Demo.repository = .ok r ∧
    {s | Required r (Demo.definition 2).terminals s}.Finite ∧
    ∃ g, (ofRepository r 1).compileUncached (Demo.definition 2) Demo.everything = .ok g := by
  obtain ⟨r, hr, hfunctions⟩ := Demo.repository_eq_ok
  have hlayered := Demo.layered hfunctions
  have hfinite := hlayered.finite_required (Demo.definition 2).terminals
  exact ⟨r, hr, hfinite, (compileUncached_complete hfinite).1.2
    ⟨fun _ _ => .inr rfl, hlayered.acyclicCalls _⟩⟩

end GraphCompiler
end Valuation
