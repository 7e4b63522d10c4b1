import Valuation.Proofs.Graph.Compilation
import Valuation.Proofs.Search.BreadthFirst

/-!
# Runnable graphs

What the runs of a graph rely on (`Runnable`), and that every compiled graph has it (`runnable_of_compile`).
-/
namespace Valuation
namespace Graph

open Relation

/-- A graph whose outputs have one producer each, whose inputs are not repeated, and whose market data nodes
have none. -/
structure Runnable (g : Graph) : Prop extends g.WellFormed where
  producerOf?_eq_some_iff : ∀ s i, g.producerOf? s = some i ↔ ∃ n, g.node? i = some n ∧ s ∈ n.outputs
  outputs_nodup : ∀ (i : Nat) n, g.node? i = some n → n.outputs.Nodup
  outputs_ne_nil : ∀ (i : Nat) n, g.node? i = some n → n.outputs ≠ []
  inputs_nodup : ∀ (i : Nat) n, g.node? i = some n → n.inputs.Nodup
  marketData_inputs : ∀ (i : Nat) n key, g.node? i = some n → n.kind = .marketData key → n.inputs = []

variable {r : FunctionRepository} {a : Availability} {d : ViewDefinition}

theorem runnable_of_compile {g : Graph} (h : compile r a d = .ok g) : g.Runnable := by
  obtain ⟨nodes, hsound, -, hg⟩ := compile_eq_ok h
  have hwell := ofNodes_wellFormed hsound.numbered hg
  obtain ⟨-, -, rfl, -⟩ := ofNodes_eq_ok hg
  refine ⟨hwell, fun s i => hsound.producer?_eq_some_iff, fun i n hn => (hsound.node i n hn).outputs_nodup,
    fun i n hn => (hsound.node i n hn).outputs_ne_nil, fun i n hn => (hsound.node i n hn).inputs_nodup,
    fun i n key hn hkey => ?_⟩
  have hnode := hsound.node i n hn
  refine List.eq_nil_iff_forall_not_mem.2 fun t ht => ?_
  obtain ⟨s, hs, hst⟩ := (hnode.mem_inputs t).1 ht
  rw [FunctionRepository.requirements_of_none (hnode.resolve?_eq_none hkey hs)] at hst
  cases hst

theorem terminals_of_compile {g : Graph} (h : compile r a d = .ok g) : g.terminals = d.terminals := by
  obtain ⟨_, _, _, hg⟩ := compile_eq_ok h
  exact (ofNodes_eq_ok hg).2.1

/-- What a view asks for is produced. -/
theorem exists_producer_of_compile {g : Graph} (h : compile r a d = .ok g) {s : Specification}
    (hs : s ∈ g.terminals) : ∃ i, g.producerOf? s = some i := by
  obtain ⟨nodes, hsound, hprod, hg⟩ := compile_eq_ok h
  obtain ⟨-, hterminals, rfl, -⟩ := ofNodes_eq_ok hg
  obtain ⟨i, n, hn, hsn⟩ := produced_iff_getElem?.1 ((hprod s).2 (.root (hterminals ▸ hs)))
  exact ⟨i, hsound.producer?_eq_some_iff.2 ⟨n, hn, hsn⟩⟩

theorem function_mem_of_compile {g : Graph} (h : compile r a d = .ok g) {n : Node} (hn : n ∈ g.nodes)
    {f : CalculationFunction} (hf : n.kind = .function f) : f ∈ r.functions := by
  obtain ⟨nodes, hsound, -, hg⟩ := compile_eq_ok h
  obtain ⟨-, -, rfl, -⟩ := ofNodes_eq_ok hg
  exact (hsound.node_of_mem hn).function_mem hf

/-- One node is among those that another depends on. -/
def Feeds (g : Graph) (j i : Nat) : Prop := j ∈ g.dependenciesOf i

theorem outputsOf_eq {g : Graph} {i : Nat} {n : Node} (hn : g.node? i = some n) :
    g.outputsOf i = n.outputs := by
  rw [outputsOf, hn]

theorem mem_outputsOf_iff {g : Graph} {i : Nat} {t : Specification} :
    t ∈ g.outputsOf i ↔ ∃ n, g.node? i = some n ∧ t ∈ n.outputs := by
  unfold outputsOf
  cases g.node? i with
  | none => simp
  | some n => simp

theorem lt_size_of_mem_outputsOf {g : Graph} {i : Nat} {t : Specification} (h : t ∈ g.outputsOf i) :
    i < g.size := by
  obtain ⟨n, hn, -⟩ := mem_outputsOf_iff.1 h
  exact (List.getElem?_eq_some_iff.1 hn).1

section
variable {g : Graph} {i j : Nat} (h : g.Runnable)
include h

theorem Runnable.lt_size_of_mem_dependentsOf (i : Nat) : ∀ j ∈ g.dependentsOf i, j < g.size := by
  intro j hj
  obtain ⟨n, hn, -⟩ := (h.mem_dependenciesOf j i).1 ((h.mem_dependentsOf i j).1 hj)
  exact (List.getElem?_eq_some_iff.1 hn).1

theorem Runnable.nodup_dependentsOf (i : Nat) : (g.dependentsOf i).Nodup :=
  (h.dependents_sorted i).imp Nat.ne_of_lt

theorem Runnable.mem_downstream_iff :
    j ∈ g.downstream i ↔ TransGen (Search.Edge g.dependentsOf) i j :=
  Search.mem_breadthFirst_iff h.lt_size_of_mem_dependentsOf

theorem Runnable.outputsOf_ne_nil (hi : i < g.size) : g.outputsOf i ≠ [] := by
  have hn : g.node? i = some g.nodes[i] := List.getElem?_eq_getElem hi
  rw [outputsOf_eq hn]
  exact h.outputs_ne_nil i _ hn

theorem Runnable.eq_of_mem_outputsOf {s : Specification} (hi : s ∈ g.outputsOf i) (hj : s ∈ g.outputsOf j) :
    i = j := by
  have hpi := (h.producerOf?_eq_some_iff s i).2 (mem_outputsOf_iff.1 hi)
  have hpj := (h.producerOf?_eq_some_iff s j).2 (mem_outputsOf_iff.1 hj)
  exact Option.some.inj (hpi.symm.trans hpj)

/-- No two nodes have an output in common. -/
theorem Runnable.outputs_disjoint : g.nodes.Pairwise fun n m => n.outputs.Disjoint m.outputs := by
  refine List.pairwise_iff_getElem.2 fun i j hi hj hij s hsi hsj => ?_
  have hi' : s ∈ g.outputsOf i := mem_outputsOf_iff.2 ⟨_, List.getElem?_eq_getElem hi, hsi⟩
  have hj' : s ∈ g.outputsOf j := mem_outputsOf_iff.2 ⟨_, List.getElem?_eq_getElem hj, hsj⟩
  exact Nat.ne_of_lt hij (h.eq_of_mem_outputsOf hi' hj')

theorem Runnable.idxOf_lt_of_mem_dependenciesOf (hj : j ∈ g.dependenciesOf i) :
    j < g.size ∧ g.order.idxOf j < g.order.idxOf i := by
  obtain ⟨n, hn, t, ht, hp⟩ := (h.mem_dependenciesOf i j).1 hj
  obtain ⟨p, hp', hlt⟩ := h.producer_before i n hn t ht
  obtain rfl : j = p := Option.some.inj (hp.symm.trans hp')
  obtain ⟨m, hm, -⟩ := (h.producerOf?_eq_some_iff t j).1 hp
  exact ⟨(List.getElem?_eq_some_iff.1 hm).1, hlt⟩

theorem Runnable.dependenciesOf_eq_nil {n : Node} (hn : g.node? i = some n) {key : MarketDataKey}
    (hkey : n.kind = .marketData key) : g.dependenciesOf i = [] := by
  refine List.eq_nil_iff_forall_not_mem.2 fun j hj => ?_
  obtain ⟨m, hm, t, ht, -⟩ := (h.mem_dependenciesOf i j).1 hj
  rw [hn] at hm
  cases hm
  rw [h.marketData_inputs i n key hn hkey] at ht
  cases ht

end

end Graph
end Valuation
