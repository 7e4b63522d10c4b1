import Valuation.Proofs.Graph.Compiler
import Valuation.Proofs.Graph.Runnable
import Valuation.Proofs.Search.Distance

/-!
# What lies behind a node

`Graph.downstream` lists the nodes behind a node of a compiled graph: all that a path from producers to consumers
leads to, each once, the nearest first (`downstream_nearestFirst`). The node itself is not among them, since a path
leads forwards in the order of the graph.
-/
namespace Valuation

open Relation Search

namespace Graph

variable {g : Graph} {i j : Nat}

/-- The nodes behind a node, the nearest first. -/
structure ListsBehind (g : Graph) (i : Nat) (behind : List Nat) : Prop where
  mem_iff : ∀ j, j ∈ behind ↔ TransGen g.Feeds i j
  nodup : behind.Nodup
  self_notMem : i ∉ behind
  nearestFirst : behind.Pairwise fun j k => distance g.Feeds i j ≤ distance g.Feeds i k

theorem Runnable.edge_eq_feeds (h : g.Runnable) : Edge g.dependentsOf = g.Feeds := by
  funext i j
  exact propext (h.mem_dependentsOf i j)

/-- A path leads forwards in the order of the graph. -/
theorem Runnable.idxOf_lt_of_transGen (h : g.Runnable) (hij : TransGen g.Feeds i j) :
    g.order.idxOf i < g.order.idxOf j := by
  induction hij with
  | single he => exact (h.idxOf_lt_of_mem_dependenciesOf he).2
  | tail _ he ih => exact ih.trans (h.idxOf_lt_of_mem_dependenciesOf he).2

theorem Runnable.listsBehind (h : g.Runnable) (i : Nat) : g.ListsBehind i (g.downstream i) where
  mem_iff j := by rw [h.mem_downstream_iff, h.edge_eq_feeds]
  nodup := nodup_breadthFirst ..
  self_notMem hi := by
    rw [h.mem_downstream_iff, h.edge_eq_feeds] at hi
    exact lt_irrefl _ (h.idxOf_lt_of_transGen hi)
  nearestFirst := h.edge_eq_feeds ▸ breadthFirst_nearestFirst h.lt_size_of_mem_dependentsOf i

/-- The search takes one pass for each edge that leads out of the node or of one behind it. -/
theorem Runnable.pass_downstream (h : g.Runnable) (i : Nat) :
    (Frontier.pass g.dependentsOf)^[((i :: g.downstream i).map fun j => (g.dependentsOf j).length).sum]
      { queue := g.dependentsOf i } = { listed := g.downstream i, queue := [] } :=
  pass_breadthFirst h.lt_size_of_mem_dependentsOf (h.lt_size_of_mem_dependentsOf i) fun _ => Iff.rfl

end Graph

namespace GraphCompiler

variable {c : GraphCompiler} {a : Availability} {d : ViewDefinition} {g : Graph}

/-- Behind every node of a compiled graph the search comes to an end, and what it lists then are the nodes that a path
from producers to consumers leads to, each once, not the node itself, and in order of their distance. -/
theorem downstream_nearestFirst (h : c.compileUncached d a = .ok g) (i : Nat) :
    (Frontier.pass g.dependentsOf)^[((i :: g.downstream i).map fun j => (g.dependentsOf j).length).sum]
      { queue := g.dependentsOf i } = { listed := g.downstream i, queue := [] } ∧
    g.ListsBehind i (g.downstream i) := by
  have hg : g.Runnable := Graph.runnable_of_compile h
  exact ⟨hg.pass_downstream i, hg.listsBehind i⟩

theorem demo_nearestFirst : ∃ r g, Demo.repository = .ok r ∧
    (ofRepository r 1).compileUncached (Demo.definition 2) Demo.everything = .ok g ∧
    g.ListsBehind 0 (g.downstream 0) := by
  obtain ⟨r, g, hr, -, hg⟩ := Demo.exists_graph 2
  exact ⟨r, g, hr, hg, (downstream_nearestFirst hg 0).2⟩

end GraphCompiler
end Valuation
