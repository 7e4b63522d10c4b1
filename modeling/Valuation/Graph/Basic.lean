import Valuation.Function.Basic
import Valuation.Graph.Search
import Valuation.OrderedSet

/-!
# Dependency graphs

A node stands for one call of a calculation function, shared by all outputs that the call produces,
or for one market data input. A node depends on the producers of its inputs. Nodes are numbered by
their place in `nodes`, and edges lead from producers to consumers.
-/
namespace Valuation

inductive NodeKind where
  | function (f : CalculationFunction)
  | marketData (key : MarketDataKey)

structure Node where
  /-- The place of the node in its graph. -/
  number : Nat
  target : Target
  kind : NodeKind
  inputs : List Specification
  outputs : List Specification

namespace Node

def functionId? (n : Node) : Option String :=
  match n.kind with
  | .function f => some f.id
  | .marketData _ => none

def marketDataKey? (n : Node) : Option MarketDataKey :=
  match n.kind with
  | .function _ => none
  | .marketData key => some key

def isMarketData (n : Node) : Bool := n.marketDataKey?.isSome

/-- The function or the market data of a node, for people. -/
def label (n : Node) : String :=
  match n.kind with
  | .function f => f.id ++ "(" ++ n.target.display ++ ")"
  | .marketData key => "md(" ++ key.display ++ ")"

/-- The text of a node's number. -/
def numberText (index : Nat) : String := s!"node#{index}"

/-- Whether a node is the call of a function on a target. -/
def isCall (n : Node) (functionId : String) (target : Target) : Bool :=
  n.functionId? = some functionId ∧ n.target = target

end Node

/-- The number of the node that produces a specification. -/
def producer? (nodes : List Node) (s : Specification) : Option Nat :=
  nodes.findIdx? fun n => s ∈ n.outputs

structure GraphStats where
  nodes : Nat
  edges : Nat
  functionNodes : Nat
  marketDataNodes : Nat
  terminals : Nat
deriving DecidableEq, Inhabited

structure Graph where
  name : String
  nodes : List Node
  /-- A producer and a consumer each, consumer by consumer. -/
  edges : List (Nat × Nat)
  /-- The nodes that each node depends on, in ascending order. -/
  dependencies : List (List Nat)
  /-- The nodes that depend on each node, in ascending order. -/
  dependents : List (List Nat)
  /-- The nodes, each behind those that it depends on. -/
  order : List Nat
  /-- The specifications that the view asks for. -/
  terminals : List Specification

namespace Graph

def size (g : Graph) : Nat := g.nodes.length

def node? (g : Graph) (i : Nat) : Option Node := g.nodes[i]?

/-- The specifications that a node produces. -/
def outputsOf (g : Graph) (i : Nat) : List Specification :=
  match g.node? i with
  | some n => n.outputs
  | none => []

def dependenciesOf (g : Graph) (i : Nat) : List Nat := g.dependencies.getD i []

def dependentsOf (g : Graph) (i : Nat) : List Nat := g.dependents.getD i []

def edgeCount (g : Graph) : Nat := g.edges.length

/-- The number of the node that produces a specification. -/
def producerOf? (g : Graph) (s : Specification) : Option Nat := producer? g.nodes s

/-- The market data that the graph reads, in order. -/
def marketDataKeys (g : Graph) : List MarketDataKey :=
  (OrderedSet.ofList (g.nodes.filterMap (·.marketDataKey?))).toList

/-- All nodes behind a node, the nearest first. -/
def downstream (g : Graph) (i : Nat) : List Nat :=
  Search.breadthFirst g.size g.dependentsOf [] (g.dependentsOf i)

def stats (g : Graph) : GraphStats :=
  let marketData := (g.nodes.filter (·.isMarketData)).length
  ⟨g.size, g.edgeCount, g.size - marketData, marketData, g.terminals.length⟩

end Graph
end Valuation
