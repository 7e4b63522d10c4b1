import Valuation.Graph.Compiler
import Valuation.Report.Value

/-!
# Reports on graphs
-/
namespace Valuation

namespace Graph

def reportSpecifications (ss : List Specification) : Json := .each Specification.report ss

def reportNode (g : Graph) (i : Nat) (n : Node) : Json :=
  .record
    [("id", .text (Node.numberText n.number)),
      ("label", .text n.label),
      ("target", n.target.report),
      ("fn", .option .text n.functionId?),
      ("md", .bool n.isMarketData),
      ("inputs", reportSpecifications n.inputs),
      ("outputs", reportSpecifications n.outputs),
      ("deps", .each .nat (g.dependenciesOf i)),
      ("dependents", .each .nat (g.dependentsOf i)),
      ("downstream", .each .nat (g.downstream i)),
      ("produces", .each (fun s => .option .nat (g.producerOf? s)) n.outputs)]

def report (g : Graph) : Json :=
  let s := g.stats
  .record
    [("name", .text g.name),
      ("len", .nat g.size),
      ("empty", .bool (g.size == 0)),
      ("edges", .nat g.edgeCount),
      ("nodes", .each (fun e => g.reportNode e.2 e.1) g.nodes.zipIdx),
      ("order", .each .nat g.order),
      ("terminals", reportSpecifications g.terminals),
      ("market_data", .each MarketDataKey.report g.marketDataKeys),
      ("stats", .record
        [("node_count", .nat s.nodes),
          ("edge_count", .nat s.edges),
          ("function_nodes", .nat s.functionNodes),
          ("market_data_nodes", .nat s.marketDataNodes),
          ("terminal_outputs", .nat s.terminals)])]

/-- A graph in short. -/
def summary (g : Graph) : List (String × Json) := [("name", .text g.name), ("nodes", .nat g.size)]

end Graph

/-- The counters of a compiler. -/
def GraphCompiler.counters (c : GraphCompiler) : List (String × Json) :=
  [("hits", .nat c.hits), ("misses", .nat c.misses)]

end Valuation
