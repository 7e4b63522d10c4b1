import Valuation.Process
import Valuation.Encoding.Value

/-!
# Encoding runs and cycles

Reasons of failure, statistics, node numbers and states. A case with content is a record with the
name of the case as only field.
-/
namespace Valuation

/-! ## Graphs -/

namespace GraphStats

def toJson (s : GraphStats) : Json :=
  .record
    [("node_count", .int s.nodes), ("edge_count", .int s.edges), ("function_nodes", .int s.functionNodes),
      ("market_data_nodes", .int s.marketDataNodes), ("terminal_outputs", .int s.terminals)]

def ofDocument? (d : Document) : Option GraphStats := do
  let fs ← d.fields?
    ["node_count", "edge_count", "function_nodes", "market_data_nodes", "terminal_outputs"]
  let nodes ← fs.required "node_count" Document.word?
  let edges ← fs.required "edge_count" Document.word?
  let functionNodes ← fs.required "function_nodes" Document.word?
  let marketDataNodes ← fs.required "market_data_nodes" Document.word?
  let terminals ← fs.required "terminal_outputs" Document.word?
  return ⟨nodes, edges, functionNodes, marketDataNodes, terminals⟩

end GraphStats

/-! ## Runs -/

namespace Duration

def toJson (d : Duration) : Json := .record [("secs", .int d.seconds), ("nanos", .int d.nanos)]

/-- Nanoseconds beyond a second carry over; there are no other fields. -/
def ofDocument? (d : Document) : Option Duration := do
  let known := match d with
    | .record fs => fs.all fun f => f.1 = "secs" || f.1 = "nanos"
    | _ => true
  if !known then none
  else
    let fs ← d.fields? ["secs", "nanos"]
    let secs ← fs.required "secs" Document.word?
    let nanos ← fs.required "nanos" (Document.nat? (Nat.pow 2 32))
    let seconds := secs + nanos / Instant.second
    if seconds < Nat.pow 2 64 then return ⟨seconds, nanos % Instant.second⟩ else none

end Duration

namespace ExecutionStatistics

def toJson (s : ExecutionStatistics) : Json :=
  .record
    [("total_nodes", .int s.total), ("executed_nodes", .int s.executed), ("failed_nodes", .int s.failed),
      ("not_started_nodes", .int s.notStarted), ("elapsed", s.elapsed.toJson)]

def ofDocument? (d : Document) : Option ExecutionStatistics := do
  let fs ← d.fields?
    ["total_nodes", "executed_nodes", "failed_nodes", "not_started_nodes", "elapsed"]
  let total ← fs.required "total_nodes" Document.word?
  let executed ← fs.required "executed_nodes" Document.word?
  let failed ← fs.required "failed_nodes" Document.word?
  let notStarted ← fs.required "not_started_nodes" Document.word?
  let elapsed ← fs.required "elapsed" Duration.ofDocument?
  return ⟨total, executed, failed, notStarted, elapsed⟩

end ExecutionStatistics

namespace FailureReason

def toJson : FailureReason → Json
  | .functionError s => .record [("FunctionError", .text s)]
  | .missingMarketData k => .record [("MissingMarketData", k.toJson)]
  | .missingInput s => .record [("MissingInput", s.toJson)]
  | .missingOutput s => .record [("MissingOutput", s.toJson)]
  | .dependencyFailure s => .record [("UpstreamFailure", .record [("upstream", s.toJson)])]
  | .duplicateValue s => .record [("DuplicateValue", s.toJson)]

def ofDocument? (d : Document) : Option FailureReason := do
  match ← d.case? with
  | ("FunctionError", some d) => d.text?.map .functionError
  | ("MissingMarketData", some d) => (MarketDataKey.ofDocument? d).map .missingMarketData
  | ("MissingInput", some d) => (Specification.ofDocument? d).map .missingInput
  | ("MissingOutput", some d) => (Specification.ofDocument? d).map .missingOutput
  | ("UpstreamFailure", some d) =>
    let fs ← d.fields? ["upstream"]
    (fs.required "upstream" Specification.ofDocument?).map .dependencyFailure
  | ("DuplicateValue", some d) => (Specification.ofDocument? d).map .duplicateValue
  | _ => none

end FailureReason

/-! ## Snapshots and cycles -/

namespace SnapshotState

def toJson (s : SnapshotState) : Json := .text s.display

def ofDocument? : Document → Option SnapshotState :=
  Document.plainCase? (all.map fun s => (s.display, s))

end SnapshotState

namespace CycleState

def toJson (s : CycleState) : Json := .text s.display

def ofDocument? : Document → Option CycleState :=
  Document.plainCase? (all.map fun s => (s.display, s))

end CycleState

namespace CycleTrigger

def toJson (t : CycleTrigger) : Json := .text t.display

def ofDocument? : Document → Option CycleTrigger :=
  Document.plainCase? (all.map fun t => (t.display, t))

end CycleTrigger

namespace CycleFailure

def toJson : CycleFailure → Json
  | .noSnapshot s => .record [("NoSnapshot", .text s)]
  | .compilation s => .record [("Compilation", .text s)]
  | .structural s => .record [("Structural", .text s)]
  | .cancelled => .text "Cancelled"

def ofDocument? (d : Document) : Option CycleFailure := do
  match ← d.case? with
  | ("NoSnapshot", some d) => d.text?.map .noSnapshot
  | ("Compilation", some d) => d.text?.map .compilation
  | ("Structural", some d) => d.text?.map .structural
  | ("Cancelled", none) => some .cancelled
  | ("Cancelled", some .null) => some .cancelled
  | _ => none

end CycleFailure

/-! ## Result models -/

namespace ResultModel

/-- A summary of a model for other programs: values by target and key, failures by specification, and
how much market data was read. Names are in order. -/
def toJson (m : ResultModel) : Json :=
  let onTarget (vs : Table String ComputedValue) : Json :=
    .record (vs.toList.map fun e => (e.1, e.2.value.toJson))
  let values := Table.ofList (m.values.toList.map fun e => (e.1.display, onTarget e.2))
  let failures := Table.ofList (m.failures.toList.map fun e => (e.1.display, Json.text e.2.message))
  .record
    [("cycle_id", .text m.cycle.text),
      ("failures", .record failures.toList),
      ("market_data", .int m.marketData.length),
      ("valuation_time", .text m.valuationTime.display),
      ("values", .record values.toList),
      ("view", .text m.view)]

end ResultModel
end Valuation
