import Valuation.Cycle
import Valuation.Report.Order
import Valuation.Report.Value

/-!
# Reports on runs

Failures, statistics, result models and cycles, and a log of the calls that a run has made.
-/
namespace Valuation

def FailureReason.kind : FailureReason → String
  | .functionError _ => "FunctionError"
  | .missingMarketData _ => "MissingMarketData"
  | .missingInput _ => "MissingInput"
  | .missingOutput _ => "MissingOutput"
  | .dependencyFailure _ => "UpstreamFailure"
  | .duplicateValue _ => "DuplicateValue"

/-- Failures in the order of their specifications. -/
def reportFailures (failures : Table Specification FailureReason) : Json :=
  .each (fun e => .list [e.1.report, .text e.2.kind, .text e.2.message]) failures.toList

def ExecutionStatistics.report (s : ExecutionStatistics) : Json :=
  .record
    [("total", .nat s.total), ("executed", .nat s.executed), ("failed", .nat s.failed),
      ("not_started", .nat s.notStarted)]

/-- The attempts of the calls of a run, in turn. -/
def logOf (journal : List Invocation) : List String :=
  journal.flatMap fun i => i.evaluation.attempts.map fun outputs =>
    i.functionId ++ "(" ++ i.target.display ++ ")->" ++ "+".intercalate (outputs.map (·.display))

/-- The log of a run; the order is meaningless if calls were made side by side. -/
def reportLog (strategy : Strategy) (journal : List Invocation) : Json :=
  let log := logOf journal
  .texts (if strategy.workers ≤ 1 then log else sortTexts log)

/-- What a run leaves behind: values, failures and statistics. -/
def ExecutionOutcome.parts (o : ExecutionOutcome) : List (String × Json) :=
  [("cache", reportValues o.cache.toList), ("failures", reportFailures o.failures),
    ("stats", o.statistics.report)]

namespace ResultModel

def reportOnTarget (t : Target) (values : Table String ComputedValue) : Json :=
  .list [t.report,
    .each (fun e => .list [.text e.1, e.2.specification.report, e.2.value.report]) values.toList]

def report (m : ResultModel) : Json :=
  .record
    [("view", .text m.view),
      ("len", .nat m.size),
      ("empty", .bool m.isEmpty),
      ("values", .each (fun e => reportOnTarget e.1 e.2) m.values.toList),
      ("failures", reportFailures m.failures),
      ("market_data", reportValues m.marketData)]

end ResultModel

/-- A cycle under a name for its process. -/
def Cycle.report (process : String) (c : Cycle) : Json :=
  .record
    [("process", .text process),
      ("state", .text c.state.display),
      ("terminal", .bool c.state.isTerminal),
      ("failure", .option (fun f => .text f.message) c.failure),
      ("started", .bool c.startedAt.isSome),
      ("timed", .bool c.startedAt.isSome),
      ("graph", .option (fun g => .nat g.size) c.graph),
      ("stats", .option ExecutionStatistics.report c.statistics),
      ("model", .option ResultModel.report c.result)]

end Valuation
