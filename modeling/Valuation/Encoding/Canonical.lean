import Valuation.Encoding.Batch
import Valuation.Encoding.Config
import Valuation.Encoding.Execution
import Valuation.Json.Reader
import Valuation.Report.Value

/-!
# Canonical texts

Every encoded type by name: a JSON text of the type is read and written again in the one form that
writing has.
-/
namespace Valuation

/-- What reading a text yields: the text as it is written, and a display. -/
structure Canonical where
  text : String
  display : Json

namespace Canonical

/-- Reads a text by one type and writes it again. -/
def of {α : Type} (decode : Document → Option α) (encode : α → Json) (display : α → Json)
    (text : String) : Option Canonical :=
  ((Document.ofJsonText? text).bind decode).map fun x => ⟨(encode x).render, display x⟩

/-- A type with a display text. -/
def shown {α : Type} (decode : Document → Option α) (encode : α → Json) (display : α → String) :
    String → Option Canonical :=
  of decode encode fun x => .text (display x)

/-- A type without a display. -/
def silent {α : Type} (decode : Document → Option α) (encode : α → Json) : String → Option Canonical :=
  of decode encode fun _ => .null

/-- Reads and writes a text by the name of its type; types of other names are identifiers. -/
def ofText? (type : String) : String → Option Canonical :=
  match type with
  | "DataValue" => shown DataValue.ofDocument? DataValue.toJson DataValue.display
  | "ComputedValue" => shown ComputedValue.ofDocument? ComputedValue.toJson fun v => v.specification.display
  | "ComputationTargetKind" => shown TargetKind.ofDocument? TargetKind.toJson TargetKind.display
  | "ComputationTarget" => shown Target.ofDocument? Target.toJson Target.display
  | "ValueProperties" => shown Properties.ofDocument? Properties.toJson Properties.display
  | "ValueSpecification" => shown Specification.ofDocument? Specification.toJson Specification.display
  | "MarketDataKey" => shown MarketDataKey.ofDocument? MarketDataKey.toJson MarketDataKey.display
  | "SnapshotId" => shown SnapshotId.ofDocument? SnapshotId.toJson SnapshotId.display
  | "UserPrincipal" => shown UserPrincipal.ofDocument? UserPrincipal.toJson UserPrincipal.display
  | "EngineConfig" => shown EngineConfig.ofDocument? EngineConfig.toJson fun c => c.executor.name
  | "ExecutorStrategy" => shown Strategy.ofDocument? Strategy.toJson Strategy.name
  | "PermissionPolicy" => silent PermissionPolicy.ofDocument? PermissionPolicy.toJson
  | "RequestedValue" => silent RequestedValue.ofDocument? RequestedValue.toJson
  | "ResultModelDefinition" => silent ResultOptions.ofDocument? ResultOptions.toJson
  | "ViewDefinition" =>
    of ViewDefinition.ofDocument? ViewDefinition.toJson fun v => .each Specification.report v.terminals
  | "ViewCycleExecutionOptions" => silent CycleOptions.ofDocument? CycleOptions.toJson
  | "BatchJobRun" => silent BatchJob.ofDocument? BatchJob.toJson
  | "BatchStatus" => silent BatchStatus.ofDocument? BatchStatus.toJson
  | "BatchResultRecord" => silent BatchRecord.ofDocument? BatchRecord.toJson
  | "SnapshotState" => silent SnapshotState.ofDocument? SnapshotState.toJson
  | "ViewCycleState" =>
    of CycleState.ofDocument? CycleState.toJson fun s => .list [.text s.display, .bool s.isTerminal]
  | "CycleTrigger" => silent CycleTrigger.ofDocument? CycleTrigger.toJson
  | "CycleFailure" => shown CycleFailure.ofDocument? CycleFailure.toJson CycleFailure.message
  | "FailureReason" => shown FailureReason.ofDocument? FailureReason.toJson FailureReason.message
  | "ExecutionStatistics" => silent ExecutionStatistics.ofDocument? ExecutionStatistics.toJson
  | "GraphStats" => silent GraphStats.ofDocument? GraphStats.toJson
  | "NodeId" => shown Document.word? Json.nat Node.numberText
  | _ => shown Document.text? Json.text id

end Canonical
end Valuation
