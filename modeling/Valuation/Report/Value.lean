import Valuation.Error
import Valuation.Function.Basic
import Valuation.Json.Basic

/-!
# Reports on values and errors

Reports show the state of the engine as JSON, for people and for comparison. They show floats by
their 64 bits, since texts of floats do not tell all of them apart, and specifications by their
display texts.
-/
namespace Valuation

/-! ## Values -/

/-- A float by its bits; all NaNs are shown alike. -/
def Binary64.report (x : Float) : Json :=
  .text (if x.isNaN then "nan" else "0x" ++ hexDigits 16 x.toBits.toNat)

def DataValue.report : DataValue → Json
  | .float x => .record [("f", Binary64.report x)]
  | .decimal d => .record [("d", .text d.display)]
  | .text s => .record [("t", .text s)]
  | .json j => .record [("j", .text j.render)]
  | .missing => .text "missing"

def Specification.report (s : Specification) : Json := .text s.display

def MarketDataKey.report (k : MarketDataKey) : Json := .text k.display

def Target.report (t : Target) : Json := .text t.display

def ComputedValue.report (v : ComputedValue) : Json :=
  .list [v.specification.report, v.value.report]

/-- Values in a list. -/
def reportValues (values : List ComputedValue) : Json := .each ComputedValue.report values

/-- Market data in a list of pairs. -/
def reportMarketData (values : List (MarketDataKey × DataValue)) : Json :=
  .each (fun e => .list [e.1.report, e.2.report]) values

/-! ## Errors -/

def EngineError.kind : EngineError → String
  | .config _ => "ConfigError"
  | .cyclicDependency _ => "CyclicDependency"
  | .unsatisfiedDependency _ => "UnsatisfiedDependency"
  | .dependencyFailure _ => "UpstreamFailure"
  | .duplicateValue _ => "DuplicateValue"
  | .valueNotFound _ => "ValueNotFound"
  | .snapshotSealed _ => "SnapshotSealed"
  | .duplicateSnapshotValue .. => "DuplicateSnapshotValue"
  | .unknownSnapshotKey .. => "UnknownSnapshotKey"
  | .snapshotNotFound _ => "SnapshotNotFound"
  | .invalidSnapshotState .. => "InvalidSnapshotState"
  | .entitlementDenied .. => "EntitlementDenied"
  | .invalidStateTransition .. => "InvalidStateTransition"
  | .cancelled => "Cancelled"
  | .processNotFound _ => "ProcessNotFound"
  | .clientNotFound _ => "ClientNotFound"
  | .cycleNotFound _ => "CycleNotFound"
  | .batchNotFound _ => "BatchNotFound"
  | .processorNotRunning => "ProcessorNotRunning"
  | .service _ => "Persistence"
  | .internal _ => "Internal"

def FunctionError.kind : FunctionError → String
  | .missingInput _ => "MissingInput"
  | .invalidInput _ => "InvalidInput"
  | .calculation _ => "Calculation"

def ServiceError.kind : ServiceError → String
  | .sourceNotAvailable _ => "SourceNotAvailable"
  | .persistence _ => "PersistenceError"
  | .invalidConfig _ => "InvalidConfig"

/-- An error by its kind and its message. -/
def reportError (kind message : String) : Json :=
  .record [("error", .text kind), ("message", .text message)]

/-- A success with what it yields. -/
def reportOk (j : Json) : Json := .record [("ok", j)]

def EngineError.report (e : EngineError) : Json := reportError e.kind e.message

/-- The result of an operation of the engine. -/
def reportResult {α : Type} (f : α → Json) : Except EngineError α → Json
  | .ok x => reportOk (f x)
  | .error e => e.report

/-- The result of an operation that yields nothing of interest. -/
def reportUnit {α : Type} : Except EngineError α → Json := reportResult fun _ => .null

end Valuation
