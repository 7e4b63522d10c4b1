import Valuation.Specification

/-!
# Errors

`EngineError` lists the causes for which an operation of the engine is refused, `ServiceError` those
that the services around it report: sources, stores and configuration. Each has one `message`.
-/
namespace Valuation

/-- What a service reports. -/
inductive ServiceError where
  | sourceNotAvailable (what : String)
  | persistence (what : String)
  | invalidConfig (what : String)
deriving DecidableEq, Inhabited

def ServiceError.message : ServiceError → String
  | .sourceNotAvailable s => "source not available: " ++ s
  | .persistence s => "persistence error: " ++ s
  | .invalidConfig s => "invalid configuration: " ++ s

/-- Why an operation of the engine is refused. -/
inductive EngineError where
  | config (what : String)
  | cyclicDependency (path : List Specification)
  | unsatisfiedDependency (requirement : Specification)
  | dependencyFailure (specification : Specification)
  | duplicateValue (specification : Specification)
  | valueNotFound (specification : Specification)
  | snapshotSealed (snapshot : SnapshotId)
  | duplicateSnapshotValue (snapshot : SnapshotId) (key : MarketDataKey)
  | unknownSnapshotKey (snapshot : SnapshotId) (key : MarketDataKey)
  | snapshotNotFound (snapshot : SnapshotId)
  | invalidSnapshotState (snapshot : SnapshotId) (what : String)
  | entitlementDenied (user target : String)
  | invalidStateTransition (source destination : String)
  | cancelled
  | processNotFound (process : ProcessId)
  | clientNotFound (client : ClientId)
  | cycleNotFound (cycle : CycleId)
  | batchNotFound (batch : BatchId)
  | processorNotRunning
  | service (cause : ServiceError)
  | internal (what : String)
deriving DecidableEq, Inhabited

def EngineError.message : EngineError → String
  | .config s => "configuration error: " ++ s
  | .cyclicDependency path => "cyclic dependency: " ++ " -> ".intercalate (path.map (·.display))
  | .unsatisfiedDependency s => "unsatisfied dependency: " ++ s.display
  | .dependencyFailure s => "upstream failure: " ++ s.display
  | .duplicateValue s => "duplicate value: " ++ s.display
  | .valueNotFound s => "value not found: " ++ s.display
  | .snapshotSealed id => "snapshot sealed: " ++ id.display
  | .duplicateSnapshotValue id key =>
    "duplicate snapshot value: " ++ key.display ++ " in " ++ id.display
  | .unknownSnapshotKey id key => "unknown snapshot key: " ++ key.display ++ " in " ++ id.display
  | .snapshotNotFound id => "snapshot not found: " ++ id.display
  | .invalidSnapshotState id s => "invalid snapshot state for " ++ id.display ++ ": " ++ s
  | .entitlementDenied user target => "entitlement denied: " ++ user ++ " for " ++ target
  | .invalidStateTransition source destination =>
    "invalid state transition: " ++ source ++ " -> " ++ destination
  | .cancelled => "cancelled"
  | .processNotFound id => "view process not found: " ++ id.text
  | .clientNotFound id => "view client not found: " ++ id.text
  | .cycleNotFound id => "view cycle not found: " ++ id.text
  | .batchNotFound id => "batch not found: " ++ id.text
  | .processorNotRunning => "view processor is not running"
  | .service cause => "persistence error: " ++ cause.message
  | .internal s => "internal error: " ++ s

end Valuation
