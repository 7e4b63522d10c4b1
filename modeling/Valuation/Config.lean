import Valuation.Error
import Valuation.Execution.Strategy
import Valuation.Permission

/-!
# Configuration

The settings of the engine and of the program that runs the demonstration, with their defaults.
-/
namespace Valuation

structure EngineConfig where
  name : String := "lattice"
  executor : Strategy := .nodeParallel 4
  /-- How many cycles a process keeps. -/
  cycleRetention : Nat := 5
  /-- How many compiled graphs are kept. -/
  graphCacheSize : Nat := 16
  permission : PermissionPolicy := .permissive
  /-- How many completion notices a slow subscriber can fall behind. -/
  cycleNoticeCapacity : Nat := 64
deriving DecidableEq, Inhabited

namespace EngineConfig

/-- Every size must be at least one; the first that is not is reported. -/
def validate (c : EngineConfig) : Except ServiceError Unit :=
  if c.executor = .nodeParallel 0 then .error (.invalidConfig "executor.workers must be at least 1")
  else if c.executor = .jobDispatch 0 then
    .error (.invalidConfig "executor.calc_nodes must be at least 1")
  else if c.cycleRetention = 0 then .error (.invalidConfig "cycle_retention must be at least 1")
  else if c.graphCacheSize = 0 then .error (.invalidConfig "graph_cache_size must be at least 1")
  else if c.cycleNoticeCapacity = 0 then
    .error (.invalidConfig "cycle_notice_capacity must be at least 1")
  else .ok ()

end EngineConfig

inductive RunMode where
  | live
  | batch
deriving DecidableEq, Inhabited

def RunMode.name : RunMode → String
  | .live => "live"
  | .batch => "batch"

structure RunnerConfig where
  engine : EngineConfig := {}
  mode : RunMode := .live
  positions : Nat := 4
  cycles : Nat := 3
  intervalMillis : Nat := 250
  user : String := "demo"
deriving DecidableEq, Inhabited

/-- The time between two cycles in milliseconds, never zero. -/
def RunnerConfig.interval (c : RunnerConfig) : Nat := max c.intervalMillis 1

end Valuation
