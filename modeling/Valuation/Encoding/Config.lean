import Valuation.Config
import Valuation.Document.Fields

/-!
# Encoding configurations

A strategy is a record that carries its name in the field `strategy` beside its own fields. Every
field of a configuration may be left out.
-/
namespace Valuation

namespace Strategy

def defaultWorkers : Nat := 4

def toJson : Strategy → Json
  | .singleThreaded => .record [("strategy", .text "single_threaded")]
  | .nodeParallel workers => .record [("strategy", .text "node_parallel"), ("workers", .int workers)]
  | .jobDispatch calcNodes => .record [("strategy", .text "job_dispatch"), ("calc_nodes", .int calcNodes)]

/-- The strategy of a name, its worker count taken from the other fields. -/
def ofNamed? (name : String) (rest : Document) : Option Strategy :=
  match name with
  | "single_threaded" =>
    match rest with
    | .list (_ :: _) => none
    | _ => some .singleThreaded
  | "node_parallel" => do
    let fs ← rest.fields? ["workers"]
    return .nodeParallel (← fs.withDefault "workers" defaultWorkers Document.word?)
  | "job_dispatch" => do
    let fs ← rest.fields? ["calc_nodes"]
    return .jobDispatch (← fs.withDefault "calc_nodes" defaultWorkers Document.word?)
  | _ => none

/-- The name stands in the field `strategy` of a record, or first in a list. Unknown fields must at
least be valid. -/
def ofDocument? (d : Document) : Option Strategy :=
  if !d.isValid then none
  else
    match d with
    | .record fs =>
      match fs.filter fun f => f.1 = "strategy" with
      | [(_, .text name)] => ofNamed? name (.record (fs.filter fun f => f.1 ≠ "strategy"))
      | _ => none
    | .list (.text name :: rest) => ofNamed? name (.list rest)
    | _ => none

end Strategy

namespace PermissionPolicy

def toJson (p : PermissionPolicy) : Json := .text p.name

def ofDocument? : Document → Option PermissionPolicy :=
  Document.plainCase? [("permissive", .permissive), ("entitlement", .entitlement)]

end PermissionPolicy

namespace EngineConfig

def toJson (c : EngineConfig) : Json :=
  .record
    [("name", .text c.name),
      ("executor", c.executor.toJson),
      ("cycle_retention", .int c.cycleRetention),
      ("graph_cache_size", .int c.graphCacheSize),
      ("permission", c.permission.toJson),
      ("cycle_notice_capacity", .int c.cycleNoticeCapacity)]

def ofDocument? (d : Document) : Option EngineConfig := do
  let fs ← d.fields?
    ["name", "executor", "cycle_retention", "graph_cache_size", "permission", "cycle_notice_capacity"]
  let base : EngineConfig := {}
  let name ← fs.withDefault "name" base.name Document.text?
  let executor ← fs.withDefault "executor" base.executor Strategy.ofDocument?
  let cycleRetention ← fs.withDefault "cycle_retention" base.cycleRetention Document.word?
  let graphCacheSize ← fs.withDefault "graph_cache_size" base.graphCacheSize Document.word?
  let permission ← fs.withDefault "permission" base.permission PermissionPolicy.ofDocument?
  let cycleNoticeCapacity ←
    fs.withDefault "cycle_notice_capacity" base.cycleNoticeCapacity Document.word?
  return { name, executor, cycleRetention, graphCacheSize, permission, cycleNoticeCapacity }

end EngineConfig

namespace RunMode

def toJson (m : RunMode) : Json := .text m.name

def ofDocument? : Document → Option RunMode :=
  Document.plainCase? [("live", .live), ("batch", .batch)]

end RunMode

namespace RunnerConfig

def toJson (c : RunnerConfig) : Json :=
  .record
    [("engine", c.engine.toJson),
      ("mode", c.mode.toJson),
      ("positions", .int c.positions),
      ("cycles", .int c.cycles),
      ("interval_ms", .int c.intervalMillis),
      ("user", .text c.user)]

def ofDocument? (d : Document) : Option RunnerConfig := do
  let fs ← d.fields? ["engine", "mode", "positions", "cycles", "interval_ms", "user"]
  let base : RunnerConfig := {}
  let engine ← fs.withDefault "engine" base.engine EngineConfig.ofDocument?
  let mode ← fs.withDefault "mode" base.mode RunMode.ofDocument?
  let positions ← fs.withDefault "positions" base.positions Document.word?
  let cycles ← fs.withDefault "cycles" base.cycles Document.word?
  let intervalMillis ← fs.withDefault "interval_ms" base.intervalMillis Document.word?
  let user ← fs.withDefault "user" base.user Document.text?
  return { engine, mode, positions, cycles, intervalMillis, user }

end RunnerConfig
end Valuation
