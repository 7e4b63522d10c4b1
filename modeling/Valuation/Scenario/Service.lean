import Valuation.Process
import Valuation.Scenario.Function
import Valuation.Scenario.Setup

/-!
# Sources and processes in scenarios
-/
namespace Valuation
namespace Scenario

/-- A source of snapshots: none, a fixed snapshot, or a new feed with values published already. -/
def source? (d : Document) (e : Engine) : Option (Except EngineError (SnapshotSource × Engine)) :=
  match d with
  | .text "none" => some (.ok (.unavailable, e))
  | _ =>
    match d.field? "fixed" with
    | some s => do return (← snapshot? s).map fun s => (.fixed s, e)
    | none => do
      let values ← d.readEach? "live" pair?
      let feed := LiveData.ofCapacity (d.wordOr "capacity" LiveData.defaultCapacity)
      let (n, e) := e.addFeed (feed.publishAll values)
      return .ok (.live n, e)

/-- When a process runs cycles; only when it is asked to, if nothing is said. -/
def processOptions (d : Option Document) : ProcessOptions :=
  let d := d.getD .null
  { runOnLiveTicks := d.flagOr "live_ticks" false
    interval := (d.wordField? "interval_ms").map Duration.ofMillis
    maxCycles := d.wordField? "max_cycles" }

/-- An engine with the functions, the strategy and the sizes of a scenario. -/
def engine? (d : Document) : Option (Except EngineError Engine) := do
  let repository ← repository? d
  let strategy ← strategy? (d.field? "strategy")
  return do
    return {
      compiler := .ofRepository (← repository) (d.wordOr "cache_size" 4)
      executor := ← Executor.ofStrategy strategy
      cycleRetention := d.wordOr "retention" 5
      noticeCapacity := d.wordOr "notice_capacity" 64
      now := startTime }

/-- A process of its own with its source. -/
def process? (d : Document) (e : Engine) : Option (Except EngineError (Process × Engine)) := do
  let definition ← d.read? "definition" view?
  let source ← d.read? "source" fun x => source? x e
  return source.map fun (source, e) =>
    (Process.new ⟨d.textOr "id" "proc"⟩ definition source (processOptions (d.field? "options"))
      e.noticeCapacity, e)

def cycleFailure? (d : Document) : Option CycleFailure :=
  let what := d.textOr "msg" ""
  match d.textField? "kind" with
  | some "NoSnapshot" => some (.noSnapshot what)
  | some "Compilation" => some (.compilation what)
  | some "Structural" => some (.structural what)
  | some "Cancelled" => some .cancelled
  | _ => none

end Scenario
end Valuation
