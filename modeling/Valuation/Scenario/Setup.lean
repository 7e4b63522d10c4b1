import Valuation.Definition
import Valuation.Execution.Strategy
import Valuation.Permission
import Valuation.Scenario.Value
import Valuation.Snapshot

/-!
# Views, snapshots and services in scenarios

What a scenario sets up around its functions.
-/
namespace Valuation
namespace Scenario

def request? : Document → Option RequestedValue
  | .text name => some { name }
  | d => do
    return {
      name := ← d.textField? "name"
      properties := (← d.readIf? "props" Properties.ofDocument?).getD ∅
      kinds := ← d.readIf? "kinds" (Document.items? kind?) }

def view? (d : Document) : Option ViewDefinition := do
  let result := (d.field? "result").getD .null
  return {
    name := d.textOr "name" "view"
    targets := ← d.readEach? "targets" target?
    requested := ← d.readEach? "request" request?
    options := ⟨result.flagOr "intermediates" false, result.flagOr "market_data" true⟩ }

/-- Fills a snapshot by hand; it is fixed if asked for, and sealed unless that is declined. -/
def fill (id : SnapshotId) (expected : List MarketDataKey) (values : List (MarketDataKey × DataValue))
    (isFixed isSealed : Bool) : Except EngineError Snapshot := do
  let s ← (Snapshot.new id).expectKeys expected
  let s ← s.addValues values
  let s ← if isFixed then s.fixTime startTime else .ok s
  if isSealed then s.markComplete else .ok s

/-- A snapshot is sealed at once, unless its making is described. -/
def snapshot? (d : Document) : Option (Except EngineError Snapshot) := do
  let id ← snapshotId? (d.field? "id")
  let values ← d.readEach? "values" pair?
  let expected ← d.readEach? "expect" key?
  if ["expect", "fix", "seal"].any fun name => (d.field? name).isSome then
    return fill id expected values (d.flagOr "fix" false) (d.flagOr "seal" true)
  else return Snapshot.ofValues id values

/-- What a scenario has available: some keys, what a snapshot has, or nothing. -/
def availability? (d : Document) : Option (Except EngineError Availability) := do
  match d.field? "available", d.field? "snapshot" with
  | some keys, _ => return .ok (Availability.ofKeys (← keys.items? key?))
  | none, some s => return (← snapshot? s).map (·.availability)
  | none, none => return .ok (Availability.ofKeys [])

/-- A strategy, single-threaded if there is none. -/
def strategy? : Option Document → Option Strategy
  | none => some .singleThreaded
  | some d =>
    match d.textOr "kind" "single_threaded" with
    | "single_threaded" => some .singleThreaded
    | "node_parallel" => some (.nodeParallel (d.wordOr "n" 1))
    | "job_dispatch" => some (.jobDispatch (d.wordOr "n" 1))
    | _ => none

/-- A source that denies targets to users, and fails on some. -/
def entitlements? (d : Document) : Option EntitlementSource := do
  let denied ← d.readIf? "deny" (Document.table? (Document.items? target?))
  let failing ← d.readEach? "error" target?
  return .fixed fun u t =>
    if t ∈ failing then .error (.sourceNotAvailable "entitlements down")
    else .ok (!((denied.getD ∅).get? u.userName).any fun ts => t ∈ ts)

end Scenario
end Valuation
