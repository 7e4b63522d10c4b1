import Valuation.Definition
import Valuation.Execution.Run

/-!
# Result models

What one cycle publishes: values by target, filed under their name and properties, the reasons of
what failed, and the market data that was read.
-/
namespace Valuation

structure ResultModel where
  cycle : CycleId
  view : String
  valuationTime : Instant
  values : Table Target (Table String ComputedValue) := ∅
  failures : Table Specification FailureReason := ∅
  marketData : List ComputedValue := []
deriving Inhabited

namespace ResultModel

/-- What a value is filed under on its target: its name, followed by the properties if it has any. -/
def resultKey (s : Specification) : String :=
  if s.properties.isEmpty then s.name else s.name ++ s.properties.display

/-- Files a value; a value of the same target and key gives way. -/
def insert (m : ResultModel) (v : ComputedValue) : ResultModel :=
  let onTarget := (m.values.get? v.specification.target).getD ∅
  { m with
    values := m.values.insert v.specification.target (onTarget.insert (resultKey v.specification) v) }

/-- Orders values by their specification. -/
def sorted (values : List ComputedValue) : List ComputedValue :=
  values.mergeSort fun a b => (compare a.specification b.specification).isLE

/-- The values that a view publishes: those asked for and, if it wants them, those between. -/
def published (g : Graph) (o : ResultOptions) (c : ComputationCache) : List ComputedValue :=
  c.getMany g.terminals
    ++ if o.intermediates then
        (g.nodes.filter fun n => !n.isMarketData).flatMap fun n => c.getMany n.outputs
      else []

/-- The market data that was read, ordered by specification. -/
def marketDataRead (g : Graph) (c : ComputationCache) : List ComputedValue :=
  sorted ((g.nodes.filter (·.isMarketData)).flatMap fun n => c.getMany n.outputs)

/-- The result model of a run. -/
def build (cycle : CycleId) (valuationTime : Instant) (g : Graph) (c : ComputationCache)
    (failures : Table Specification FailureReason) (o : ResultOptions) : ResultModel :=
  (published g o c).foldl insert
    { cycle
      view := g.name
      valuationTime
      failures
      marketData := if o.marketData then marketDataRead g c else [] }

/-! ## Reading -/

def valuesFor? (m : ResultModel) (t : Target) : Option (Table String ComputedValue) := m.values.get? t

def get? (m : ResultModel) (t : Target) (key : String) : Option ComputedValue :=
  (m.valuesFor? t).bind fun vs => vs.get? key

/-- All values, by target and key. -/
def allValues (m : ResultModel) : List ComputedValue := m.values.values.flatMap (·.values)

def size (m : ResultModel) : Nat := m.allValues.length

def isEmpty (m : ResultModel) : Bool := m.values.isEmpty

/-- The part of a model that is about the targets that pass a test. The test, which may have effects, is made
for values, failures and market data, in this order. -/
def retainTargetsM {μ : Type → Type} [Monad μ] (m : ResultModel) (keep : Target → μ Bool) : μ ResultModel := do
  let values ← m.values.filterKeysM keep
  let failures ← m.failures.filterKeysM fun s => keep s.target
  let marketData ← m.marketData.filterM fun v => keep v.specification.target
  return { m with values, failures, marketData }

/-- The part of a model that is about the targets that satisfy a test. -/
def retainTargets (m : ResultModel) (keep : Target → Bool) : ResultModel :=
  Id.run (m.retainTargetsM fun t => pure (keep t))

/-- Equality of models; values are compared as numbers where they are numbers. -/
instance : BEq ResultModel where
  beq a b :=
    a.cycle == b.cycle && a.view == b.view && a.valuationTime == b.valuationTime
      && a.values == b.values && a.failures == b.failures && a.marketData == b.marketData

end ResultModel
end Valuation
