import Valuation.OrderedSet
import Valuation.Specification

/-!
# Availability of market data

Which market data a view may be compiled against. The fingerprint stands for the available keys:
graphs compiled under one fingerprint may be reused under an equal one.
-/
namespace Valuation

/-- The available keys in order. -/
abbrev Fingerprint := List MarketDataKey

structure Availability where
  isAvailable : MarketDataKey → Bool
  fingerprint : Fingerprint

/-- A set of keys as availability. -/
def Availability.ofKeys (keys : List MarketDataKey) : Availability :=
  let set := OrderedSet.ofList keys
  ⟨fun k => set.contains k, set.toList⟩

end Valuation
