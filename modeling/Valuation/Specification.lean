import Valuation.Table
import Valuation.Target

/-!
# Specifications

A specification names a value: the target it is about, the name of the value, and properties that
tell variants apart. A market data key names an input by target and field.
-/
namespace Valuation

/-! ## Properties -/

/-- Named texts in the order of their names. -/
abbrev Properties := Table String String

namespace Properties

def display (p : Properties) : String :=
  "\x7b" ++ ",".intercalate (p.toList.map fun e => e.1 ++ "=" ++ e.2) ++ "\x7d"

/-- Properties are compared as sequences of pairs; a sequence comes before its continuations. -/
def compareEntries : List (String × String) → List (String × String) → Ordering
  | [], [] => .eq
  | [], _ :: _ => .lt
  | _ :: _, [] => .gt
  | (k, v) :: r, (l, w) :: s => (compare k l).then ((compare v w).then (compareEntries r s))

end Properties

instance : Ord Properties := ⟨fun p q => Properties.compareEntries p.toList q.toList⟩

/-! ## Market data keys -/

structure MarketDataKey where
  target : Target
  field : String
deriving DecidableEq, Ord, Inhabited

/-! ## Specifications -/

structure Specification where
  target : Target
  name : String
  properties : Properties := ∅
deriving DecidableEq, Ord, Inhabited

namespace Specification

def display (s : Specification) : String :=
  s.name ++ "[" ++ s.target.display ++ "]"
    ++ if s.properties.isEmpty then "" else s.properties.display

/-- The market data that can stand in for a value: its properties do not count. -/
def marketDataKey (s : Specification) : MarketDataKey := ⟨s.target, s.name⟩

end Specification

namespace MarketDataKey

def display (k : MarketDataKey) : String := k.target.display ++ "." ++ k.field

def toSpecification (k : MarketDataKey) : Specification := ⟨k.target, k.field, ∅⟩

@[simp] theorem marketDataKey_toSpecification (k : MarketDataKey) :
    k.toSpecification.marketDataKey = k := rfl

end MarketDataKey
end Valuation
