import Valuation.Decimal.Binary
import Valuation.Json.Basic
import Valuation.Specification

/-!
# Values

The data that market data and calculations consist of. `missing` marks a value that is known to be
absent.
-/
namespace Valuation

inductive DataValue where
  | decimal (d : Decimal)
  | float (x : Float)
  | text (s : String)
  | json (j : Json)
  | missing
deriving Inhabited

namespace DataValue

/-- Equality of values; floats are compared as numbers, so NaN differs from itself. -/
def same : DataValue → DataValue → Bool
  | .decimal a, .decimal b => a == b
  | .float a, .float b => a == b
  | .text a, .text b => a == b
  | .json a, .json b => a == b
  | .missing, .missing => true
  | _, _ => false

instance : BEq DataValue := ⟨same⟩

def isMissing : DataValue → Bool
  | .missing => true
  | _ => false

/-- The float of a numeric value. -/
def toFloat? : DataValue → Option Float
  | .decimal d => some d.toFloat
  | .float x => some x
  | _ => none

/-- The decimal of a numeric value, if it has one. -/
def toDecimal? : DataValue → Option Decimal
  | .decimal d => some d
  | .float x => Decimal.ofFloat? x
  | _ => none

def display : DataValue → String
  | .decimal d => d.display
  | .float x => Binary64.display x
  | .text s => s
  | .json j => j.render
  | .missing => "<missing>"

end DataValue

/-- A value filed under its specification. -/
structure ComputedValue where
  specification : Specification
  value : DataValue
deriving Inhabited

instance : BEq ComputedValue :=
  ⟨fun a b => a.specification == b.specification && a.value == b.value⟩

end Valuation
