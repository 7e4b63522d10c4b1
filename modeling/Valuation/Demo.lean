import Valuation.Definition
import Valuation.Function.Repository

/-!
# The demonstration portfolio

Positions `P1`, `P2`, … with a rate, a maturity, a notional and a coupon. The present value of a
position is its cash flow, notional times coupon, discounted by `(1 + rate) ^ -maturity`.
-/
namespace Valuation.Demo

/-! ## Functions -/

/-- The decimal with a given name. -/
def decimalByName (i : FunctionInputs) (name : String) : Except FunctionError Decimal :=
  match i.byName? name with
  | none => .error (.missingInput name)
  | some v =>
    match v.toDecimal? with
    | some d => .ok d
    | none => .error (.invalidInput (name ++ " is not numeric"))

/-- A product breaks off when it is too large. -/
def product (a b : Decimal) : Except Fault Decimal :=
  match a.mul? b with
  | some d => .ok d
  | none => .error (.panic (some "Multiplication overflowed"))

def discountFactor (i : FunctionInputs) : Except Fault DataValue := do
  let rate ← (i.floatByName "Rate").mapError Fault.error
  let maturity ← (i.floatByName "Maturity").mapError Fault.error
  if rate ≤ -1 then
    .error (.error (.invalidInput ("rate " ++ Binary64.display rate ++ " out of range")))
  else return .float (Float.pow (1 + rate) (-maturity))

def cashflow (i : FunctionInputs) : Except Fault DataValue := do
  let notional ← (decimalByName i "Notional").mapError Fault.error
  let coupon ← (decimalByName i "Coupon").mapError Fault.error
  return .decimal (← product notional coupon)

def presentValue (i : FunctionInputs) : Except Fault DataValue := do
  let factor ← (i.floatByName "DF").mapError Fault.error
  match Decimal.ofFloatRounded? factor with
  | none => .error (.error (.invalidInput "DF is not finite"))
  | some factor =>
    let flow ← (decimalByName i "CF").mapError Fault.error
    return .decimal ((← product factor flow).roundTo 2)

/-- A function on positions that computes one value from others of the same position. -/
def onPosition (id name : String) (inputs : List String)
    (compute : FunctionInputs → Except Fault DataValue) : CalculationFunction :=
  { id
    targetKinds := [.position]
    valueNames := [name]
    requirements := CalculationFunction.inputsOnTarget inputs
    execute := fun _ i outputs => CalculationFunction.oneByOne (fun _ => { result := compute i }) outputs }

def functions : List CalculationFunction :=
  [onPosition "discount-factor" "DF" ["Rate", "Maturity"] discountFactor,
    onPosition "cashflow" "CF" ["Notional", "Coupon"] cashflow,
    onPosition "present-value" "PV" ["DF", "CF"] presentValue]

def repository : Except EngineError FunctionRepository := FunctionRepository.ofList functions

/-! ## View and market data -/

/-- The position with a number, counted from one. -/
def position (i : Nat) : Target := Target.position s!"P{i}"

/-- Present values and cash flows of the first positions. -/
def definition (positions : Nat) : ViewDefinition :=
  { name := "demo-pv"
    targets := (List.range positions).map fun i => position (i + 1)
    requested := [{ name := "PV" }, { name := "CF" }] }

/-- Rates rise by a quarter percent from position to position, on top of a bump. -/
def marketDataOf (bump : Float) (i : Nat) : List (MarketDataKey × DataValue) :=
  let t := position i
  let rate := Binary64.ofRatio false 4 100 + Binary64.ofRatio false 25 10000 * Binary64.ofNat (i - 1) + bump
  let amount (mantissa scale : Nat) : DataValue :=
    .decimal ((Decimal.make? false mantissa scale).getD Decimal.zero)
  [(⟨t, "Rate"⟩, .float rate),
    (⟨t, "Maturity"⟩, .float (Binary64.ofNat i)),
    (⟨t, "Notional"⟩, amount (1000000 * i) 0),
    (⟨t, "Coupon"⟩, amount 5 2)]

/-- The market data of the first positions. -/
def marketData (positions : Nat) (bump : Float) : List (MarketDataKey × DataValue) :=
  (List.range positions).flatMap fun i => marketDataOf bump (i + 1)

/-- Market data with a value in the place of the one under its key, or at the end. -/
def quote (data : List (MarketDataKey × DataValue)) (e : MarketDataKey × DataValue) :
    List (MarketDataKey × DataValue) :=
  if data.any fun f => f.1 = e.1 then data.map fun f => if f.1 = e.1 then e else f else data ++ [e]

end Valuation.Demo
