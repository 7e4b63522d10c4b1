import Valuation.Binary64.Rounding

/-!
# The fewest digits that read back

The reals that round to a float form an interval around it. `Digits.shortest` looks on the decimal
grids of 1, 2, …, 17 digits for a point of that interval: the first grid with a point wins, and of
two points on it the nearer one; where both are equally near, a `Tie` decides. If a grid has a point
in the interval, one of the float's two neighbours on the grid is such a point, so only those are
tried.
-/
namespace Valuation.Binary64

/-- The number `value · 10 ^ exponent`. -/
structure Digits where
  value : Nat
  exponent : Int
deriving DecidableEq

/-- An interval of positive reals around a value, all over one denominator. -/
structure Interval where
  low : Nat
  value : Nat
  high : Nat
  den : Nat
  closed : Bool

namespace Interval

/-- The reals that round to `significand · 2 ^ exponent`: half a unit to both sides, but a quarter
below a power of two, where the floats lie twice as close. The ends belong to it when the
significand is even. -/
def around (p : Parts) : Interval :=
  let (num, den) :=
    if 2 ≤ p.exponent then (Nat.pow 2 (p.exponent - 2).toNat, 1) else (1, Nat.pow 2 (2 - p.exponent).toNat)
  let below := if p.significand = Nat.pow 2 52 ∧ -1074 < p.exponent then 1 else 2
  ⟨(4 * p.significand - below) * num, 4 * p.significand * num, (4 * p.significand + 2) * num, den,
    p.significand % 2 = 0⟩

/-- Whether `num / den` lies in the interval. -/
def holds (i : Interval) (num den : Nat) : Bool :=
  if i.closed then i.low * den ≤ num * i.den && num * i.den ≤ i.high * den
  else i.low * den < num * i.den && num * i.den < i.high * den

end Interval

/-- The exponent of the highest power of ten that is at most `num / den`. -/
def log10Ratio (num den : Nat) : Int :=
  let l := ((Nat.toDigits 10 num).length : Int) - (Nat.toDigits 10 den).length
  let reached := if 0 ≤ l then den * Nat.pow 10 l.toNat ≤ num else den ≤ num * Nat.pow 10 (-l).toNat
  if reached then l else l - 1

/-- The point of the interval on the grid with steps of `10 ^ step`, the nearer one if both
neighbours of the value lie in it. -/
def onGrid (tie : Tie) (i : Interval) (step : Int) : Option Digits :=
  let (num, den) := if 0 ≤ step then (Nat.pow 10 step.toNat, 1) else (1, Nat.pow 10 (-step).toNat)
  let floor := i.value * den / (i.den * num)
  let lower := i.holds (floor * num) den
  let upper := i.holds ((floor + 1) * num) den
  let nearest := roundDiv tie (i.value * den) (i.den * num)
  match lower, upper with
  | true, true => some ⟨nearest, step⟩
  | true, false => some ⟨floor, step⟩
  | false, true => some ⟨floor + 1, step⟩
  | false, false => none

/-- Drops trailing zeros, at most `fuel` of them. -/
def Digits.strip : Nat → Digits → Digits
  | 0, d => d
  | fuel + 1, d =>
    if d.value ≠ 0 ∧ d.value % 10 = 0 then Digits.strip fuel ⟨d.value / 10, d.exponent + 1⟩ else d

/-- The shortest decimal that rounds to a positive float, and of those the nearest. -/
def Digits.shortest (tie : Tie) (p : Parts) : Digits :=
  let i := Interval.around p
  let top := log10Ratio i.value i.den
  let found := (List.range 17).findSome? fun (n : Nat) => onGrid tie i (top - n)
  (found.getD ⟨i.value / i.den, 0⟩).strip 20

end Valuation.Binary64
