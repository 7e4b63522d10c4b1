import Valuation.Decimal.Basic

/-!
# Decimals and binary floats

`Decimal.toFloat` computes the whole part and the fraction apart and rounds their sum at the
decimal's own scale. The other way, a float is `significand · 2 ^ exponent`; a negative power of two
becomes powers of five and ten inside 96 bits, losing low bits where they do not fit, and the result
is cut to 28 decimals (`Decimal.ofFloat?`). `Decimal.ofFloatRounded?` also drops the digits that a
float does not vouch for.
-/
namespace Valuation.Decimal

/-! ## To a float -/

/-- `10 ^ n` by repeated squaring, rounding at every step. -/
def powerOfTen (n : Nat) : Float :=
  let rec go : (fuel n : Nat) → (result base : Float) → Float
    | 0, _, r, _ => r
    | fuel + 1, n, r, b =>
      let r := if n % 2 = 1 then r * b else r
      if n / 2 = 0 then r else go fuel (n / 2) r (b * b)
  go 8 n 1 10

/-- The float of a decimal. -/
def toFloat (d : Decimal) : Float :=
  let signed (x : Float) : Float := if d.negative then -x else x
  if d.scale = 0 then
    if d.isZero then 0 else signed (Binary64.ofNat d.mantissa)
  else
    let p := Nat.pow 10 d.scale
    let whole := Binary64.ofNat (d.mantissa / p)
    let fraction := Binary64.ofNat (d.mantissa % p) / Binary64.ofNat p
    if fraction == 0 then signed whole
    else
      let unit := powerOfTen d.scale
      signed (((whole + fraction) * unit).round / unit)

/-! ## From a float -/

/-- Multiplies by `10 ^ k / 2 ^ k`: halves an even number, else multiplies by five, and halves with
loss where five times the number does not fit. Halving moves the exponent of ten. -/
def absorbHalves : (k m : Nat) → (exponent : Int) → Nat × Int
  | 0, m, e => (m, e)
  | k + 1, m, e =>
    if m % 2 = 0 then absorbHalves k (m / 2) (e + 1)
    else if 5 * m < Nat.pow 2 96 then absorbHalves k (5 * m) e
    else absorbHalves k (m / 2) (e + 1)

/-- Drops one digit; from five on it rounds up. -/
def dropDigit (m : Nat) : Nat := m / 10 + if 5 ≤ m % 10 then 1 else 0

/-- Drops `k` digits one by one; a number that has become zero keeps no decimals. -/
def shrinkTens : (k m scale : Nat) → Nat × Nat
  | 0, m, s => (m, s)
  | k + 1, m, s => if m / 10 = 0 then (0, 0) else shrinkTens k (dropDigit m) (s - 1)

/-- Drops decimals while the mantissa needs more than 52 bits. -/
def dropExcess : (fuel m scale : Nat) → Nat × Nat
  | 0, m, s => (m, s)
  | fuel + 1, m, s =>
    if s ≠ 0 ∧ Nat.pow 2 52 ≤ m then dropExcess fuel (dropDigit m) (s - 1) else (m, s)

/-- Mantissa and scale of a positive float below `2 ^ 96`. -/
def partsOfFloat? (p : Binary64.Parts) : Option (Nat × Nat) :=
  if 0 < p.exponent then
    let m := p.significand * Nat.pow 2 p.exponent.toNat
    if m < Nat.pow 2 96 then some (m, 0) else none
  else
    let (m, e) := absorbHalves (-p.exponent).toNat p.significand p.exponent
    let scale := (-e).toNat
    some (shrinkTens (scale - 28) m scale)

/-- The decimal of a float with all the digits that fit; `none` unless the float is finite and in
range. -/
def ofFloat? (x : Float) : Option Decimal :=
  (Binary64.Parts.ofFloat? x).bind fun p =>
    if p.significand = 0 then make? p.negative 0 0
    else (partsOfFloat? p).bind fun (m, s) => make? p.negative m s

/-- The decimal of a float without the digits beyond its precision and without trailing zeros. -/
def ofFloatRounded? (x : Float) : Option Decimal :=
  (Binary64.Parts.ofFloat? x).bind fun p =>
    if p.significand = 0 then make? p.negative 0 0
    else
      (partsOfFloat? p).bind fun (m, s) =>
        let (m, s) := dropExcess s m s
        let (m, s) := dropZeros m s s
        make? p.negative m s

end Valuation.Decimal
