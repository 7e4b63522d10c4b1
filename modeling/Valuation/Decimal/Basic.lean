import Valuation.Binary64.Rounding

/-!
# Decimal numbers

A decimal is `± mantissa / 10 ^ scale` with a 96-bit mantissa and at most 28 decimals. The scale is
kept, so `1.50` stays `1.50`. A product that does not fit gives up decimals, rounding halves to the
even neighbour (`Decimal.mul?`), and overflows only when no decimal is left to give up. Zero may have
a sign, which shows in the text and counts for nothing else; most operations drop it.
-/
namespace Valuation

structure Decimal where
  negative : Bool
  mantissa : Nat
  scale : Nat
  mantissa_lt : mantissa < Nat.pow 2 96
  scale_le : scale ≤ 28
deriving DecidableEq

namespace Decimal

/-- A decimal from its parts, if they fit. -/
def make? (negative : Bool) (mantissa scale : Nat) : Option Decimal :=
  if h : mantissa < Nat.pow 2 96 ∧ scale ≤ 28 then some ⟨negative, mantissa, scale, h.1, h.2⟩ else none

def zero : Decimal := ⟨false, 0, 0, by decide, by decide⟩

instance : Inhabited Decimal := ⟨zero⟩

def isZero (d : Decimal) : Bool := d.mantissa == 0

/-- The same decimal, zero without its sign. -/
def withoutZeroSign (d : Decimal) : Decimal := { d with negative := d.negative && !d.isZero }

/-- Decimals are equal as numbers: `1.5` equals `1.50`, and the sign of zero does not count. -/
instance : BEq Decimal where
  beq a b :=
    a.mantissa * Nat.pow 10 b.scale == b.mantissa * Nat.pow 10 a.scale
      && (a.isZero || a.negative == b.negative)

theorem make?_isSome (negative : Bool) (mantissa scale : Nat) :
    (make? negative mantissa scale).isSome ↔ mantissa < Nat.pow 2 96 ∧ scale ≤ 28 := by
  unfold make?
  split
  · next h => exact ⟨fun _ => h, fun _ => rfl⟩
  · next h => exact ⟨fun e => (nomatch e), fun e => absurd e h⟩

/-- A whole number, if it fits. -/
def ofInt? (n : Int) : Option Decimal := make? (n < 0) n.natAbs 0

/-! ## Text -/

/-- A point with exactly `scale` digits behind it and at least one before it. -/
def digitsText (mantissa scale : Nat) : String :=
  if scale = 0 then toString mantissa
  else
    let fraction := toString (mantissa % Nat.pow 10 scale)
    let zeros := String.ofList (List.replicate (scale - fraction.length) '0')
    toString (mantissa / Nat.pow 10 scale) ++ "." ++ zeros ++ fraction

/-- The displayed text, with every decimal that the scale holds. -/
def display (d : Decimal) : String :=
  (if d.negative then "-" else "") ++ digitsText d.mantissa d.scale

/-! ## Arithmetic -/

/-- `mantissa / 10 ^ scale` with a scale of at most 28, giving up `dropped` decimals or as many more
as it takes to fit; each attempt rounds the exact number. -/
def fit (negative : Bool) (mantissa scale : Nat) : (attempts dropped : Nat) → Option Decimal
  | 0, _ => none
  | attempts + 1, dropped =>
    if scale < dropped then none
    else
      match make? negative (Binary64.roundDiv .even mantissa (Nat.pow 10 dropped)) (scale - dropped) with
      | some d => some d
      | none => fit negative mantissa scale attempts (dropped + 1)

/-- Whether the mantissa fits into 32 bits. -/
def isNarrow (d : Decimal) : Bool := d.mantissa < Nat.pow 2 32

/-- The product, with as many of its decimals as fit; `none` when the number itself is too large. A
product with zero is plain zero. Of two factors with narrow mantissas, a product that rounds to zero
has no sign, and one with more than 47 decimals is plain zero; otherwise the sign stays. -/
def mul? (a b : Decimal) : Option Decimal :=
  let scale := a.scale + b.scale
  let narrow := a.isNarrow && b.isNarrow
  if a.isZero || b.isZero || (narrow && 47 < scale) then some zero
  else
    let product := fit (a.negative != b.negative) (a.mantissa * b.mantissa) scale 58 (scale - 28)
    if narrow then product.map withoutZeroSign else product

/-- Rounds to at most `places` decimals, a half to the even neighbour. A number with fewer decimals
keeps its scale. What becomes zero loses its sign, what is zero keeps it. -/
def roundTo (d : Decimal) (places : Nat) : Decimal :=
  if d.scale ≤ places then d
  else
    let m := Binary64.roundDiv .even d.mantissa (Nat.pow 10 (d.scale - places))
    match make? d.negative m places with
    | some r => if d.isZero then r else r.withoutZeroSign
    | none => d

/-- Drops trailing zeros among the decimals, at most `fuel` of them. -/
def dropZeros (mantissa : Nat) : (fuel scale : Nat) → Nat × Nat
  | 0, scale => (mantissa, scale)
  | fuel + 1, scale =>
    if scale ≠ 0 ∧ mantissa % 10 = 0 then dropZeros (mantissa / 10) fuel (scale - 1)
    else (mantissa, scale)

/-- The same number with as few decimals as it needs. -/
def normalize (d : Decimal) : Decimal :=
  if d.isZero then zero
  else
    let (m, s) := dropZeros d.mantissa d.scale d.scale
    (make? d.negative m s).getD d

end Decimal
end Valuation
