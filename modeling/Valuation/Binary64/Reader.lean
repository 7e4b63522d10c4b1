import Valuation.Binary64.Rounding

/-!
# Reading a float

Two readings of a decimal number. `ofText?` takes the float nearest to the number. `ofSignificand`
is the quick reading of JSON texts: it keeps at most 64 bits of the digits and reaches the scale by
one multiplication or division, so that long texts may miss the nearest float by a unit.
-/
namespace Valuation.Binary64

/-- Decimal digits as a number, with an earlier value in front of them. -/
def digitsValue (start : Nat) (cs : List Char) : Nat :=
  cs.foldl (fun n c => 10 * n + (c.toNat - '0'.toNat)) start

/-- A sign, if the text starts with one, and the rest. -/
def splitSign : List Char → Bool × List Char
  | '-' :: cs => (true, cs)
  | '+' :: cs => (false, cs)
  | cs => (false, cs)

/-- Digits, an optional point and more digits, an optional exponent; at least one digit. -/
def unsignedOfText? (negative : Bool) (cs : List Char) : Option Float :=
  let whole := cs.takeWhile Char.isDigit
  let rest := cs.dropWhile Char.isDigit
  let (fraction, rest) := match rest with
    | '.' :: r => (r.takeWhile Char.isDigit, r.dropWhile Char.isDigit)
    | r => ([], r)
  if whole.isEmpty ∧ fraction.isEmpty then none
  else
    let value := digitsValue (digitsValue 0 whole) fraction
    let scale := -(fraction.length : Int)
    match rest with
    | [] => some (ofDecimal negative value scale)
    | e :: r =>
      if e = 'e' ∨ e = 'E' then
        let (down, ds) := splitSign r
        if ds.isEmpty ∨ !ds.all Char.isDigit then none
        else
          let n : Int := digitsValue 0 ds
          some (ofDecimal negative value (if down then scale - n else scale + n))
      else none

/-- The float nearest to a decimal text; the words `nan`, `inf` and `infinity` are read in any
case. -/
def ofText? (text : String) : Option Float :=
  let (negative, cs) := splitSign text.toList
  match String.ofList (cs.map Char.toLower) with
  | "nan" => some (Float.ofBits 0x7ff8000000000000)
  | "inf" => some (infinity negative)
  | "infinity" => some (infinity negative)
  | _ => unsignedOfText? negative cs

/-- Scales a float by a power of ten in steps of at most `10 ^ 308`, one rounding each; `none` when
the number is too large. -/
def scale (fuel : Nat) (x : Float) (exponent : Int) : Option Float :=
  if exponent.natAbs ≤ 308 then
    let power := ofNat (Nat.pow 10 exponent.natAbs)
    if 0 ≤ exponent then
      let y := x * power
      if y.isInf then none else some y
    else some (x / power)
  else if x == 0 then some x
  else if 0 ≤ exponent then none
  else
    match fuel with
    | 0 => some 0
    | fuel + 1 => scale fuel (x / ofNat (Nat.pow 10 308)) (exponent + 308)

/-- The quick reading of `± significand · 10 ^ exponent`; `none` when the number is too large. Three
steps are enough, since a float of at most 64 bits is zero after that many. -/
def ofSignificand (negative : Bool) (significand : Nat) (exponent : Int) : Option Float :=
  (scale 4 (ofNat significand) exponent).map fun x => if negative then -x else x

end Valuation.Binary64
