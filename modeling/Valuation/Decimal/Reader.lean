import Valuation.Decimal.Basic

/-!
# Reading a decimal

`Decimal.ofText?` reads a sign, digits, at most one point, and underscores once a digit has come.
The scale is the number of digits after the point. Digits that do not fit behind the point are
rounded by the first of them, a five upwards; what follows that one still has to be digits and
underscores. `Decimal.ofNumeral?` also takes an exponent; decimals that a negative exponent moves out
of reach are rounded, a half away from zero.
-/
namespace Valuation.Decimal

/-- The mantissa from which on an underscore does not count as the first digit that no longer fits. -/
def wideFrom : Nat := 18446744073709549060

/-- Rounds by the first digit that no longer fits; a mantissa that overflows by this gives up one
more decimal. -/
def roundBy (mantissa scale digit : Nat) : Option (Nat × Nat) :=
  if digit < 5 then some (mantissa, scale)
  else if mantissa + 1 < Nat.pow 2 96 then some (mantissa + 1, scale)
  else if scale = 0 then none
  else some ((mantissa + 5) / 10, scale - 1)

/-- What may stand where digits no longer count. -/
def isFiller (c : Char) : Bool := c.isDigit || c = '_'

/-- Mantissa and scale of an unsigned number; `seen` tells whether a digit has come, `point` whether
the point has. -/
def scan (seen point : Bool) (mantissa scale : Nat) : List Char → Option (Nat × Nat)
  | [] => if seen then some (mantissa, scale) else none
  | c :: cs =>
    let digit := c.toNat - '0'.toNat
    if point && 28 ≤ scale then
      if c = '_' && wideFrom ≤ mantissa then scan seen point mantissa scale cs
      else if isFiller c && cs.all isFiller then
        if c.isDigit then roundBy mantissa scale digit else some (mantissa, scale)
      else none
    else if c.isDigit then
      let next := 10 * mantissa + digit
      if next < Nat.pow 2 96 then scan true point next (if point then scale + 1 else scale) cs
      else if point && cs.all isFiller then roundBy mantissa scale digit
      else none
    else if c = '.' && !point then scan seen true mantissa scale cs
    else if c = '_' && seen then scan seen point mantissa scale cs
    else none

/-- A decimal without exponent. -/
def ofText? (text : String) : Option Decimal :=
  let (negative, cs) := match text.toList with
    | '-' :: cs => (true, cs)
    | '+' :: cs => (false, cs)
    | cs => (false, cs)
  match scan false false 0 0 cs with
  | some (m, s) => (make? negative m s).map withoutZeroSign
  | none => none

/-- An unsigned 32-bit number, with an optional plus sign. -/
def exponentOf? (cs : List Char) : Option Nat :=
  let ds := match cs with
    | '+' :: ds => ds
    | ds => ds
  if ds.isEmpty || !ds.all Char.isDigit then none
  else
    let n := ds.foldl (fun n c => 10 * n + (c.toNat - '0'.toNat)) 0
    if n < Nat.pow 2 32 then some n else none

/-- Moves the point of a number to the right: decimals are used up first, then the number grows. -/
def raise? (d : Decimal) (exponent : Nat) : Option Decimal :=
  if exponent ≤ d.scale then make? d.negative d.mantissa (d.scale - exponent)
  else if 28 < exponent then none
  else (make? false (Nat.pow 10 exponent) 0).bind fun p => (d.mul? p).map normalize

/-- Moves the point of a number to the left. The decimals beyond the last place are rounded away, a
half away from zero; a sign stays. -/
def lower? (d : Decimal) (exponent : Nat) : Option Decimal :=
  if 28 < exponent then none
  else
    let scale := d.scale + exponent
    make? d.negative (Binary64.roundDiv .up d.mantissa (Nat.pow 10 (scale - 28))) (min scale 28)

/-- A decimal with an exponent behind `e` or `E`. -/
def ofScientific? (text : String) : Option Decimal :=
  let cs := text.toList
  let base := cs.takeWhile fun c => c ≠ 'e' && c ≠ 'E'
  match cs.dropWhile fun c => c ≠ 'e' && c ≠ 'E' with
  | [] => none
  | _ :: exponent =>
    (ofText? (String.ofList base)).bind fun d =>
      match exponent with
      | '-' :: ds => (exponentOf? ds).bind fun n => lower? d n
      | ds => (exponentOf? ds).bind fun n => raise? d n

/-- A decimal with or without exponent. -/
def ofNumeral? (text : String) : Option Decimal :=
  (ofText? text).or (ofScientific? text)

end Valuation.Decimal
