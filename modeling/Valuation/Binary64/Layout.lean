import Valuation.Binary64.Shortest

/-!
# Writing a float

A `Layout` holds the decisions of a number format; `Layout.render` writes the shortest digits that
read back in that format. `plain` is the format of displayed values, `json` that of JSON texts.
-/
namespace Valuation.Binary64

/-- How a format writes a float. -/
structure Layout where
  /-- Whether a number whose first digit stands for `10 ^ e` is written without an exponent. -/
  positional : Int → Bool
  /-- Whether a whole number ends in `.0`. -/
  pointZero : Bool
  /-- Which of two shortest texts is written when both are equally near. -/
  tie : Tie
  nan : String
  infinity : String

namespace Layout

/-- Displayed values never have an exponent and whole numbers have no point; a half goes up. -/
def plain : Layout := ⟨fun _ => true, false, .up, "NaN", "inf"⟩

/-- JSON numbers are positional from `10 ^ -5` to below `10 ^ 16`, and whole ones end in `.0`; a half
goes to the even digit. What is not finite is no number there. -/
def json : Layout := ⟨fun e => -5 ≤ e ∧ e < 16, true, .even, "null", "null"⟩

/-- Digits with a point after the first `point` of them; zeros fill both sides. -/
def place (pointZero : Bool) (digits : String) (point : Int) : String :=
  let n := (digits.length : Int)
  if point ≤ 0 then "0." ++ String.ofList (List.replicate (-point).toNat '0') ++ digits
  else if n ≤ point then
    digits ++ String.ofList (List.replicate (point - n).toNat '0') ++ (if pointZero then ".0" else "")
  else
    let cs := digits.toList
    String.ofList (cs.take point.toNat) ++ "." ++ String.ofList (cs.drop point.toNat)

/-- A first digit, the others after a point, and a signed exponent. -/
def scientific (digits : String) (exponent : Int) : String :=
  let mantissa := match digits.toList with
    | [] => ""
    | [c] => c.toString
    | c :: rest => c.toString ++ "." ++ String.ofList rest
  let sign := if exponent < 0 then "-" else "+"
  mantissa ++ "e" ++ sign ++ toString exponent.natAbs

/-- A finite float in a layout. -/
def renderParts (l : Layout) (p : Parts) : String :=
  let sign := if p.negative then "-" else ""
  if p.significand = 0 then sign ++ (if l.pointZero then "0.0" else "0")
  else
    let d := Digits.shortest l.tie p
    let digits := toString d.value
    let lead := d.exponent + digits.length - 1
    sign ++ if l.positional lead then place l.pointZero digits (lead + 1) else scientific digits lead

/-- A float in a layout; an infinity has its sign unless it is written as `null`. -/
def render (l : Layout) (x : Float) : String :=
  match Parts.ofFloat? x with
  | some p => renderParts l p
  | none =>
    if x.isNaN then l.nan
    else if x < 0 ∧ l.infinity ≠ "null" then "-" ++ l.infinity
    else l.infinity

end Layout

/-- The text of a displayed float. -/
def display (x : Float) : String := Layout.plain.render x

/-- The text of a float in JSON. -/
def jsonText (x : Float) : String := Layout.json.render x

end Valuation.Binary64
