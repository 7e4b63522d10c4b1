/-!
# Binary floating point, exactly

A finite 64-bit float is `± significand · 2 ^ exponent` with a significand below `2 ^ 53`
(`Parts.ofFloat?`), and `ofRatio` is the float nearest to a quotient, a half going to the even
significand. All arithmetic here is on natural numbers. Rounding moves a quotient by half a unit at
most, whichever way a half goes (`roundDiv_le`, `le_roundDiv`).
-/
namespace Valuation.Binary64

/-! ## Rounding a quotient -/

/-- Which neighbour a half goes to. -/
inductive Tie where
  | even
  | up
deriving DecidableEq, Inhabited

/-- The whole number nearest to `num / den`. -/
def roundDiv (tie : Tie) (num den : Nat) : Nat :=
  let q := num / den
  let r := num % den
  if den < 2 * r ∨ (2 * r = den ∧ (tie = .up ∨ q % 2 = 1)) then q + 1 else q

/-- Half a unit is the most that rounding moves a quotient: upwards. -/
theorem roundDiv_le (tie : Tie) (num den : Nat) (h : 0 < den) :
    2 * den * roundDiv tie num den ≤ 2 * num + den := by
  have hm := Nat.div_add_mod num den
  have hr := Nat.mod_lt num h
  unfold roundDiv
  generalize num / den = q at *
  generalize num % den = r at *
  subst hm
  simp only
  have e : 2 * den * q = 2 * (den * q) := Nat.mul_assoc 2 den q
  split <;> simp only [Nat.mul_add, Nat.mul_one, e] <;> omega

/-- Half a unit is the most that rounding moves a quotient: downwards. -/
theorem le_roundDiv (tie : Tie) (num den : Nat) (h : 0 < den) :
    2 * num ≤ 2 * den * roundDiv tie num den + den := by
  have hm := Nat.div_add_mod num den
  have hr := Nat.mod_lt num h
  unfold roundDiv
  generalize num / den = q at *
  generalize num % den = r at *
  subst hm
  simp only
  have e : 2 * den * q = 2 * (den * q) := Nat.mul_assoc 2 den q
  split <;> simp only [Nat.mul_add, Nat.mul_one, e] <;> omega

/-! ## Taking a float apart -/

/-- The value `± significand · 2 ^ exponent`. -/
structure Parts where
  negative : Bool
  significand : Nat
  exponent : Int
deriving DecidableEq

/-- A finite float as sign, significand and exponent; infinities and NaN have no parts. -/
def Parts.ofFloat? (x : Float) : Option Parts :=
  let bits := x.toBits.toNat
  let negative : Bool := bits / Nat.pow 2 63 = 1
  let biased : Nat := bits / Nat.pow 2 52 % 2048
  let fraction := bits % Nat.pow 2 52
  if biased = 2047 then none
  else if biased = 0 then some ⟨negative, fraction, -1074⟩
  else some ⟨negative, fraction + Nat.pow 2 52, (biased : Int) - 1075⟩

/-! ## Putting a float together -/

/-- The float with a sign and the remaining 63 bits. -/
def ofBits (negative : Bool) (rest : Nat) : Float :=
  Float.ofBits (UInt64.ofNat (rest + if negative then Nat.pow 2 63 else 0))

/-- Plus or minus infinity. -/
def infinity (negative : Bool) : Float := ofBits negative (2047 * Nat.pow 2 52)

/-- The exponent of the highest power of two that is at most `num / den`. -/
def log2Ratio (num den : Nat) : Int :=
  let l := (num.log2 : Int) - den.log2
  let reached := if 0 ≤ l then den * Nat.pow 2 l.toNat ≤ num else den ≤ num * Nat.pow 2 (-l).toNat
  if reached then l else l - 1

/-- The float nearest to `± num / den`; a half goes to the even significand, and what rounds beyond
the largest finite float is infinite. -/
def ofRatio (negative : Bool) (num den : Nat) : Float :=
  if num = 0 ∨ den = 0 then ofBits negative 0
  else
    let q := max (-1074) (log2Ratio num den - 52)
    let m :=
      if 0 ≤ q then roundDiv .even num (den * Nat.pow 2 q.toNat)
      else roundDiv .even (num * Nat.pow 2 (-q).toNat) den
    let (m, q) := if m = Nat.pow 2 53 then (Nat.pow 2 52, q + 1) else (m, q)
    if m < Nat.pow 2 52 then ofBits negative m
    else
      let biased := (q + 1075).toNat
      if 2047 ≤ biased then infinity negative else ofBits negative (biased * Nat.pow 2 52 + (m - Nat.pow 2 52))

/-- The float nearest to a whole number. -/
def ofNat (n : Nat) : Float := ofRatio false n 1

/-- The float nearest to `± value · 10 ^ exponent`. Numbers beyond every float are cut off before
their power of ten is formed. -/
def ofDecimal (negative : Bool) (value : Nat) (exponent : Int) : Float :=
  if value = 0 then ofBits negative 0
  else
    let magnitude := (value.log2 : Int) * 3 / 10 + exponent
    if 400 < magnitude then infinity negative
    else if magnitude < -(400 : Int) - value.log2 then ofBits negative 0
    else if 0 ≤ exponent then ofRatio negative (value * Nat.pow 10 exponent.toNat) 1
    else ofRatio negative value (Nat.pow 10 (-exponent).toNat)

end Valuation.Binary64
