/-!
# Hexadecimal digits

Numbers are written in lower case and read in either case.
-/
namespace Valuation

/-- The lowest `width` hexadecimal digits of a number. -/
def hexDigits (width n : Nat) : String :=
  let ds := Nat.toDigits 16 (n % Nat.pow 16 width)
  String.ofList (List.replicate (width - ds.length) '0' ++ ds)

def hexValue? (c : Char) : Option Nat :=
  let n := c.toNat
  if 48 ≤ n ∧ n ≤ 57 then some (n - 48)
  else if 97 ≤ n ∧ n ≤ 102 then some (n - 87)
  else if 65 ≤ n ∧ n ≤ 70 then some (n - 55)
  else none

/-- The number that hexadecimal digits write. -/
def hexNumber? (cs : List Char) : Option Nat :=
  cs.foldlM (fun n c => (hexValue? c).map (16 * n + ·)) 0

end Valuation
