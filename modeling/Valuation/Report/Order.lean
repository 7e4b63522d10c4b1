import Valuation.Json.Basic

/-!
# Reports on orders

What an order makes of a list of elements, and the numbering of things by their first appearance.
-/
namespace Valuation

/-- The place of an element in a list, put at the end if it is new. -/
def placeIn {α : Type} [BEq α] (xs : List α) (x : α) : Nat × List α :=
  match xs.findIdx? fun y => y == x with
  | some i => (i, xs)
  | none => (xs.length, xs ++ [x])

def orderingName : Ordering → String
  | .lt => "Less"
  | .eq => "Equal"
  | .gt => "Greater"

/-- Texts in order. -/
def sortTexts (xs : List String) : List String := xs.mergeSort fun a b => (compare a b).isLE

/-- The elements in order, how many are different, and how each compares with the first. -/
def reportOrder {α : Type} [Ord α] [BEq α] (display : α → String) (xs : List α) : Json :=
  let sorted := xs.mergeSort fun a b => (compare a b).isLE
  let distinct := xs.foldl (fun seen x => (placeIn seen x).2) []
  .record
    [("sorted", .texts (sorted.map display)),
      ("distinct", .nat distinct.length),
      ("to_first", match xs with
        | [] => .list []
        | first :: _ => .texts (xs.map fun x => orderingName (compare x first)))]

end Valuation
