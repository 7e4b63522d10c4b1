import Valuation.Json.Basic
import Valuation.Table

/-!
# Documents

A `Document` is what a reader of a self-describing format yields: fields in the order of the text,
repeated names included. An `invalid` item is well formed but has no value, such as a number beyond
every float; it does no harm where nothing looks at it.
-/
namespace Valuation

inductive Document where
  | null
  | bool (b : Bool)
  | int (n : Int)
  | float (x : Float)
  | text (s : String)
  | list (items : List Document)
  | record (fields : List (String × Document))
  | invalid
deriving Inhabited

namespace Document

mutual

/-- The JSON value of a document: names in order, the last value of a repeated name; none if any
part of it is invalid. -/
def toJson? : Document → Option Json
  | .null => some .null
  | .bool b => some (.bool b)
  | .int n => some (.int n)
  | .float x => some (.float x)
  | .text s => some (.text s)
  | .list items => (itemsToJson? items).map .list
  | .record fields => (fieldsToJson? fields).map fun fs => .record (Table.ofList fs).toList
  | .invalid => none

def itemsToJson? : List Document → Option (List Json)
  | [] => some []
  | d :: ds => do
    let j ← toJson? d
    let js ← itemsToJson? ds
    return j :: js

def fieldsToJson? : List (String × Document) → Option (List (String × Json))
  | [] => some []
  | (k, d) :: ds => do
    let j ← toJson? d
    let js ← fieldsToJson? ds
    return (k, j) :: js

end

/-- Whether every part of a document has a value. -/
def isValid (d : Document) : Bool := d.toJson?.isSome

end Document
end Valuation
