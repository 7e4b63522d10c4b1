import Valuation.Document.Basic

/-!
# Decoding documents

A record of the domain is decoded from a record by the names of its fields, in any order, or from a
list by their places. Unknown fields are passed over, a known one must not come twice. A case of an
enumeration is its name, or a record with the name as only field and the content of the case in it.
-/
namespace Valuation
namespace Document

/-! ## Leaves -/

def text? : Document → Option String
  | .text s => some s
  | _ => none

def bool? : Document → Option Bool
  | .bool b => some b
  | _ => none

/-- A whole number from zero to below a limit. -/
def nat? (limit : Nat) : Document → Option Nat
  | .int n => if 0 ≤ n ∧ n < limit then some n.toNat else none
  | _ => none

/-- A whole number of 64 bits without sign. -/
def word? : Document → Option Nat := nat? (Nat.pow 2 64)

/-- A float, or the float nearest to a whole number. -/
def float? : Document → Option Float
  | .float x => some x
  | .int n => some (Binary64.ofRatio (n < 0) n.natAbs 1)
  | _ => none

/-! ## Collections -/

def items? {α : Type} (item : Document → Option α) : Document → Option (List α)
  | .list ds => ds.mapM item
  | _ => none

/-- A list of two. -/
def pair? {α β : Type} (first : Document → Option α) (second : Document → Option β) :
    Document → Option (α × β)
  | .list [a, b] => do return (← first a, ← second b)
  | _ => none

/-- Null stands for no value. -/
def option? {α : Type} (some? : Document → Option α) : Document → Option (Option α)
  | .null => some none
  | d => (some? d).map some

/-- A record whose names are data; the last value of a repeated name stays. -/
def table? {α : Type} (value : Document → Option α) : Document → Option (Table String α)
  | .record fs => (fs.mapM fun f => (value f.2).map fun v => (f.1, v)).map Table.ofList
  | _ => none

/-! ## Records -/

/-- The known fields that a document has. -/
abbrev Fields := List (String × Document)

/-- The known fields of a record or, place by place, of a list. -/
def fields? (names : List String) : Document → Option Fields
  | .record fs =>
    let known := fs.filter fun f => f.1 ∈ names
    if names.all fun n => known.countP (fun f => f.1 = n) ≤ 1 then some known else none
  | .list ds => if ds.length ≤ names.length then some (names.zip ds) else none
  | _ => none

namespace Fields

def find? (fs : Fields) (name : String) : Option Document := fs.lookup name

/-- A field that must be there. -/
def required {α : Type} (fs : Fields) (name : String) (decode : Document → Option α) : Option α :=
  (fs.find? name).bind decode

/-- A field that has a default. -/
def withDefault {α : Type} (fs : Fields) (name : String) (default : α) (decode : Document → Option α) :
    Option α :=
  match fs.find? name with
  | some d => decode d
  | none => some default

end Fields

/-! ## Enumerations -/

/-- The name of a case, and its content if it has any. -/
def case? : Document → Option (String × Option Document)
  | .text s => some (s, none)
  | .record [(name, content)] => some (name, some content)
  | _ => none

/-- A case without content, among cases of which none has any. -/
def plainCase? {α : Type} (cases : List (String × α)) (d : Document) : Option α := do
  let (name, content) ← d.case?
  match content with
  | none => cases.lookup name
  | some .null => cases.lookup name
  | some _ => none

end Document
end Valuation
