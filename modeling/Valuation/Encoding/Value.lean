import Valuation.Decimal.Reader
import Valuation.Document.Fields
import Valuation.Permission
import Valuation.Value

/-!
# Encoding targets, specifications and values

Records are written as JSON records with their fields in a fixed order, identifiers as plain texts,
kinds by their names, and a value as a record with its case as only field. Decimals are written as
floats; they are read from whole numbers, floats and texts.
-/
namespace Valuation

/-- A record of named parts. -/
abbrev Json.fields (fs : List (String × Json)) : Json := .record fs

/-! ## Targets -/

namespace TargetKind

def toJson (k : TargetKind) : Json := .text k.display

def ofDocument? : Document → Option TargetKind :=
  Document.plainCase? (all.map fun k => (k.display, k))

end TargetKind

namespace Target

def toJson (t : Target) : Json := .fields [("kind", t.kind.toJson), ("id", .text t.id.text)]

def ofDocument? (d : Document) : Option Target := do
  let fs ← d.fields? ["kind", "id"]
  let kind ← fs.required "kind" TargetKind.ofDocument?
  let id ← fs.required "id" Document.text?
  return ⟨kind, ⟨id⟩⟩

end Target

/-! ## Specifications -/

namespace Properties

def toJson (p : Properties) : Json := .fields (p.toList.map fun e => (e.1, .text e.2))

def ofDocument? (d : Document) : Option Properties := d.table? Document.text?

end Properties

namespace Specification

def toJson (s : Specification) : Json :=
  .fields
    [("target", s.target.toJson), ("value_name", .text s.name), ("properties", Properties.toJson s.properties)]

def ofDocument? (d : Document) : Option Specification := do
  let fs ← d.fields? ["target", "value_name", "properties"]
  let target ← fs.required "target" Target.ofDocument?
  let name ← fs.required "value_name" Document.text?
  let properties ← fs.required "properties" Properties.ofDocument?
  return ⟨target, name, properties⟩

end Specification

namespace MarketDataKey

def toJson (k : MarketDataKey) : Json := .fields [("target", k.target.toJson), ("field", .text k.field)]

def ofDocument? (d : Document) : Option MarketDataKey := do
  let fs ← d.fields? ["target", "field"]
  let target ← fs.required "target" Target.ofDocument?
  let field ← fs.required "field" Document.text?
  return ⟨target, field⟩

end MarketDataKey

/-! ## Snapshot names and users -/

namespace SnapshotId

def toJson (id : SnapshotId) : Json :=
  .fields [("observation_date", .text id.date.display), ("observation_time", .text id.label)]

def ofDocument? (d : Document) : Option SnapshotId := do
  let fs ← d.fields? ["observation_date", "observation_time"]
  let date ← fs.required "observation_date" fun d => d.text?.bind Date.ofText?
  let label ← fs.required "observation_time" Document.text?
  return ⟨date, label⟩

end SnapshotId

namespace UserPrincipal

def toJson (u : UserPrincipal) : Json :=
  .fields [("user_name", .text u.userName), ("ip_address", .text u.ipAddress)]

def ofDocument? (d : Document) : Option UserPrincipal := do
  let fs ← d.fields? ["user_name", "ip_address"]
  let userName ← fs.required "user_name" Document.text?
  let ipAddress ← fs.required "ip_address" Document.text?
  return ⟨userName, ipAddress⟩

end UserPrincipal

/-! ## Values -/

namespace Decimal

def toJson (d : Decimal) : Json := .float d.toFloat

/-- A float is read by its displayed text. -/
def ofDocument? : Document → Option Decimal
  | .int n => ofInt? n
  | .float x => ofText? (Binary64.display x)
  | .text s => ofNumeral? s
  | _ => none

end Decimal

namespace DataValue

def toJson : DataValue → Json
  | .decimal d => .fields [("Decimal", d.toJson)]
  | .float x => .fields [("Float", .float x)]
  | .text s => .fields [("Text", .text s)]
  | .json j => .fields [("Json", j)]
  | .missing => .text "Missing"

def ofDocument? (d : Document) : Option DataValue := do
  match ← d.case? with
  | ("Decimal", some d) => (Decimal.ofDocument? d).map .decimal
  | ("Float", some d) => d.float?.map .float
  | ("Text", some d) => d.text?.map .text
  | ("Json", some d) => d.toJson?.map .json
  | ("Missing", none) => some .missing
  | ("Missing", some .null) => some .missing
  | _ => none

end DataValue

namespace ComputedValue

def toJson (v : ComputedValue) : Json :=
  .fields [("specification", v.specification.toJson), ("value", v.value.toJson)]

def ofDocument? (d : Document) : Option ComputedValue := do
  let fs ← d.fields? ["specification", "value"]
  let specification ← fs.required "specification" Specification.ofDocument?
  let value ← fs.required "value" DataValue.ofDocument?
  return ⟨specification, value⟩

end ComputedValue
end Valuation
