import Valuation.Encoding.Value
import Valuation.Definition

/-!
# Encoding view definitions

Everything but names, targets and requests may be left out of a definition that is read.
-/
namespace Valuation

namespace Instant

def toJson (t : Instant) : Json := .text t.zulu

def ofDocument? (d : Document) : Option Instant := d.text?.bind ofText?

end Instant

namespace RequestedValue

def toJson (r : RequestedValue) : Json :=
  .fields
    [("value_name", .text r.name),
      ("properties", Properties.toJson r.properties),
      ("target_kinds", match r.kinds with
        | none => .null
        | some kinds => .list (kinds.map TargetKind.toJson))]

def ofDocument? (d : Document) : Option RequestedValue := do
  let fs ← d.fields? ["value_name", "properties", "target_kinds"]
  let name ← fs.required "value_name" Document.text?
  let properties ← fs.withDefault "properties" ∅ Properties.ofDocument?
  let kinds ← fs.withDefault "target_kinds" none (Document.option? (Document.items? TargetKind.ofDocument?))
  return ⟨name, properties, kinds⟩

end RequestedValue

namespace ResultOptions

def toJson (o : ResultOptions) : Json :=
  .fields
    [("include_intermediates", .bool o.intermediates), ("include_market_data", .bool o.marketData)]

def ofDocument? (d : Document) : Option ResultOptions := do
  let fs ← d.fields? ["include_intermediates", "include_market_data"]
  let intermediates ← fs.withDefault "include_intermediates" false Document.bool?
  let marketData ← fs.withDefault "include_market_data" true Document.bool?
  return ⟨intermediates, marketData⟩

end ResultOptions

namespace ViewDefinition

def toJson (d : ViewDefinition) : Json :=
  .fields
    [("name", .text d.name),
      ("universe", .list (d.targets.map Target.toJson)),
      ("requested", .list (d.requested.map RequestedValue.toJson)),
      ("result_model", d.options.toJson)]

def ofDocument? (d : Document) : Option ViewDefinition := do
  let fs ← d.fields? ["name", "universe", "requested", "result_model"]
  let name ← fs.required "name" Document.text?
  let targets ← fs.required "universe" (Document.items? Target.ofDocument?)
  let requested ← fs.required "requested" (Document.items? RequestedValue.ofDocument?)
  let options ← fs.withDefault "result_model" {} ResultOptions.ofDocument?
  return ⟨name, targets, requested, options⟩

end ViewDefinition

namespace CycleOptions

def toJson (o : CycleOptions) : Json :=
  .fields [("valuation_time", o.valuationTime.toJson), ("input_data_time", o.inputDataTime.toJson)]

def ofDocument? (d : Document) : Option CycleOptions := do
  let fs ← d.fields? ["valuation_time", "input_data_time"]
  let valuationTime ← fs.required "valuation_time" Instant.ofDocument?
  let inputDataTime ← fs.required "input_data_time" Instant.ofDocument?
  return ⟨valuationTime, inputDataTime⟩

end CycleOptions
end Valuation
