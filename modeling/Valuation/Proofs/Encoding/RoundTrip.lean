import Valuation.Encoding.Config
import Valuation.Encoding.Definition
import Valuation.Proofs.Encoding.Records
import Valuation.Proofs.Table

/-!
# Definitions and configurations read back

The JSON text of a view definition or of a configuration decodes to the same again. Fields that have a default may be
left out, at every level: what is decoded then has the defaults in these fields, and is the same in all others
(`texts_readBack`). Properties are in order and counts fit 64 bits, as their types have them.
-/
namespace Valuation

open Document

/-- Some of the fields that have a default. -/
abbrev LeftOut (defaulted : List String) : Type := { leftOut : List String // leftOut ⊆ defaulted }

theorem LeftOut.notMem {defaulted : List String} (o : LeftOut defaulted) {name : String} (h : name ∉ defaulted) :
    name ∉ o.1 :=
  fun hmem => h (o.2 hmem)

/-- Nothing is left out. -/
def LeftOut.none {defaulted : List String} : LeftOut defaulted := ⟨[], List.nil_subset _⟩

/-! ## Parts of a definition -/

theorem TargetKind.ofDocument?_toJson (k : TargetKind) : ofDocument? k.toJson.toDocument = some k := by
  cases k <;> rfl

theorem Target.ofDocument?_toJson (t : Target) : ofDocument? t.toJson.toDocument = some t := by
  have hfields := fields?_without ["kind", "id"] t.toJson [] rfl rfl (by decide)
  rw [Json.without_nil] at hfields
  rw [ofDocument?, hfields]
  simp only [Option.bind_eq_bind, Option.bind_some]
  rw [Fields.required_without List.not_mem_nil rfl t.kind.ofDocument?_toJson]
  rw [Fields.required_without (x := t.id.text) List.not_mem_nil rfl rfl]
  rfl

/-- What a sorted table of properties is encoded to gives the table again. -/
theorem Properties.ofDocument?_toJson {p : Properties} (h : p.Sorted) : ofDocument? (toJson p).toDocument = some p := by
  have htable : Table.ofList p.toList = p := (Table.sorted_ofList _).ext h (Table.get?_ofList_toList h)
  have hentries : (p.toList.map fun e => (e.1, Json.toDocument (.text e.2))).mapM
      (fun f => (text? f.2).map fun v => (f.1, v)) = some p.toList :=
    mapM_map fun _ _ => rfl
  rw [toJson, ofDocument?, Json.toDocument, Json.fieldsToDocuments_eq, List.map_map, table?]
  exact (congrArg (Option.map Table.ofList) hentries).trans (congrArg some htable)

namespace RequestedValue

def defaulted : List String := ["properties", "target_kinds"]

/-- A requested value with defaults in some of its fields. -/
def defaulting (o : LeftOut defaulted) (r : RequestedValue) : RequestedValue :=
  { r with
    properties := if "properties" ∈ o.1 then ∅ else r.properties
    kinds := if "target_kinds" ∈ o.1 then none else r.kinds }

theorem kinds_ofDocument? (kinds : Option (List TargetKind)) :
    option? (items? TargetKind.ofDocument?) (Json.toDocument (match kinds with
      | none => .null
      | some kinds => .list (kinds.map TargetKind.toJson))) = some kinds := by
  cases kinds with
  | none => rfl
  | some kinds =>
    exact congrArg (Option.map some) (items?_toDocument fun k _ => k.ofDocument?_toJson)

theorem ofDocument?_without (r : RequestedValue) (h : r.properties.Sorted) (o : LeftOut defaulted) :
    ofDocument? (r.toJson.without o.1).toDocument = some (r.defaulting o) := by
  have hfields := fields?_without ["value_name", "properties", "target_kinds"] r.toJson o.1 rfl rfl (by decide)
  rw [ofDocument?, hfields]
  simp only [Option.bind_eq_bind, Option.bind_some]
  rw [Fields.required_without (x := r.name) (o.notMem (by decide)) rfl rfl]
  rw [Fields.withDefault_without ∅ rfl (Properties.ofDocument?_toJson h)]
  rw [Fields.withDefault_without none rfl (kinds_ofDocument? r.kinds)]
  rfl

end RequestedValue

namespace ResultOptions

def defaulted : List String := ["include_intermediates", "include_market_data"]

/-- Options with defaults in some of their fields. -/
def defaulting (o : LeftOut defaulted) (options : ResultOptions) : ResultOptions where
  intermediates := if "include_intermediates" ∈ o.1 then false else options.intermediates
  marketData := if "include_market_data" ∈ o.1 then true else options.marketData

theorem ofDocument?_without (options : ResultOptions) (o : LeftOut defaulted) :
    ofDocument? (options.toJson.without o.1).toDocument = some (options.defaulting o) := by
  have hfields :=
    fields?_without ["include_intermediates", "include_market_data"] options.toJson o.1 rfl rfl (by decide)
  rw [ofDocument?, hfields]
  simp only [Option.bind_eq_bind, Option.bind_some]
  rw [Fields.withDefault_without (x := options.intermediates) false rfl rfl]
  rw [Fields.withDefault_without (x := options.marketData) true rfl rfl]
  rfl

end ResultOptions

/-! ## Definitions -/

namespace ViewDefinition

/-- What is left out of the record of a definition: of the record itself, of the record of its options, and of the
record of each value that is requested. -/
structure Omissions where
  own : LeftOut ["result_model"]
  options : LeftOut ResultOptions.defaulted
  requested : Nat → LeftOut RequestedValue.defaulted

def Omissions.leave (o : Omissions) (j : Json) : Json :=
  ((j.inField "requested" (Json.eachItem fun i => Json.without (o.requested i).1)).inField "result_model"
    (Json.without o.options.1)).without o.own.1

/-- A definition with defaults in the fields that are left out. -/
def defaulting (o : Omissions) (d : ViewDefinition) : ViewDefinition :=
  { d with
    requested := d.requested.mapIdx fun i => RequestedValue.defaulting (o.requested i)
    options := if "result_model" ∈ o.own.1 then ⟨false, true⟩ else d.options.defaulting o.options }

/-- A definition is decoded from its record, with defaults in the fields that are left out. -/
theorem ofDocument?_leave {d : ViewDefinition} (h : ∀ r ∈ d.requested, r.properties.Sorted) (o : Omissions) :
    ofDocument? (o.leave d.toJson).toDocument = some (d.defaulting o) := by
  have hfields := fields?_without ["name", "universe", "requested", "result_model"]
    ((d.toJson.inField "requested" (Json.eachItem fun i => Json.without (o.requested i).1)).inField "result_model"
      (Json.without o.options.1)) o.own.1 rfl rfl (by decide)
  have hname : "name" ∉ o.own.1 := o.own.notMem (by decide)
  have huniverse : "universe" ∉ o.own.1 := o.own.notMem (by decide)
  have hrequested : "requested" ∉ o.own.1 := o.own.notMem (by decide)
  rw [Omissions.leave, ofDocument?, hfields]
  simp only [Option.bind_eq_bind, Option.bind_some]
  rw [Fields.required_without (x := d.name) hname rfl rfl]
  rw [Fields.required_without huniverse rfl (items?_toDocument fun t _ => t.ofDocument?_toJson)]
  rw [Fields.required_without hrequested rfl <|
    items?_eachItem fun i r hr => r.ofDocument?_without (h r hr) (o.requested i)]
  rw [Fields.withDefault_without {} rfl (d.options.ofDocument?_without o.options)]
  rfl

end ViewDefinition

/-! ## Configurations -/

theorem word?_toDocument {n : Nat} (h : n < 2 ^ 64) : word? (Json.toDocument (.int n)) = some n := by
  have hfits : (0 : Int) ≤ n ∧ (n : Int) < (Nat.pow 2 64 : Nat) := ⟨Int.natCast_nonneg n, Int.ofNat_lt.2 h⟩
  rw [Json.toDocument, word?, nat?, if_pos hfits, Int.toNat_natCast]

theorem PermissionPolicy.ofDocument?_toJson (p : PermissionPolicy) : ofDocument? p.toJson.toDocument = some p := by
  cases p <;> rfl

namespace Strategy

def defaulted : List String := ["workers", "calc_nodes"]

/-- A strategy with the default in its count, if that is left out. -/
def defaulting (o : LeftOut defaulted) : Strategy → Strategy
  | singleThreaded => singleThreaded
  | nodeParallel workers => nodeParallel (if "workers" ∈ o.1 then 4 else workers)
  | jobDispatch calcNodes => jobDispatch (if "calc_nodes" ∈ o.1 then 4 else calcNodes)

/-- A strategy is decoded by its name, from the fields beside the name. -/
theorem ofDocument?_named {name : String} {rest : List (String × Json)} (hrest : ∀ f ∈ rest, f.1 ≠ "strategy") :
    ofDocument? (Json.toDocument (.record (("strategy", .text name) :: rest))) =
      ofNamed? name (Json.toDocument (.record rest)) := by
  have hothers : ∀ f ∈ Json.fieldsToDocuments rest, f.1 ≠ "strategy" := by
    intro f hf
    rw [Json.fieldsToDocuments_eq] at hf
    obtain ⟨e, he, rfl⟩ := List.mem_map.1 hf
    exact hrest e he
  have hnamed : (Json.fieldsToDocuments rest).filter (fun f => f.1 = "strategy") = [] :=
    List.filter_eq_nil_iff.2 fun f hf => by simpa using hothers f hf
  have hleft : (Json.fieldsToDocuments rest).filter (fun f => f.1 ≠ "strategy") = Json.fieldsToDocuments rest :=
    List.filter_eq_self.2 fun f hf => by simpa using hothers f hf
  have hvalid := Json.isSome_toJson? (.record (("strategy", .text name) :: rest))
  unfold ofDocument?
  rw [isValid, hvalid]
  simp only [Json.toDocument, Json.fieldsToDocuments, List.filter_cons, hnamed, hleft]
  rfl

theorem ofDocument?_tagged {name : String} {rest : List (String × Json)} {leftOut : List String}
    (hname : "strategy" ∉ leftOut) (hrest : ∀ f ∈ rest, f.1 ≠ "strategy") :
    ofDocument? ((Json.record (("strategy", .text name) :: rest)).without leftOut).toDocument =
      ofNamed? name ((Json.record rest).without leftOut).toDocument := by
  rw [Json.without, List.filter_cons, if_pos (decide_eq_true hname)]
  exact ofDocument?_named fun f hf => hrest f (List.mem_filter.1 hf).1

/-- The count of a strategy is decoded from a field, or is the default when that is left out. -/
theorem ofCount {field : String} {count : Nat} (h : count < 2 ^ 64) (leftOut : List String) (make : Nat → Strategy) :
    (do
      let fs ← ((Json.record [(field, .int count)]).without leftOut).toDocument.fields? [field]
      return make (← fs.withDefault field defaultWorkers word?)) =
      some (make (if field ∈ leftOut then 4 else count)) := by
  have hfield : [(field, Json.int count)].lookup field = some (.int count) := List.lookup_cons_self
  have hfields := fields?_without [field] (.record [(field, .int count)]) leftOut rfl rfl (List.nodup_singleton field)
  rw [hfields]
  simp only [Option.bind_eq_bind, Option.bind_some]
  rw [Fields.withDefault_without defaultWorkers hfield (word?_toDocument h)]
  rfl

theorem ofDocument?_without {s : Strategy} (h : s.workers < 2 ^ 64) (o : LeftOut defaulted) :
    ofDocument? (s.toJson.without o.1).toDocument = some (s.defaulting o) := by
  have hname : "strategy" ∉ o.1 := o.notMem (by decide)
  cases s with
  | singleThreaded =>
    rw [toJson, ofDocument?_tagged hname (by decide)]
    rfl
  | nodeParallel workers =>
    rw [toJson, ofDocument?_tagged hname (by simp)]
    exact ofCount h o.1 nodeParallel
  | jobDispatch calcNodes =>
    rw [toJson, ofDocument?_tagged hname (by simp)]
    exact ofCount h o.1 jobDispatch

end Strategy

namespace EngineConfig

def defaulted : List String :=
  ["name", "executor", "cycle_retention", "graph_cache_size", "permission", "cycle_notice_capacity"]

/-- What is left out of the record of a configuration: of the record itself, and of the record of its strategy. -/
structure Omissions where
  own : LeftOut defaulted
  executor : LeftOut Strategy.defaulted

def Omissions.leave (o : Omissions) (j : Json) : Json :=
  (j.inField "executor" (Json.without o.executor.1)).without o.own.1

/-- A configuration with defaults in the fields that are left out. -/
def defaulting (o : Omissions) (c : EngineConfig) : EngineConfig where
  name := if "name" ∈ o.own.1 then "lattice" else c.name
  executor := if "executor" ∈ o.own.1 then .nodeParallel 4 else c.executor.defaulting o.executor
  cycleRetention := if "cycle_retention" ∈ o.own.1 then 5 else c.cycleRetention
  graphCacheSize := if "graph_cache_size" ∈ o.own.1 then 16 else c.graphCacheSize
  permission := if "permission" ∈ o.own.1 then .permissive else c.permission
  cycleNoticeCapacity := if "cycle_notice_capacity" ∈ o.own.1 then 64 else c.cycleNoticeCapacity

/-- Every count fits a machine word. -/
structure Fits (c : EngineConfig) : Prop where
  executor : c.executor.workers < 2 ^ 64
  cycleRetention : c.cycleRetention < 2 ^ 64
  graphCacheSize : c.graphCacheSize < 2 ^ 64
  cycleNoticeCapacity : c.cycleNoticeCapacity < 2 ^ 64

/-- A configuration is decoded from its record, with defaults in the fields that are left out. -/
theorem ofDocument?_leave {c : EngineConfig} (h : c.Fits) (o : Omissions) :
    ofDocument? (o.leave c.toJson).toDocument = some (c.defaulting o) := by
  have hfields := fields?_without defaulted (c.toJson.inField "executor" (Json.without o.executor.1)) o.own.1 rfl rfl
    (by decide)
  unfold defaulted at hfields
  rw [Omissions.leave, ofDocument?, hfields]
  simp only [Option.bind_eq_bind, Option.bind_some]
  rw [Fields.withDefault_without (x := c.name) "lattice" rfl rfl]
  rw [Fields.withDefault_without (.nodeParallel 4) rfl (Strategy.ofDocument?_without h.executor o.executor)]
  rw [Fields.withDefault_without 5 rfl (word?_toDocument h.cycleRetention)]
  rw [Fields.withDefault_without 16 rfl (word?_toDocument h.graphCacheSize)]
  rw [Fields.withDefault_without .permissive rfl c.permission.ofDocument?_toJson]
  rw [Fields.withDefault_without 64 rfl (word?_toDocument h.cycleNoticeCapacity)]
  rfl

end EngineConfig

/-! ## Texts -/

section
variable {depth : Nat}

theorem Target.readable (t : Target) (room : depth < Json.Reader.maxDepth) : Json.Readable depth t.toJson :=
  .field (.text _) <| .field (.text _) <| .noFields room

theorem Properties.readable (p : Properties) (room : depth < Json.Reader.maxDepth) :
    Json.Readable depth (toJson p) := by
  refine .record room fun f hf => ?_
  obtain ⟨e, -, rfl⟩ := List.mem_map.1 hf
  exact .text _

theorem RequestedValue.readable (r : RequestedValue) (room : depth + 1 < Json.Reader.maxDepth) :
    Json.Readable depth r.toJson := by
  refine .field (.text _) <| .field (Properties.readable _ room) <| .field ?_ <| .noFields (Nat.lt_of_succ_lt room)
  split
  · exact .null
  · exact .each room fun _ => .text _

theorem ResultOptions.readable (options : ResultOptions) (room : depth < Json.Reader.maxDepth) :
    Json.Readable depth options.toJson :=
  .field (.bool _) <| .field (.bool _) <| .noFields room

theorem ViewDefinition.readable (d : ViewDefinition) : Json.Readable 0 d.toJson := by
  have htargets : Json.Readable 1 (.list (d.targets.map Target.toJson)) :=
    .each (by decide) fun t => t.readable (by decide)
  have hrequested : Json.Readable 1 (.list (d.requested.map RequestedValue.toJson)) :=
    .each (by decide) fun r => r.readable (by decide)
  have hoptions : Json.Readable 1 d.options.toJson := d.options.readable (by decide)
  exact .field (.text _) <| .field htargets <| .field hrequested <| .field hoptions <| .noFields (by decide)

theorem ViewDefinition.keepsReadable_leave (o : Omissions) : Json.KeepsReadable o.leave := by
  intro depth j h
  have hitems := Json.keepsReadable_eachItem fun i => Json.keepsReadable_without (o.requested i).1
  have hrequested := hitems.inField "requested"
  have hoptions := (Json.keepsReadable_without o.options.1).inField "result_model"
  exact Json.keepsReadable_without _ _ _ (hoptions _ _ (hrequested _ _ h))

theorem Strategy.readable {s : Strategy} (h : s.workers < 2 ^ 64) (room : depth < Json.Reader.maxDepth) :
    Json.Readable depth s.toJson := by
  cases s with
  | singleThreaded => exact .field (.text _) <| .noFields room
  | nodeParallel workers => exact .field (.text _) <| .field (.int h) <| .noFields room
  | jobDispatch calcNodes => exact .field (.text _) <| .field (.int h) <| .noFields room

theorem EngineConfig.readable {c : EngineConfig} (h : c.Fits) : Json.Readable 0 c.toJson :=
  .field (.text _) <| .field (Strategy.readable h.executor (by decide)) <| .field (.int h.cycleRetention) <|
    .field (.int h.graphCacheSize) <| .field (.text _) <| .field (.int h.cycleNoticeCapacity) <|
    .noFields (by decide)

theorem EngineConfig.keepsReadable_leave (o : Omissions) : Json.KeepsReadable o.leave := by
  intro depth j h
  have hexecutor := (Json.keepsReadable_without o.executor.1).inField "executor"
  exact Json.keepsReadable_without _ _ _ (hexecutor _ _ h)

end

/-! ## Nothing left out -/

namespace ViewDefinition

def Omissions.none : Omissions := ⟨.none, .none, fun _ => .none⟩

theorem Omissions.leave_none (j : Json) : none.leave j = j := by
  have hrequested := Json.inField_eq_self (Json.eachItem_eq_self fun _ => Json.without_nil) "requested" j
  have hoptions := Json.inField_eq_self Json.without_nil "result_model" j
  exact (congrArg (fun j => (Json.inField "result_model" (Json.without []) j).without []) hrequested).trans
    ((Json.without_nil _).trans hoptions)

theorem defaulting_none (d : ViewDefinition) : d.defaulting .none = d := by
  have hrequested : (d.requested.mapIdx fun _ => RequestedValue.defaulting .none) = d.requested :=
    Json.mapIdx_eq_self (fun _ _ => rfl) _
  exact congrArg (fun requested => { d with requested := requested }) hrequested

/-- The text of a definition is decoded, with defaults in the fields that are left out. -/
theorem readBack_leave {d : ViewDefinition} (h : ∀ r ∈ d.requested, r.properties.Sorted) (o : Omissions) :
    (ofJsonText? (o.leave d.toJson).render).bind ofDocument? = some (d.defaulting o) := by
  have hreadable := keepsReadable_leave o 0 d.toJson d.readable
  rw [Json.ofJsonText?_render hreadable, Option.bind_some, ofDocument?_leave h]

theorem readBack {d : ViewDefinition} (h : ∀ r ∈ d.requested, r.properties.Sorted) :
    (ofJsonText? d.toJson.render).bind ofDocument? = some d := by
  have hall := readBack_leave h .none
  rwa [Omissions.leave_none, defaulting_none] at hall

end ViewDefinition

namespace EngineConfig

def Omissions.none : Omissions := ⟨.none, .none⟩

theorem Omissions.leave_none (j : Json) : none.leave j = j :=
  (Json.without_nil _).trans (Json.inField_eq_self Json.without_nil "executor" j)

theorem defaulting_none (c : EngineConfig) : c.defaulting .none = c := by
  obtain ⟨name, executor, cycleRetention, graphCacheSize, permission, cycleNoticeCapacity⟩ := c
  cases executor <;> rfl

/-- The text of a configuration is decoded, with defaults in the fields that are left out. -/
theorem readBack_leave {c : EngineConfig} (h : c.Fits) (o : Omissions) :
    (ofJsonText? (o.leave c.toJson).render).bind ofDocument? = some (c.defaulting o) := by
  have hreadable := keepsReadable_leave o 0 c.toJson (readable h)
  rw [Json.ofJsonText?_render hreadable, Option.bind_some, ofDocument?_leave h]

theorem readBack {c : EngineConfig} (h : c.Fits) : (ofJsonText? c.toJson.render).bind ofDocument? = some c := by
  have hall := readBack_leave h .none
  rwa [Omissions.leave_none, defaulting_none] at hall

end EngineConfig

/-- The JSON text of a definition or of a configuration decodes to the same again. If any fields that have a default
are left out, at any level, it decodes to the same with the defaults in exactly these fields. -/
theorem texts_readBack {d : ViewDefinition} (hd : ∀ r ∈ d.requested, r.properties.Sorted) {c : EngineConfig}
    (hc : c.Fits) (o : ViewDefinition.Omissions) (p : EngineConfig.Omissions) :
    (ofJsonText? d.toJson.render).bind ViewDefinition.ofDocument? = some d ∧
      (ofJsonText? (o.leave d.toJson).render).bind ViewDefinition.ofDocument? = some (d.defaulting o) ∧
      (ofJsonText? c.toJson.render).bind EngineConfig.ofDocument? = some c ∧
      (ofJsonText? (p.leave c.toJson).render).bind EngineConfig.ofDocument? = some (c.defaulting p) :=
  ⟨ViewDefinition.readBack hd, ViewDefinition.readBack_leave hd o, EngineConfig.readBack hc,
    EngineConfig.readBack_leave hc p⟩

/-- A definition with quotes, a backslash, control characters and letters beyond ASCII in its texts. -/
def demoTexts : ViewDefinition where
  name := "\"é\\\n\x01\""
  targets := [⟨.position, ⟨"\t漢"⟩⟩]
  requested := [⟨"PV", Table.ofList [("ccy", "\"EUR\""), ("", "\x1f")], some [.position, .security]⟩, ⟨"", ∅, some []⟩]
  options := ⟨true, false⟩

/-- The properties of the first value and one option are left out. -/
def demoOmissions : ViewDefinition.Omissions where
  own := .none
  options := ⟨["include_market_data"], by decide⟩
  requested i := if i = 0 then ⟨["properties"], by decide⟩ else .none

def demoCounts : EngineConfig where
  name := "\\"
  executor := .jobDispatch (2 ^ 64 - 1)
  permission := .entitlement

theorem demo_readBack :
    (ofJsonText? demoTexts.toJson.render).bind ViewDefinition.ofDocument? = some demoTexts ∧
      (ofJsonText? (demoOmissions.leave demoTexts.toJson).render).bind ViewDefinition.ofDocument? =
        some { demoTexts with
          requested := [⟨"PV", ∅, some [.position, .security]⟩, ⟨"", ∅, some []⟩], options := ⟨true, true⟩ } ∧
      (ofJsonText? demoCounts.toJson.render).bind EngineConfig.ofDocument? = some demoCounts ∧
      (ofJsonText? (EngineConfig.Omissions.leave ⟨⟨["name"], by decide⟩, ⟨["calc_nodes"], by decide⟩⟩
        demoCounts.toJson).render).bind EngineConfig.ofDocument? =
        some { executor := .jobDispatch 4, permission := .entitlement } := by
  have hsorted : ∀ r ∈ demoTexts.requested, r.properties.Sorted := by
    intro r hr
    obtain rfl | rfl := by simpa [demoTexts] using hr
    · exact Table.sorted_ofList _
    · exact Table.sorted_empty
  have hfits : demoCounts.Fits := ⟨by decide, by decide, by decide, by decide⟩
  exact texts_readBack hsorted hfits demoOmissions ⟨⟨["name"], by decide⟩, ⟨["calc_nodes"], by decide⟩⟩

end Valuation
