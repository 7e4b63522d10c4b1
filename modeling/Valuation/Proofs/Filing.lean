import Mathlib.Data.Finset.Card
import Mathlib.Data.Finset.Dedup
import Valuation.Encoding.Execution
import Valuation.Proofs.Demo
import Valuation.Proofs.Execution.Failures
import Valuation.Proofs.Naming
import Valuation.Proofs.ResultModel

/-!
# What a model keeps of the values it files

Values that are filed under one key give way to each other: an entry holds the last of them (`get?_build`), and
a model holds as many values as there are keys on targets (`size_eq_card`). Where the names of the values can be
taken apart, that is each published value once. The same goes for the failures in the summary of a model
(`ResultModel.files_build`). Where they cannot, values and failures are lost (`Executor.filed_under_one_key`).
-/
namespace Valuation

/-- The value of a field. -/
def Json.field? (name : String) : Json → Option Json
  | .record fields => Table.find name fields
  | _ => none

namespace ResultModel

/-! ## Entries -/

/-- The targets and keys under which a model holds values. -/
def places (m : ResultModel) : List (Target × String) :=
  m.values.toList.flatMap fun e => e.2.keys.map fun key => (e.1, key)

section
variable {m : ResultModel}

theorem length_places (m : ResultModel) : m.places.length = m.size := by
  simp [places, size, allValues, Table.values, Table.keys, Table.toList, List.length_flatMap, List.flatMap_map]

theorem Listed.nodup_places (h : m.Listed) : m.places.Nodup := by
  have hkeys : m.values.toList.Pairwise fun e f => e.1 ≠ f.1 := List.pairwise_map.1 h.1.nodup_keys
  refine List.nodup_flatMap.2 ⟨fun e he => ?_, hkeys.imp fun {e f} hne p he hf => ?_⟩
  · exact (h.2 e he).nodup_keys.map fun k l hkl => (Prod.ext_iff.1 hkl).2
  · obtain ⟨k, -, rfl⟩ := List.mem_map.1 he
    obtain ⟨l, -, hl⟩ := List.mem_map.1 hf
    exact hne (Prod.ext_iff.1 hl).1.symm

theorem Listed.mem_places (h : m.Listed) (t : Target) (key : String) :
    (t, key) ∈ m.places ↔ (m.get? t key).isSome := by
  have hkey : ∀ e ∈ m.values.toList, (e.2.get? key).isSome ↔ key ∈ e.2.keys := fun e _ => Table.contains_iff ..
  simp only [places, List.mem_flatMap, List.mem_map, Prod.mk.injEq]
  unfold get? valuesFor?
  constructor
  · rintro ⟨⟨u, onTarget⟩, he, k, hk, rfl, rfl⟩
    rw [(Table.mem_toList_iff h.1).1 he, Option.bind_some]
    exact (hkey _ he).2 hk
  · intro hsome
    obtain ⟨v, hv⟩ := Option.isSome_iff_exists.1 hsome
    obtain ⟨onTarget, ht, hv⟩ := Option.bind_eq_some_iff.1 hv
    have he := (Table.mem_toList_iff h.1).2 ht
    exact ⟨(t, onTarget), he, key, (hkey _ he).1 (Option.isSome_iff_exists.2 ⟨v, hv⟩), rfl, rfl⟩

end

/-! ## Models of runs -/

section
variable (cycle : CycleId) (time : Instant) (g : Graph) (c : ComputationCache)
  (failures : Table Specification FailureReason) (options : ResultOptions)

theorem get?_build (t : Target) (key : String) : (build cycle time g c failures options).get? t key =
    ((published g options c).filter fun v => placeOf v = (t, key)).getLast? :=
  (get?_foldl_insert ..).trans Option.or_none

/-- A model holds as many values as there are places to file them. -/
theorem size_eq_card : (build cycle time g c failures options).size =
    ((published g options c).map placeOf).toFinset.card := by
  have hlisted := listed_build cycle time g c failures options
  rw [← length_places, ← List.toFinset_card_of_nodup hlisted.nodup_places]
  refine congrArg Finset.card (Finset.ext fun ⟨t, key⟩ => ?_)
  rw [List.mem_toFinset, List.mem_toFinset, hlisted.mem_places, get?_build, List.getLast?_isSome]
  simp [List.filter_eq_nil_iff]

/-- What is published of one specification is one value. -/
theorem eq_of_mem_published {v w : ComputedValue} (hv : v ∈ published g options c) (hw : w ∈ published g options c)
    (h : v.specification = w.specification) : v = w := by
  have hvalue := ((mem_published v).1 hv).2.symm.trans (h ▸ ((mem_published w).1 hw).2)
  cases v
  cases w
  simp_all

end

/-! ## Summaries -/

/-- The failures of a model by the text of what failed, as its summary shows them. -/
def failureTexts (m : ResultModel) : List (String × Json) :=
  (Table.ofList (m.failures.toList.map fun e => (e.1.display, Json.text e.2.message))).toList

theorem field?_failures (m : ResultModel) : m.toJson.field? "failures" = some (.record m.failureTexts) := rfl

theorem nodup_failureTexts (m : ResultModel) : (m.failureTexts.map (·.1)).Nodup :=
  (Table.sorted_ofList _).nodup_keys

theorem mem_failureTexts (m : ResultModel) (text : String) :
    text ∈ m.failureTexts.map (·.1) ↔ ∃ s, m.failures.contains s = true ∧ s.display = text := by
  refine (Table.contains_iff _ text).symm.trans ((Table.contains_insertAll ..).trans ?_)
  simp only [Table.contains_iff, Table.keys, Table.toList, List.map_map, List.mem_map, Function.comp,
    exists_exists_and_eq_and]
  exact or_iff_right (by simp [show (∅ : Table String Json).entries = [] from rfl])

/-! ## What is kept -/

/-- What a model and its summary keep of some values and of the failures of a run. -/
structure Files (m : ResultModel) (vs : List ComputedValue) : Prop where
  last : ∀ t key, m.get? t key = (vs.filter fun v => placeOf v = (t, key)).getLast?
  size : m.size = (vs.map placeOf).toFinset.card
  failures_ascending : m.failures.Sorted
  failure_texts : ∃ texts, m.toJson.field? "failures" = some (.record texts) ∧ (texts.map (·.1)).Nodup ∧
    ∀ text, text ∈ texts.map (·.1) ↔ ∃ s, m.failures.contains s = true ∧ s.display = text
  own_entry : (∀ v ∈ vs, v.specification.PlainKey) →
    (∀ v ∈ vs, m.get? v.specification.target (resultKey v.specification) = some v) ∧
      m.size = (vs.map (·.specification)).toFinset.card
  own_text : (∀ s, m.failures.contains s = true → s.PlainText) →
    ∃ texts, m.toJson.field? "failures" = some (.record texts) ∧
      texts.Perm (m.failures.toList.map fun e => (e.1.display, .text e.2.message))

section
variable (cycle : CycleId) (time : Instant) (g : Graph) (c : ComputationCache)
  {failures : Table Specification FailureReason} (options : ResultOptions)

theorem own_entry_build (hplain : ∀ v ∈ published g options c, v.specification.PlainKey) :
    (∀ v ∈ published g options c, (build cycle time g c failures options).get? v.specification.target
        (resultKey v.specification) = some v) ∧
      (build cycle time g c failures options).size =
        ((published g options c).map (·.specification)).toFinset.card := by
  have hsame : ∀ v ∈ published g options c, ∀ w ∈ published g options c, placeOf v = placeOf w →
      v.specification = w.specification := fun v hv w hw h =>
    Specification.eq_of_resultKey_eq (hplain v hv) (hplain w hw) (Prod.ext_iff.1 h).1 (Prod.ext_iff.1 h).2
  refine ⟨fun v hv => ?_, ?_⟩
  · rw [get?_build]
    have hne : (published g options c).filter (fun w => placeOf w =
        (v.specification.target, resultKey v.specification)) ≠ [] :=
      List.ne_nil_of_mem (List.mem_filter.2 ⟨hv, decide_eq_true rfl⟩)
    rw [List.getLast?_eq_some_getLast hne]
    obtain ⟨hw, hplace⟩ := List.mem_filter.1 (List.getLast_mem hne)
    exact congrArg some (eq_of_mem_published g c options hw hv (hsame _ hw v hv (of_decide_eq_true hplace)))
  · -- Specifications and places are counted alike: what is at one place is one specification.
    rw [size_eq_card]
    let place (s : Specification) : Target × String := (s.target, resultKey s)
    have himage : (((published g options c).map (·.specification)).toFinset.image place) =
        ((published g options c).map placeOf).toFinset := by
      ext p
      simp [place, placeOf]
    rw [← himage]
    refine Finset.card_image_of_injOn fun s hs t ht hst => ?_
    simp only [Finset.mem_coe, List.mem_toFinset, List.mem_map] at hs ht
    obtain ⟨v, hv, rfl⟩ := hs
    obtain ⟨w, hw, rfl⟩ := ht
    exact hsame v hv w hw hst

theorem files_build (hfailures : failures.Sorted) :
    (build cycle time g c failures options).Files (published g options c) := by
  have hsorted : (build cycle time g c failures options).failures.Sorted := by rwa [build_failures]
  refine ⟨fun t key => get?_build .., size_eq_card .., hsorted, ?_, own_entry_build cycle time g c options,
    fun hplain => ?_⟩
  · exact ⟨_, field?_failures _, nodup_failureTexts _, mem_failureTexts _⟩
  · have hfails : ∀ f ∈ (build cycle time g c failures options).failures.toList, f.1.PlainText := fun f hf =>
      hplain _ ((Table.contains_iff ..).2 (List.mem_map_of_mem hf))
    refine ⟨_, field?_failures _, Table.toList_ofList_perm ?_⟩
    rw [List.map_map]
    refine List.pairwise_map.2 ((List.pairwise_map.1 hsorted.nodup_keys).imp_of_mem ?_)
    exact fun he hf hne heq => hne (Specification.eq_of_display_eq (hfails _ he) (hfails _ hf) heq)

end

end ResultModel

/-! ## Two specifications of one name -/

namespace Demo

/-- A value of the first position. -/
def valueOf (properties : Properties) : Specification := ⟨position 1, "V", properties⟩

/-- Two values with different properties, none of which contains a mark. -/
def namesakes : Specification × Specification :=
  (valueOf (.ofList [("a", "1")]), valueOf (.ofList [("a", "1"), ("b", "2")]))

/-- A value with one property, whose text contains the marks, and a value with the two properties that it looks
like. -/
def lookalikes : Specification × Specification :=
  (⟨position 1, "V", .ofList [("a", "1,b=2")]⟩, ⟨position 1, "V", .ofList [("a", "1"), ("b", "2")]⟩)

/-- A function without requirements, all of whose values come out alike. -/
def constant (result : Except Fault DataValue) : CalculationFunction :=
  { id := "constant"
    targetKinds := [.position]
    valueNames := ["V"]
    execute := fun _ _ outputs => CalculationFunction.oneByOne (fun _ => { result }) outputs }

/-- A view of two values. -/
def pairView (name : String) (pair : Specification × Specification) : ViewDefinition :=
  { name
    targets := [position 1]
    requested := [{ name := "V", properties := pair.1.properties }, { name := "V", properties := pair.2.properties }] }

/-- One call for both values. -/
def pairGraph (name : String) (pair : Specification × Specification) (result : Except Fault DataValue) : Graph :=
  { name
    nodes := [⟨0, position 1, .function (constant result), [], [pair.1, pair.2]⟩]
    edges := []
    dependencies := [[]]
    dependents := [[]]
    order := [0]
    terminals := [pair.1, pair.2] }

/-- A view of the values that look alike. -/
def lookalikeView : ViewDefinition := pairView "lookalikes" lookalikes

def lookalikeGraph (result : Except Fault DataValue) : Graph := pairGraph "lookalikes" lookalikes result

/-- The two values share a call if they differ at all. -/
theorem compile_pairView (name : String) {p q : Properties} (h : p ≠ q) (result : Except Fault DataValue)
    (a : Availability) : Graph.compile { functions := [constant result] } a (pairView name (valueOf p, valueOf q)) =
      .ok (pairGraph name (valueOf p, valueOf q) result) := by
  have hne : valueOf q ≠ valueOf p := fun heq => h (Specification.mk.inj heq).2.2.symm
  have hterminals : (pairView name (valueOf p, valueOf q)).terminals = [valueOf p, valueOf q] := by
    change distinct [valueOf p, valueOf q] = _
    simp [distinct, hne]
  have hfirst : Graph.resolveLogged { functions := [constant result] } a [] [] (valueOf p) [] = some
      (.ok [⟨0, position 1, .function (constant result), [], [valueOf p]⟩], [⟨valueOf p, []⟩]) := by
    rw [Graph.resolveLogged]
    rfl
  have hsecond : Graph.resolveLogged { functions := [constant result] } a []
      [⟨0, position 1, .function (constant result), [], [valueOf p]⟩] (valueOf q) [⟨valueOf p, []⟩] =
      some (.ok (pairGraph name (valueOf p, valueOf q) result).nodes, [⟨valueOf p, []⟩, ⟨valueOf q, []⟩]) := by
    have hproducer : producer? [⟨0, position 1, .function (constant result), [], [valueOf p]⟩] (valueOf q) = none := by
      simp [producer?, hne]
    have hcall : Graph.addCall [⟨0, position 1, .function (constant result), [], [valueOf p]⟩] (constant result)
        (valueOf q) [] = (pairGraph name (valueOf p, valueOf q) result).nodes := by
      change [_] = [_]
      simp [Graph.union, valueOf, h.symm]
    rw [Graph.resolveLogged, hproducer, ← hcall]
    rfl
  have hdeps : (pairGraph name (valueOf p, valueOf q) result).nodes.mapM
    (Graph.producers (pairGraph name (valueOf p, valueOf q) result).nodes) = .ok [[]] := rfl
  unfold Graph.compile Graph.resolveAll
  rw [hterminals, Graph.resolveAllLogged_cons hfirst, Graph.resolveAllLogged_cons hsecond]
  exact Graph.ofNodes_of_order hdeps topologicalOrder_alone

/-- If the call fails, both values have failed for the same reason. -/
theorem failures_pairGraph (name : String) (pair : Specification × Specification) :
    (Executor.singleThreaded.run (pairGraph name pair (.error (.panic none))) (Snapshot.new default) {}).failures =
      .ofList [(pair.1, .functionError "constant panicked: unknown panic"),
        (pair.2, .functionError "constant panicked: unknown panic")] := by
  have hdownstream : (pairGraph name pair (.error (.panic none))).downstream 0 = [] := by
    simp [Graph.downstream, Search.breadthFirst, Graph.dependentsOf, pairGraph]
  change Run.failures (List.foldl (Run.failDependent pair.1) _
    ((pairGraph name pair (.error (.panic none))).downstream 0)) = _
  rw [hdownstream]
  rfl

end Demo

namespace Executor

/-- Names without the marks that stand between names and properties tell values apart. The model of a run, under
every strategy and every interleaving, holds the last published value of each name on each target, and the summary of
it one failure for each text of what failed. Where names can be taken apart, that is every published value and every
failure. -/
theorem model_files (e : Executor) (x : Interleaving) (g : Graph) (s : Snapshot) (c : Control) (cycle : CycleId)
    (time : Instant) (options : ResultOptions) :
    (∀ t u : Specification, t.PlainKey → u.PlainKey → t.target = u.target →
      ResultModel.resultKey t = ResultModel.resultKey u → t = u) ∧
    (∀ t u : Specification, t.PlainText → u.PlainText → t.display = u.display → t = u) ∧
    (ResultModel.build cycle time g (e.runUnder x g s c).cache (e.runUnder x g s c).failures options).Files
      (ResultModel.published g options (e.runUnder x g s c).cache) :=
  ⟨fun _ _ => Specification.eq_of_resultKey_eq, fun _ _ => Specification.eq_of_display_eq,
    ResultModel.files_build cycle time g _ options (sorted_failures e x g s c)⟩

theorem published_namesakes :
    let g := Demo.pairGraph "namesakes" Demo.namesakes (.ok (.text "done"))
    ResultModel.published g {} (jobDispatch.runUnder Demo.outOfOrder g (Snapshot.new default) {}).cache =
      [⟨Demo.namesakes.1, .text "done"⟩, ⟨Demo.namesakes.2, .text "done"⟩] :=
  rfl

/-- Two values of one name and their failures can be taken apart by their properties. If they are computed, the model
holds both; if they fail, the summary shows both failures. -/
theorem demo_model_files :
    Demo.namesakes.1.target = Demo.namesakes.2.target ∧ Demo.namesakes.1.PlainKey ∧ Demo.namesakes.2.PlainKey ∧
    Demo.namesakes.1.PlainText ∧ Demo.namesakes.2.PlainText ∧
    (∀ result, (GraphCompiler.ofRepository { functions := [Demo.constant result] } 1).compileUncached
      (Demo.pairView "namesakes" Demo.namesakes) Demo.everything =
        .ok (Demo.pairGraph "namesakes" Demo.namesakes result)) ∧
    (let g := Demo.pairGraph "namesakes" Demo.namesakes (.ok (.text "done"))
     let o := jobDispatch.runUnder Demo.outOfOrder g (Snapshot.new default) {}
     let m := ResultModel.build default default g o.cache o.failures {}
     m.size = 2 ∧
      m.get? (Demo.position 1) (ResultModel.resultKey Demo.namesakes.1) = some ⟨Demo.namesakes.1, .text "done"⟩ ∧
      m.get? (Demo.position 1) (ResultModel.resultKey Demo.namesakes.2) = some ⟨Demo.namesakes.2, .text "done"⟩) ∧
    (let g := Demo.pairGraph "namesakes" Demo.namesakes (.error (.panic none))
     let o := singleThreaded.runUnder {} g (Snapshot.new default) {}
     ∃ texts, (ResultModel.build default default g o.cache o.failures {}).toJson.field? "failures" =
      some (.record texts) ∧ texts.length = 2) := by
  have hcompile : ∀ result, (GraphCompiler.ofRepository { functions := [Demo.constant result] } 1).compileUncached
      (Demo.pairView "namesakes" Demo.namesakes) Demo.everything =
        .ok (Demo.pairGraph "namesakes" Demo.namesakes result) := fun result =>
    Demo.compile_pairView "namesakes" (by decide) result Demo.everything
  refine ⟨rfl, by decide, by decide, by decide, by decide, hcompile, ?_, ?_⟩
  · intro g o m
    obtain ⟨-, -, hfiles⟩ := model_files .jobDispatch Demo.outOfOrder g (Snapshot.new default) {} default default {}
    rw [published_namesakes] at hfiles
    obtain ⟨hentry, hsize⟩ := hfiles.own_entry (by decide)
    exact ⟨hsize.trans (by decide), hentry ⟨Demo.namesakes.1, .text "done"⟩ (by simp),
      hentry ⟨Demo.namesakes.2, .text "done"⟩ (by simp)⟩
  · intro g o
    obtain ⟨-, -, hfiles⟩ := model_files .singleThreaded {} g (Snapshot.new default) {} default default {}
    have hfailures : o.failures = .ofList [(Demo.namesakes.1, .functionError "constant panicked: unknown panic"),
      (Demo.namesakes.2, .functionError "constant panicked: unknown panic")] := Demo.failures_pairGraph ..
    have hplain : ∀ s, (ResultModel.build default default g o.cache o.failures {}).failures.contains s = true →
        s.PlainText := by
      rw [ResultModel.build_failures, hfailures]
      intro s hs
      rw [Table.contains_iff] at hs
      revert s
      decide
    obtain ⟨texts, htexts, hperm⟩ := hfiles.own_text hplain
    refine ⟨texts, htexts, hperm.length_eq.trans ?_⟩
    rw [ResultModel.build_failures, hfailures]
    decide

/-- Two specifications on one target are filed under one key and shown as one text. If both are computed, the model
holds one of two published values; if both fail, the summary shows one of two failures. -/
theorem filed_under_one_key :
    Demo.lookalikes.1 ≠ Demo.lookalikes.2 ∧ Demo.lookalikes.1.target = Demo.lookalikes.2.target ∧
    ResultModel.resultKey Demo.lookalikes.1 = ResultModel.resultKey Demo.lookalikes.2 ∧
    Demo.lookalikes.1.display = Demo.lookalikes.2.display ∧
    (∀ result, (GraphCompiler.ofRepository { functions := [Demo.constant result] } 1).compileUncached
      Demo.lookalikeView Demo.everything = .ok (Demo.lookalikeGraph result)) ∧
    (let g := Demo.lookalikeGraph (.ok (.text "done"))
     let o := singleThreaded.run g (Snapshot.new default) {}
     (ResultModel.published g {} o.cache).map (·.specification) = [Demo.lookalikes.1, Demo.lookalikes.2] ∧
      (ResultModel.build default default g o.cache o.failures {}).size = 1) ∧
    (let g := Demo.lookalikeGraph (.error (.panic none))
     let o := singleThreaded.run g (Snapshot.new default) {}
     o.failures.keys = [Demo.lookalikes.2, Demo.lookalikes.1] ∧
      ∃ texts, (ResultModel.build default default g o.cache o.failures {}).toJson.field? "failures" =
        some (.record texts) ∧ texts.length = 1) := by
  refine ⟨by decide, rfl, by decide, by decide, fun result => Demo.compile_pairView _ (by decide) result Demo.everything,
    ⟨rfl, rfl⟩, ?_, _, ResultModel.field?_failures _, ?_⟩
  · rw [Demo.lookalikeGraph, Demo.failures_pairGraph]
    decide
  · rw [ResultModel.failureTexts, ResultModel.build_failures, Demo.lookalikeGraph, Demo.failures_pairGraph]
    decide

end Executor
end Valuation
