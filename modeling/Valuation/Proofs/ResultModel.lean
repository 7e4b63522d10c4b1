import Mathlib.Data.List.Nodup
import Valuation.Proofs.Execution.Accounting
import Valuation.Proofs.Specification
import Valuation.Proofs.Table
import Valuation.ResultModel

/-!
# What a run publishes

A result model files the cached values of what its view publishes, each under its own target and key
(`filed_build`), and lists the market data that was read in order (`sorted_marketDataRead`). Together with
how the nodes of a run end, this says what becomes of each specification that a view asks for
(`build_publishes`).
-/
namespace Valuation

open Relation

/-- What a view publishes: what it asks for and, if it wants them, the outputs of calls. -/
def Graph.Published (g : Graph) (options : ResultOptions) (t : Specification) : Prop :=
  t ∈ g.terminals ∨ options.intermediates = true ∧ ∃ n ∈ g.nodes, n.isMarketData = false ∧ t ∈ n.outputs

namespace ResultModel

/-! ## Filing values -/

section
variable {m : ResultModel} {v : ComputedValue}

theorem get?_insert (m : ResultModel) (v : ComputedValue) (t : Target) (key : String) :
    (m.insert v).get? t key =
      if v.specification.target = t ∧ resultKey v.specification = key then some v else m.get? t key := by
  unfold get? valuesFor? insert
  rw [Table.get?_insert]
  by_cases ht : v.specification.target = t
  · subst ht
    rw [if_pos rfl, Option.bind_some, Table.get?_insert]
    by_cases hkey : resultKey v.specification = key
    · simp [hkey]
    · rw [if_neg hkey, if_neg fun h => hkey h.2]
      cases m.values.get? v.specification.target with
      | none => rfl
      | some onTarget => rfl
  · rw [if_neg ht, if_neg fun h => ht h.1]

/-- Where a value is filed. -/
def placeOf (v : ComputedValue) : Target × String := (v.specification.target, resultKey v.specification)

/-- An entry holds the value that was filed there last. -/
theorem get?_foldl_insert (vs : List ComputedValue) (m : ResultModel) (t : Target) (key : String) :
    (vs.foldl insert m).get? t key =
      ((vs.filter fun v => placeOf v = (t, key)).getLast?).or (m.get? t key) := by
  induction vs generalizing m with
  | nil => rfl
  | cons v vs ih =>
    rw [List.foldl_cons, ih, get?_insert]
    by_cases hv : placeOf v = (t, key)
    · have hplace : v.specification.target = t ∧ resultKey v.specification = key := Prod.ext_iff.1 hv
      rw [if_pos hplace, List.filter_cons_of_pos (by simpa using hv), List.getLast?_cons]
      cases (vs.filter fun v => placeOf v = (t, key)).getLast? with
      | none => rfl
      | some w => rfl
    · have hplace : ¬(v.specification.target = t ∧ resultKey v.specification = key) := fun h =>
        hv (Prod.ext h.1 h.2)
      rw [if_neg hplace, List.filter_cons_of_neg (by simpa using hv)]

/-- There is an entry just where a value has been filed. -/
theorem get?_foldl_insert_isSome (vs : List ComputedValue) (m : ResultModel) (t : Target) (key : String) :
    ((vs.foldl insert m).get? t key).isSome ↔ (m.get? t key).isSome ∨
      ∃ v ∈ vs, v.specification.target = t ∧ resultKey v.specification = key := by
  have hplace : ∀ v : ComputedValue, placeOf v = (t, key) ↔
      v.specification.target = t ∧ resultKey v.specification = key := fun _ => Prod.ext_iff
  rw [get?_foldl_insert, Option.isSome_or, Bool.or_eq_true, or_comm, List.getLast?_isSome]
  simp [List.filter_eq_nil_iff, hplace]

/-- Every entry holds a value with some property, under the target and the key of that value. -/
def Filed (P : ComputedValue → Prop) (m : ResultModel) : Prop :=
  ∀ e ∈ m.values.toList, ∀ f ∈ e.2.toList,
    P f.2 ∧ e.1 = f.2.specification.target ∧ f.1 = resultKey f.2.specification

theorem Filed.insert {P : ComputedValue → Prop} (h : Filed P m) (hv : P v) : Filed P (m.insert v) := by
  intro e he f hf
  rcases Table.mem_place he with rfl | he
  · rcases Table.mem_place hf with rfl | hf
    · exact ⟨hv, rfl, rfl⟩
    · cases htarget : m.values.get? v.specification.target with
      | none =>
        rw [htarget] at hf
        cases hf
      | some onTarget =>
        rw [htarget] at hf
        exact h _ (Table.mem_of_find htarget) f hf
  · exact h e he f hf

theorem Filed.foldl_insert {P : ComputedValue → Prop} (h : Filed P m) {vs : List ComputedValue}
    (hvs : ∀ v ∈ vs, P v) : Filed P (vs.foldl ResultModel.insert m) := by
  induction vs generalizing m with
  | nil => exact h
  | cons v vs ih =>
    rw [List.forall_mem_cons] at hvs
    exact ih (h.insert hvs.1) hvs.2

/-- Values stand in the order of their targets and keys. -/
def Listed (m : ResultModel) : Prop := m.values.Sorted ∧ ∀ e ∈ m.values.toList, e.2.Sorted

theorem Listed.insert (h : m.Listed) (v : ComputedValue) : (m.insert v).Listed := by
  refine ⟨h.1.insert _ _, fun e he => ?_⟩
  rcases Table.mem_place he with rfl | he
  · cases htarget : m.values.get? v.specification.target with
    | none => exact Table.sorted_empty.insert _ _
    | some onTarget => exact (h.2 _ (Table.mem_of_find htarget)).insert _ _
  · exact h.2 e he

theorem Listed.foldl_insert (h : m.Listed) (vs : List ComputedValue) : (vs.foldl ResultModel.insert m).Listed := by
  induction vs generalizing m with
  | nil => exact h
  | cons v vs ih => exact ih (h.insert v)

theorem foldl_insert_failures (vs : List ComputedValue) (m : ResultModel) :
    (vs.foldl insert m).failures = m.failures ∧ (vs.foldl insert m).marketData = m.marketData := by
  induction vs generalizing m with
  | nil => exact ⟨rfl, rfl⟩
  | cons v vs ih => exact ih (m.insert v)

theorem foldl_insert_values (vs : List ComputedValue) {m m' : ResultModel} (h : m.values = m'.values) :
    (vs.foldl insert m).values = (vs.foldl insert m').values := by
  induction vs generalizing m m' with
  | nil => exact h
  | cons v vs ih => exact ih (by simp only [insert, h])

end

/-! ## What is published -/

section
variable {g : Graph} {options : ResultOptions} {c : ComputationCache}

theorem mem_outputsCached (nodes : List Node) (p : Node → Bool) (v : ComputedValue) :
    v ∈ (nodes.filter p).flatMap (fun n => c.getMany n.outputs) ↔
      (∃ n ∈ nodes, p n = true ∧ v.specification ∈ n.outputs) ∧ c.get? v.specification = some v.value := by
  simp only [List.mem_flatMap, List.mem_filter, ComputationCache.mem_getMany]
  constructor
  · rintro ⟨n, ⟨hn, hp⟩, hv, hcached⟩
    exact ⟨⟨n, hn, hp, hv⟩, hcached⟩
  · rintro ⟨⟨n, hn, hp, hv⟩, hcached⟩
    exact ⟨n, ⟨hn, hp⟩, hv, hcached⟩

/-- What is published are the cached values of published specifications. -/
theorem mem_published (v : ComputedValue) :
    v ∈ published g options c ↔ g.Published options v.specification ∧ c.get? v.specification = some v.value := by
  unfold published Graph.Published
  rw [List.mem_append, ComputationCache.mem_getMany, or_and_right]
  cases options.intermediates with
  | false => simp
  | true =>
    rw [if_pos rfl, mem_outputsCached]
    simp

/-- The market data that was read are the cached outputs of market data nodes. -/
theorem mem_marketDataRead (v : ComputedValue) :
    v ∈ marketDataRead g c ↔ (∃ n ∈ g.nodes, n.isMarketData = true ∧ v.specification ∈ n.outputs) ∧
      c.get? v.specification = some v.value := by
  rw [marketDataRead, sorted, List.mem_mergeSort, mem_outputsCached]

theorem pairwise_sorted {vs : List ComputedValue} (h : (vs.map (·.specification)).Nodup) :
    (sorted vs).Pairwise fun v w => compare v.specification w.specification = .lt := by
  let le (v w : ComputedValue) : Bool := (compare v.specification w.specification).isLE
  have htrans : ∀ u v w, le u v = true → le v w = true → le u w = true :=
    fun _ _ _ => Std.TransCmp.isLE_trans
  have htotal : ∀ v w, (le v w || le w v) = true := by
    intro v w
    have hswap : compare w.specification v.specification = (compare v.specification w.specification).swap :=
      Std.OrientedCmp.eq_swap
    simp only [le, hswap]
    cases compare v.specification w.specification with
    | lt => rfl
    | eq => rfl
    | gt => rfl
  have hle : (sorted vs).Pairwise fun v w => le v w = true := List.pairwise_mergeSort htrans htotal vs
  have hperm : (sorted vs).Perm vs := List.mergeSort_perm vs le
  have hne : (sorted vs).Pairwise fun v w => v.specification ≠ w.specification :=
    List.pairwise_map.1 ((hperm.map ComputedValue.specification).nodup_iff.2 h)
  refine (hle.and hne).imp fun {v w} hvw => ?_
  cases hc : compare v.specification w.specification with
  | lt => rfl
  | eq => exact absurd (Std.LawfulEqCmp.eq_of_compare hc) hvw.2
  | gt => simp [le, hc] at hvw

/-- The market data that was read is listed strictly ascending. -/
theorem sorted_marketDataRead (hg : g.Runnable) (c : ComputationCache) :
    (marketDataRead g c).Pairwise fun v w => compare v.specification w.specification = .lt := by
  refine pairwise_sorted ?_
  rw [List.map_flatMap, List.nodup_flatMap]
  refine ⟨fun n hn => ?_, (hg.outputs_disjoint.sublist List.filter_sublist).imp fun {n m} hnm => ?_⟩
  · obtain ⟨i, hi⟩ := List.mem_iff_getElem?.1 (List.mem_filter.1 hn).1
    exact (hg.outputs_nodup i n hi).sublist (c.specifications_getMany_sublist n.outputs)
  · intro s hsn hsm
    exact hnm ((c.specifications_getMany_sublist n.outputs).subset hsn)
      ((c.specifications_getMany_sublist m.outputs).subset hsm)

end

/-! ## The model of a run -/

/-- What the result model of a run says of the run, which has left its nodes as told. -/
structure Publishes (m : ResultModel) (g : Graph) (options : ResultOptions) (o : ExecutionOutcome)
    (ending : Nat → NodeStatus) : Prop where
  terminal : ∀ s ∈ g.terminals, (m.get? s.target (resultKey s)).isSome ↔
    ∃ t i, g.Published options t ∧ t.target = s.target ∧ resultKey t = resultKey s ∧
      g.producerOf? t = some i ∧ ending i = .executed
  cached : ∀ s ∈ g.terminals, o.cache.contains s = true ↔
    ∃ i, g.producerOf? s = some i ∧ ending i = .executed ∧ ∀ j, TransGen g.Feeds j i → ending j = .executed
  failed : ∀ s ∈ g.terminals, o.cache.contains s = false → m.failures.contains s = true
  entry : ∀ e ∈ m.values.toList, ∀ f ∈ e.2.toList,
    (g.Published options f.2.specification ∧ o.cache.get? f.2.specification = some f.2.value) ∧
      e.1 = f.2.specification.target ∧ f.1 = resultKey f.2.specification
  marketData_ascending : m.marketData.Pairwise fun v w => compare v.specification w.specification = .lt
  mem_marketData : ∀ v, v ∈ m.marketData ↔ options.marketData = true ∧
    (∃ n ∈ g.nodes, n.isMarketData = true ∧ v.specification ∈ n.outputs) ∧
      o.cache.get? v.specification = some v.value
  disjoint : ∀ v, v ∈ m.allValues ∨ v ∈ m.marketData → m.failures.contains v.specification = false

section
variable (cycle : CycleId) (time : Instant) (g : Graph) (c : ComputationCache)
  (failures : Table Specification FailureReason) (options : ResultOptions)

theorem build_failures : (build cycle time g c failures options).failures = failures :=
  (foldl_insert_failures ..).1

/-- What is published depends on what is cached, and on nothing else that a run leaves behind. -/
theorem allValues_build_congr {c c' : ComputationCache} (h : ∀ t, c.get? t = c'.get? t) (cycle cycle' : CycleId)
    (time time' : Instant) (g : Graph) (failures failures' : Table Specification FailureReason)
    (options : ResultOptions) :
    (build cycle time g c failures options).allValues = (build cycle' time' g c' failures' options).allValues := by
  have hmany : ∀ ss, c.getMany ss = c'.getMany ss := fun ss => by simp only [ComputationCache.getMany, h]
  have hpublished : published g options c = published g options c' := by simp only [published, hmany]
  have hvalues : (build cycle time g c failures options).values =
      (build cycle' time' g c' failures' options).values := by
    unfold build
    rw [hpublished]
    exact foldl_insert_values _ rfl
  rw [allValues, hvalues, allValues]

theorem build_marketData : (build cycle time g c failures options).marketData =
    if options.marketData then marketDataRead g c else [] :=
  (foldl_insert_failures ..).2

theorem listed_build : (build cycle time g c failures options).Listed :=
  Listed.foldl_insert ⟨Table.sorted_empty, fun _ he => absurd he List.not_mem_nil⟩ _

/-- Every entry is the cached value of a published specification, under its own target and key. -/
theorem filed_build : Filed (fun v => g.Published options v.specification ∧ c.get? v.specification = some v.value)
    (build cycle time g c failures options) := by
  refine Filed.foldl_insert (fun e he => ?_) fun v hv => (mem_published v).1 hv
  cases he

theorem build_get?_isSome (t : Target) (key : String) :
    ((build cycle time g c failures options).get? t key).isSome ↔
      ∃ s, g.Published options s ∧ s.target = t ∧ resultKey s = key ∧ c.contains s = true := by
  rw [build, get?_foldl_insert_isSome]
  refine (or_iff_right (by simp [get?, valuesFor?])).trans ⟨?_, ?_⟩
  · rintro ⟨v, hv, ht, hkey⟩
    obtain ⟨hpublished, hcached⟩ := (mem_published v).1 hv
    exact ⟨v.specification, hpublished, ht, hkey, (c.contains_iff _).2 ⟨v.value, hcached⟩⟩
  · rintro ⟨s, hpublished, ht, hkey, hcached⟩
    obtain ⟨w, hw⟩ := (c.contains_iff s).1 hcached
    exact ⟨⟨s, w⟩, (mem_published _).2 ⟨hpublished, hw⟩, ht, hkey⟩

theorem mem_allValues {m : ResultModel} {v : ComputedValue} :
    v ∈ m.allValues ↔ ∃ e ∈ m.values.toList, ∃ f ∈ e.2.toList, f.2 = v := by
  simp only [allValues, Table.values, Table.toList, List.mem_flatMap, List.mem_map, exists_exists_and_eq_and]

end

section
variable {g : Graph} {s : Snapshot} {c : Control} {raised : Nat → Bool} {r : Run}

/-- The result model of a run that is at rest and was not cancelled. -/
theorem publishes_build (hg : g.Runnable) (hterminals : ∀ t ∈ g.terminals, ∃ i, g.producerOf? t = some i)
    {cancelled : Bool} (h : Run.AtRest g s c raised r cancelled) (hgoes : cancelled = false)
    (cycle : CycleId) (time : Instant) (options : ResultOptions) :
    (build cycle time g r.cache r.failures options).Publishes g options (r.outcome cancelled) r.statusOf := by
  have hcached := fun t => h.contains_cache_iff_exists hg (t := t)
  have hfiled := filed_build cycle time g r.cache r.failures options
  refine ⟨fun t ht => ?_, fun t ht => (hcached t).trans ?_, fun t ht hnot => ?_, hfiled, ?_, fun v => ?_,
    fun v hv => ?_⟩
  · rw [build_get?_isSome]
    simp only [hcached, ← exists_and_left]
  · refine exists_congr fun i => and_congr_right fun _ => ⟨fun hi => ⟨hi, fun j hj => ?_⟩, And.left⟩
    exact h.executed_of_transGen hj hi
  · obtain ⟨i, hi⟩ := hterminals t ht
    have hti := (hg.producerOf?_eq_some_iff t i).1 hi
    have hmem := Graph.mem_outputsOf_iff.2 hti
    rw [build_failures, h.contains_failures_iff hg hmem]
    refine (h.settled hgoes i (Graph.lt_size_of_mem_outputsOf hmem)).resolve_left fun hexecuted => ?_
    cases hnot.symm.trans ((hcached t).2 ⟨i, hi, hexecuted⟩)
  · rw [build_marketData]
    split
    · exact sorted_marketDataRead hg r.cache
    · exact List.Pairwise.nil
  · rw [build_marketData]
    split
    · next hoption => exact (mem_marketDataRead v).trans (and_iff_right hoption).symm
    · next hoption => simp [hoption]
  · rw [build_failures]
    rcases hv with hv | hv
    · obtain ⟨e, he, f, hf, rfl⟩ := mem_allValues.1 hv
      exact h.not_failed_of_cached hg (hfiled e he f hf).1.2
    · rw [build_marketData] at hv
      split at hv
      · exact h.not_failed_of_cached hg ((mem_marketDataRead v).1 hv).2
      · cases hv

end

end ResultModel

namespace Executor

variable {compiler : GraphCompiler} {d : ViewDefinition} {a : Availability} {g : Graph}

/-- The graph of a view asks for what the view asks for, and so goes the result model of every run of it that was
not cancelled, under every strategy with workers and every interleaving. -/
theorem build_publishes (hcompile : compiler.compileUncached d a = .ok g) {strategy : Strategy}
    (hworkers : 0 < strategy.workers) :
    g.terminals = d.terminals ∧
    ∃ e, ofStrategy strategy = .ok e ∧ ∀ (x : Interleaving) (s : Snapshot) (c : Control),
      (e.runUnder x g s c).cancelled = false → ∀ (cycle : CycleId) (time : Instant) (options : ResultOptions),
        (ResultModel.build cycle time g (e.runUnder x g s c).cache (e.runUnder x g s c).failures
          options).Publishes g options (e.runUnder x g s c) (e.drive x g s c).1.statusOf := by
  have hg := Graph.runnable_of_compile hcompile
  obtain ⟨e, he⟩ := ofStrategy_isOk hworkers
  refine ⟨Graph.terminals_of_compile hcompile, e, he, fun x s c hgoes cycle time options => ?_⟩
  have hterminals := fun t ht => Graph.exists_producer_of_compile hcompile (s := t) ht
  exact ResultModel.publishes_build hg hterminals (drive_atRest hg e x s c) hgoes cycle time options

theorem demo_publishes : ∃ r g e, Demo.repository = .ok r ∧
    (GraphCompiler.ofRepository r 1).compileUncached (Demo.definition 2) Demo.everything = .ok g ∧
    g.terminals = (Demo.definition 2).terminals ∧
    0 < (Strategy.nodeParallel 3).workers ∧ ofStrategy (.nodeParallel 3) = .ok e ∧
    (e.runUnder Demo.outOfOrder g (Demo.snapshot 1) {}).cancelled = false ∧
    (ResultModel.build default default g (e.runUnder Demo.outOfOrder g (Demo.snapshot 1) {}).cache
      (e.runUnder Demo.outOfOrder g (Demo.snapshot 1) {}).failures { intermediates := true }).Publishes g
      { intermediates := true } (e.runUnder Demo.outOfOrder g (Demo.snapshot 1) {})
      (e.drive Demo.outOfOrder g (Demo.snapshot 1) {}).1.statusOf := by
  obtain ⟨r, g, hr, hfunctions, hg⟩ := Demo.exists_graph 2
  have hquiet : g.NeverCancels := by
    intro n hn f hf
    exact Demo.cancels_eq_false (hfunctions ▸ Graph.function_mem_of_compile hg hn hf)
  have hworkers : 0 < (Strategy.nodeParallel 3).workers := by decide
  obtain ⟨hterminals, e, he, hpublishes⟩ := build_publishes hg hworkers
  have hgoes : (e.runUnder Demo.outOfOrder g (Demo.snapshot 1) {}).cancelled = false :=
    cancelled_eq_false (Graph.runnable_of_compile hg) (Demo.snapshot 1) rfl (fun _ => hquiet) e fun _ => rfl
  exact ⟨r, g, e, hr, hg, hterminals, hworkers, he, hgoes,
    hpublishes Demo.outOfOrder (Demo.snapshot 1) {} hgoes default default { intermediates := true }⟩

end Executor
end Valuation
