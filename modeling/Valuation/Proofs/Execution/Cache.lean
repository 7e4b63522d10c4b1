import Valuation.Proofs.Execution.Evaluation
import Valuation.Proofs.Table

/-!
# Writing results

New values that are not missing are written without fail, and nothing else changes (`writeOutputs_of_new`). If one
of them is there already, nothing is written (`writeOutputs_of_cached`).
-/
namespace Valuation

variable {c : ComputationCache}

namespace ComputationCache

theorem contains_eq (c : ComputationCache) (s : Specification) : c.contains s = (c.get? s).isSome := by
  simp [contains, get?, getCached?, Table.contains]

theorem contains_iff (c : ComputationCache) (s : Specification) :
    c.contains s = true ↔ ∃ v, c.get? s = some v := by
  rw [contains_eq, Option.isSome_iff_exists]

theorem put_of_new {s : Specification} {value : DataValue} (micros : Nat) (hnew : c.contains s = false)
    (hvalue : value.isMissing = false) : c.put s value micros = .ok ⟨c.values.insert s ⟨value, micros⟩⟩ := by
  simp [put, hvalue, hnew]

/-- The entries under which values are cached. -/
def entriesOf (micros : Nat) (values : List ComputedValue) : List (Specification × CachedValue) :=
  values.map fun v => (v.specification, ⟨v.value, micros⟩)

/-- A cache with some values besides its own. -/
def withValues (c : ComputationCache) (micros : Nat) (values : List ComputedValue) : ComputationCache :=
  ⟨c.values.insertAll (entriesOf micros values)⟩

theorem keys_entriesOf (micros : Nat) (values : List ComputedValue) :
    (entriesOf micros values).map (·.1) = values.map (·.specification) := by
  rw [entriesOf, List.map_map]
  rfl

theorem mem_getMany {v : ComputedValue} {ss : List Specification} :
    v ∈ c.getMany ss ↔ v.specification ∈ ss ∧ c.get? v.specification = some v.value := by
  obtain ⟨s, w⟩ := v
  simp [getMany]

theorem specifications_getMany {ss : List Specification} (h : ∀ s ∈ ss, c.contains s = true) :
    (c.getMany ss).map (·.specification) = ss := by
  induction ss with
  | nil => rfl
  | cons s ss ih =>
    rw [List.forall_mem_cons, contains_iff] at h
    obtain ⟨⟨v, hv⟩, hss⟩ := h
    simp only [getMany, List.filterMap_cons, hv, Option.map_some, List.map_cons]
    exact congrArg (s :: ·) (ih hss)

theorem specifications_getMany_sublist (c : ComputationCache) (ss : List Specification) :
    ((c.getMany ss).map (·.specification)).Sublist ss := by
  induction ss with
  | nil => exact List.nil_sublist _
  | cons s ss ih =>
    cases hv : c.get? s with
    | none =>
      simp only [getMany, List.filterMap_cons, hv, Option.map_none]
      exact ih.cons s
    | some v =>
      simp only [getMany, List.filterMap_cons, hv, Option.map_some, List.map_cons]
      exact ih.cons_cons s

theorem getMany_eq {value? : Specification → Option DataValue} {ss : List Specification}
    (h : ∀ s ∈ ss, c.get? s = value? s) :
    c.getMany ss = ss.filterMap fun s => (value? s).map fun v => ⟨s, v⟩ :=
  List.filterMap_congr fun s hs => by rw [h s hs]

end ComputationCache

/-! ## Writing -/

section
variable {values : List ComputedValue}

theorem putAll_of_new (micros : Nat) (hnew : ∀ v ∈ values, c.contains v.specification = false)
    (hnodup : (values.map (·.specification)).Nodup) (hvalue : ∀ v ∈ values, v.value.isMissing = false) :
    putAll micros values c = (c.withValues micros values, .ok ()) := by
  induction values generalizing c with
  | nil => rfl
  | cons v rest ih =>
    rw [List.forall_mem_cons] at hnew hvalue
    rw [List.map_cons, List.nodup_cons] at hnodup
    rw [putAll, ComputationCache.put_of_new micros hnew.1 hvalue.1]
    refine ih (fun w hw => ?_) hnodup.2 hvalue.2
    have hne : v.specification ≠ w.specification := fun hs => hnodup.1 (hs ▸ List.mem_map_of_mem hw)
    rw [ComputationCache.contains, Table.contains, Table.get?_insert, if_neg hne]
    exact hnew.2 w hw

theorem writeOutputs_of_new (micros : Nat) (hnew : ∀ v ∈ values, c.contains v.specification = false)
    (hnodup : (values.map (·.specification)).Nodup) (hvalue : ∀ v ∈ values, v.value.isMissing = false) :
    writeOutputs c values micros = (c.withValues micros values, .ok ()) := by
  have hnone : values.find? (fun v => c.contains v.specification) = none := by
    refine List.find?_eq_none.2 fun v hv => ?_
    rw [hnew v hv]
    exact Bool.false_ne_true
  rw [writeOutputs, hnone]
  exact putAll_of_new micros hnew hnodup hvalue

theorem writeOutputs_of_cached (micros : Nat) {v : ComputedValue}
    (hv : values.find? (fun v => c.contains v.specification) = some v) :
    writeOutputs c values micros = (c, .error (.duplicateValue v.specification)) := by
  rw [writeOutputs, hv]

theorem Verdict.value?_of_mem (hnodup : (values.map (·.specification)).Nodup) {v : ComputedValue} (hv : v ∈ values) :
    (Verdict.ok values).value? v.specification = some v.value := by
  have hsome : (values.find? fun w => w.specification = v.specification).isSome := by
    simpa using ⟨v, hv, rfl⟩
  obtain ⟨w, hw⟩ := Option.isSome_iff_exists.1 hsome
  have hspec : w.specification = v.specification := by simpa using List.find?_some hw
  have heq : w = v := List.inj_on_of_nodup_map hnodup (List.mem_of_find?_eq_some hw) hv hspec
  rw [value?, hw, heq]
  rfl

theorem Verdict.value?_of_notMem {t : Specification} (ht : t ∉ values.map (·.specification)) :
    (Verdict.ok values).value? t = none := by
  simp_all [value?, List.find?_eq_none]

/-- What is found in a cache with new values are these, and what was there. -/
theorem ComputationCache.get?_withValues (micros : Nat) (hnodup : (values.map (·.specification)).Nodup)
    (t : Specification) :
    (c.withValues micros values).get? t = ((Verdict.ok values).value? t).or (c.get? t) := by
  have hkeys : ((entriesOf micros values).map (·.1)).Nodup := by rwa [keys_entriesOf]
  by_cases ht : t ∈ values.map (·.specification)
  · obtain ⟨v, hv, rfl⟩ := List.mem_map.1 ht
    have hentry : (v.specification, ⟨v.value, micros⟩) ∈ entriesOf micros values := List.mem_map_of_mem hv
    rw [get?, getCached?, withValues, Table.get?_insertAll hkeys hentry, Verdict.value?_of_mem hnodup hv]
    rfl
  · have hnot : t ∉ (entriesOf micros values).map (·.1) := by rwa [keys_entriesOf]
    rw [get?, getCached?, withValues, Table.get?_insertAll_of_notMem hnot, Verdict.value?_of_notMem ht]
    rfl

end

/-- The inputs of a node are gathered just if all of them are cached, and are their cached values. -/
theorem Node.gatherInputs_eq_ok_iff {n : Node} {inputs : FunctionInputs} :
    n.gatherInputs c = .ok inputs ↔
      (∀ t ∈ n.inputs, c.contains t = true) ∧ inputs = .ofList (c.getMany n.inputs) := by
  unfold gatherInputs
  split
  · next t ht =>
    have hmem := List.mem_of_find?_eq_some ht
    have hnone : c.contains t = false := by simpa using List.find?_some ht
    refine ⟨nofun, fun ⟨hall, _⟩ => ?_⟩
    rw [hall t hmem] at hnone
    cases hnone
  · next hnone =>
    have hall : ∀ t ∈ n.inputs, c.contains t = true := by simpa [List.find?_eq_none] using hnone
    rw [Except.ok.injEq, and_iff_right hall, eq_comm]

theorem Node.gatherInputs_eq_ok {n : Node} {value? : Specification → Option DataValue}
    (hget : ∀ t ∈ n.inputs, c.get? t = value? t) (hsome : ∀ t ∈ n.inputs, (value? t).isSome) :
    n.gatherInputs c = .ok (.ofList (n.inputValues value?)) := by
  refine gatherInputs_eq_ok_iff.2 ⟨fun t ht => ?_, by rw [ComputationCache.getMany_eq hget, inputValues]⟩
  rw [ComputationCache.contains_eq, hget t ht]
  exact hsome t ht

end Valuation
