import Valuation.Proofs.Demo
import Valuation.Proofs.Execution.Cache
import Valuation.Proofs.Result

/-!
# What a call yields, and what is written of it

Of what a function produces, the last value under each declared output counts. What was produced before it is hidden
by it, also by a missing one, and what was not declared is passed over. A call yields the values that count, in the
order of the declared outputs, or it fails for the first output without one (`declaredOutputs_eq_mapM`,
`outcomeOf_eq_error_iff`). Writing goes value by value, and would break off halfway at a repeated or a missing one. A
call yields neither, so what it yields is written all or none (`CalculationFunction.invoke_yields`).
-/
namespace Valuation

/-! ## What was produced -/

/-- What was produced last under a specification. -/
def lastUnder? (produced : List ComputedValue) (s : Specification) : Option ComputedValue :=
  (produced.filter fun v => v.specification = s).getLast?

/-- Whether what was produced last under a specification is a value. -/
def Supplied (produced : List ComputedValue) (s : Specification) : Prop :=
  ∃ v, lastUnder? produced s = some v ∧ v.value.isMissing = false

/-- What was produced last under a declared output, unless it is missing. -/
def supply (produced : List ComputedValue) (s : Specification) : Except FailureReason ComputedValue :=
  match lastUnder? produced s with
  | some v => if v.value.isMissing then .error (.missingOutput s) else .ok v
  | none => .error (.missingOutput s)

section
variable {produced : List ComputedValue} {outputs : List Specification} {s : Specification} {v : ComputedValue}

theorem specification_of_lastUnder? (h : lastUnder? produced s = some v) : v.specification = s :=
  of_decide_eq_true (List.mem_filter.1 (List.mem_of_getLast? h)).2

/-- Values that nobody asks for hide nothing. -/
theorem lastUnder?_filter {p : ComputedValue → Bool} (hp : ∀ v, v.specification = s → p v = true) :
    lastUnder? (produced.filter p) s = lastUnder? produced s := by
  rw [lastUnder?, lastUnder?, List.filter_filter]
  refine congrArg List.getLast? (List.filter_congr fun v _ => ?_)
  by_cases hv : v.specification = s
  · simp [hv, hp v hv]
  · simp [hv]

/-- Of what was produced the last one is filed. -/
theorem get?_produced (produced : List ComputedValue) (s : Specification) :
    (Table.ofList (produced.map fun v => (v.specification, v.value))).get? s =
      (lastUnder? produced s).map (·.value) := by
  rw [Table.ofList, Table.get?_insertAll_eq, Table.get?_empty, Option.or_none, List.filter_map,
    List.getLast?_map, Option.map_map]
  rfl

theorem supply_eq_ok : supply produced s = .ok v ↔ lastUnder? produced s = some v ∧ v.value.isMissing = false := by
  unfold supply
  split
  · next w hw =>
    rw [hw, Option.some.injEq]
    split
    · next hmissing =>
      refine ⟨nofun, ?_⟩
      rintro ⟨rfl, hvalue⟩
      cases hmissing.symm.trans hvalue
    · next hvalue =>
      rw [Except.ok.injEq]
      refine ⟨fun h => ⟨h, ?_⟩, And.left⟩
      exact h ▸ Bool.eq_false_iff.2 hvalue
  · next hnone =>
    rw [hnone]
    exact ⟨nofun, fun h => nomatch h.1⟩

theorem supply_isOk_iff : (∃ v, supply produced s = .ok v) ↔ Supplied produced s :=
  exists_congr fun _ => supply_eq_ok

theorem supply_eq_error {reason : FailureReason} :
    supply produced s = .error reason ↔ ¬Supplied produced s ∧ reason = .missingOutput s := by
  have hreason : ∀ r, supply produced s = .error r → r = .missingOutput s := by
    intro r h
    unfold supply at h
    split at h
    · split at h
      · cases h
        rfl
      · cases h
    · cases h
      rfl
  rw [← supply_isOk_iff]
  cases h : supply produced s with
  | ok v => simp
  | error r =>
    rw [hreason r h, Except.error.injEq, eq_comm]
    simp

/-! ## Declared outputs -/

/-- Outputs that differ are looked up each by itself. -/
theorem declaredOutputs_eq_mapM {t : Table Specification DataValue} (hnodup : outputs.Nodup)
    (ht : ∀ s ∈ outputs, t.get? s = (lastUnder? produced s).map (·.value)) :
    declaredOutputs t outputs = outputs.mapM (supply produced) := by
  -- An output that is found leaves the table. What stays behind for the others is all that the induction needs.
  induction outputs generalizing t with
  | nil => rfl
  | cons s rest ih =>
    obtain ⟨hs, hrest⟩ := List.nodup_cons.1 hnodup
    rw [List.forall_mem_cons] at ht
    have herase : ∀ u ∈ rest, (t.erase s).get? u = (lastUnder? produced u).map (·.value) := by
      intro u hu
      have hne : s ≠ u := fun h => hs (h ▸ hu)
      rw [Table.get?_erase, if_neg hne]
      exact ht.2 u hu
    rw [declaredOutputs, ht.1, List.mapM_cons, ih hrest herase, supply]
    cases hlast : lastUnder? produced s with
    | none => rfl
    | some v =>
      obtain rfl := specification_of_lastUnder? hlast
      cases hmissing : v.value.isMissing with
      | true => simp [hmissing, bind, Except.bind]
      | false =>
        simp only [Option.map_some, hmissing, Bool.false_eq_true, if_false]
        cases rest.mapM (supply produced) <;> rfl

/-- What is supplied for all outputs is what was produced last under each of them. -/
theorem mapM_supply_eq_ok {values : List ComputedValue} :
    outputs.mapM (supply produced) = .ok values ↔
      values.map some = outputs.map (lastUnder? produced) ∧ ∀ v ∈ values, v.value.isMissing = false := by
  rw [mapM_eq_ok]
  induction outputs generalizing values with
  | nil => cases values <;> simp
  | cons s rest ih =>
    cases values with
    | nil => simp
    | cons v values =>
      simp only [List.map_cons, List.cons.injEq, List.forall_mem_cons, ih, supply_eq_ok, eq_comm (a := some v)]
      exact and_and_and_comm

variable {id : String} {e e' : Evaluation}

/-- Only what was produced last under the declared outputs counts. -/
theorem outcomeOf_eq_mapM {values : List ComputedValue} (hnodup : outputs.Nodup) (h : e.result = .ok values)
    (hlast : ∀ s ∈ outputs, lastUnder? values s = lastUnder? produced s) :
    outcomeOf id outputs e = outputs.mapM (supply produced) := by
  rw [outcomeOf, h]
  exact declaredOutputs_eq_mapM hnodup fun s hs => by rw [get?_produced, hlast s hs]

theorem outcomeOf_of_produced (hnodup : outputs.Nodup) (h : e.result = .ok produced) :
    outcomeOf id outputs e = outputs.mapM (supply produced) :=
  outcomeOf_eq_mapM hnodup h fun _ _ => rfl

theorem outcomeOf_of_fault {fault : Fault} (h : e.result = .error fault) :
    outcomeOf id outputs e = .error (.functionError (fault.message id)) := by
  rw [outcomeOf, h]

theorem outcomeOf_eq_ok_iff (hnodup : outputs.Nodup) {values : List ComputedValue} :
    outcomeOf id outputs e = .ok values ↔ ∃ produced, e.result = .ok produced ∧
      values.map some = outputs.map (lastUnder? produced) ∧ ∀ v ∈ values, v.value.isMissing = false := by
  cases h : e.result with
  | error fault => simp [outcomeOf_of_fault h]
  | ok produced => simp [outcomeOf_of_produced hnodup h, mapM_supply_eq_ok]

theorem outcomeOf_isOk_iff (hnodup : outputs.Nodup) :
    (∃ values, outcomeOf id outputs e = .ok values) ↔
      ∃ produced, e.result = .ok produced ∧ ∀ s ∈ outputs, Supplied produced s := by
  cases h : e.result with
  | error fault => simp [outcomeOf_of_fault h]
  | ok produced =>
    simp only [outcomeOf_of_produced hnodup h, Except.ok.injEq, exists_eq_left', ← supply_isOk_iff]
    exact ⟨fun ⟨_, hvalues⟩ => isOk_of_mapM_eq_ok hvalues, mapM_isOk⟩

/-- Why a call fails: its function reports an error or breaks off, or else the first output that is not supplied is
to blame. -/
inductive Evaluation.Breaks (e : Evaluation) (id : String) (outputs : List Specification) : FailureReason → Prop
  | error {cause : FunctionError} : e.result = .error (.error cause) →
    Breaks e id outputs (.functionError (id ++ ": " ++ cause.message))
  | panic {text : Option String} : e.result = .error (.panic text) →
    Breaks e id outputs (.functionError (id ++ " panicked: " ++ text.getD "unknown panic"))
  | output {produced : List ComputedValue} {before after : List Specification} {s : Specification} :
    e.result = .ok produced → outputs = before ++ s :: after → (∀ u ∈ before, Supplied produced u) →
    ¬Supplied produced s → Breaks e id outputs (.missingOutput s)

theorem outcomeOf_eq_error_iff (hnodup : outputs.Nodup) {reason : FailureReason} :
    outcomeOf id outputs e = .error reason ↔ e.Breaks id outputs reason := by
  constructor
  · intro h
    cases hresult : e.result with
    | error fault =>
      rw [outcomeOf_of_fault hresult] at h
      cases h
      cases fault with
      | error cause => exact .error hresult
      | panic text => exact .panic hresult
    | ok produced =>
      rw [outcomeOf_of_produced hnodup hresult, mapM_eq_error] at h
      obtain ⟨before, s, after, rfl, hbefore, hs⟩ := h
      obtain ⟨hnot, rfl⟩ := supply_eq_error.1 hs
      exact .output hresult rfl (fun u hu => supply_isOk_iff.1 (hbefore u hu)) hnot
  · intro h
    cases h with
    | error hresult => exact outcomeOf_of_fault hresult
    | panic hresult => exact outcomeOf_of_fault hresult
    | output hresult houtputs hbefore hnot =>
      rw [outcomeOf_of_produced hnodup hresult]
      refine mapM_eq_error.2 ⟨_, _, _, houtputs, fun u hu => supply_isOk_iff.2 (hbefore u hu), ?_⟩
      exact supply_eq_error.2 ⟨hnot, rfl⟩

/-- Values that were not declared might as well not have been produced. -/
theorem outcomeOf_declared (hnodup : outputs.Nodup) (h : e.result = .ok produced)
    (h' : e'.result = .ok (produced.filter fun v => outputs.contains v.specification)) :
    outcomeOf id outputs e = outcomeOf id outputs e' := by
  refine (outcomeOf_of_produced hnodup h).trans (outcomeOf_eq_mapM hnodup h' fun s hs => ?_).symm
  refine lastUnder?_filter ?_
  rintro v rfl
  exact List.contains_iff_mem.2 hs

end

/-! ## What is written -/

/-- What a cache holds once values have been added: what it held, and these. -/
structure ComputationCache.Gains (c : ComputationCache) (micros : Nat) (values : List ComputedValue)
    (c' : ComputationCache) : Prop where
  getCached?_iff : ∀ s cached, c'.getCached? s = some cached ↔
    c.getCached? s = some cached ∨ ∃ v ∈ values, v.specification = s ∧ cached = ⟨v.value, micros⟩
  contains_iff : ∀ s, c'.contains s = true ↔ c.contains s = true ∨ s ∈ values.map (·.specification)

/-- What writing values comes to: they are added all, or nothing has changed, and the first of them that was there
already is to blame. -/
inductive ComputationCache.Written (c : ComputationCache) (micros : Nat) (values : List ComputedValue) :
    ComputationCache × Except FailureReason Unit → Prop
  | all {c' : ComputationCache} : (∀ v ∈ values, c.contains v.specification = false) → c.Gains micros values c' →
    Written c micros values (c', .ok ())
  | nothing {before after : List ComputedValue} {v : ComputedValue} : values = before ++ v :: after →
    (∀ w ∈ before, c.contains w.specification = false) → c.contains v.specification = true →
    Written c micros values (c, .error (.duplicateValue v.specification))

section
variable {values : List ComputedValue}

theorem ComputationCache.gains_withValues (c : ComputationCache) (micros : Nat)
    (hnew : ∀ v ∈ values, c.contains v.specification = false) (hnodup : (values.map (·.specification)).Nodup) :
    c.Gains micros values (c.withValues micros values) := by
  have hkeys : ((entriesOf micros values).map (·.1)).Nodup := by rwa [keys_entriesOf]
  have hfresh : ∀ s ∈ (entriesOf micros values).map (·.1), c.values.contains s = false := by
    rw [keys_entriesOf, List.forall_mem_map]
    exact hnew
  refine ⟨fun s cached => ?_, fun s => ?_⟩
  · refine (Table.get?_insertAll_new hkeys hfresh).trans (or_congr Iff.rfl ?_)
    simp only [entriesOf, List.mem_map, Prod.mk.injEq, eq_comm (a := cached)]
  · rw [← keys_entriesOf micros]
    exact Table.contains_insertAll ..

theorem written_writeOutputs (c : ComputationCache) (micros : Nat) (hnodup : (values.map (·.specification)).Nodup)
    (hvalue : ∀ v ∈ values, v.value.isMissing = false) : c.Written micros values (writeOutputs c values micros) := by
  cases hfind : values.find? fun v => c.contains v.specification with
  | none =>
    have hnew : ∀ v ∈ values, c.contains v.specification = false := by simpa [List.find?_eq_none] using hfind
    rw [writeOutputs_of_new micros hnew hnodup hvalue]
    exact .all hnew (c.gains_withValues micros hnew hnodup)
  | some v =>
    obtain ⟨hv, before, after, rfl, hbefore⟩ := List.find?_eq_some_iff_append.1 hfind
    rw [writeOutputs_of_cached micros hfind]
    exact .nothing rfl (by simpa using hbefore) hv

end

/-! ## Calls -/

/-- What a call of a function on some outputs yields, and what is written of that. -/
structure CalculationFunction.Yields (f : CalculationFunction) (t : Target) (inputs : FunctionInputs)
    (outputs : List Specification) : Prop where
  isOk_iff : (∃ values, f.invoke t inputs outputs = .ok values) ↔
    ∃ produced, (f.execute t inputs outputs).result = .ok produced ∧ ∀ s ∈ outputs, Supplied produced s
  last : ∀ values, f.invoke t inputs outputs = .ok values ↔
    ∃ produced, (f.execute t inputs outputs).result = .ok produced ∧
      values.map some = outputs.map (lastUnder? produced) ∧ ∀ v ∈ values, v.value.isMissing = false
  inOrder : ∀ values, f.invoke t inputs outputs = .ok values → values.map (·.specification) = outputs
  /-- What was not declared makes no difference. -/
  undeclared : ∀ produced, (f.execute t inputs outputs).result = .ok produced →
    f.invoke t inputs outputs = outcomeOf f.id outputs
      { result := .ok (produced.filter fun v => outputs.contains v.specification) }
  breaks_iff : ∀ reason, f.invoke t inputs outputs = .error reason ↔
    (f.execute t inputs outputs).Breaks f.id outputs reason
  written : ∀ values, f.invoke t inputs outputs = .ok values → ∀ (c : ComputationCache) (micros : Nat),
    c.Written micros values (writeOutputs c values micros)

/-- Whatever a function does, and whatever is cached: a call on outputs that differ yields the value that was produced
last under each of them, in their order, just if the function succeeds and each of these values is there and not
missing. Otherwise it fails with what the function reports, or for the first output that is not supplied. What it
yields is written in full where none of it is cached, and else not at all. -/
theorem CalculationFunction.invoke_yields (f : CalculationFunction) (t : Target) (inputs : FunctionInputs)
    {outputs : List Specification} (hnodup : outputs.Nodup) : f.Yields t inputs outputs := by
  refine ⟨outcomeOf_isOk_iff hnodup, fun values => outcomeOf_eq_ok_iff hnodup, fun values h => (outcomeOf_eq_ok h).1,
    fun produced h => outcomeOf_declared hnodup h rfl, fun reason => outcomeOf_eq_error_iff hnodup,
    fun values h c micros => ?_⟩
  obtain ⟨hspec, hvalue⟩ := outcomeOf_eq_ok h
  exact written_writeOutputs c micros (hspec ▸ hnodup) hvalue

namespace Demo

/-- A specification on a position. -/
def named (name : String) : Specification := ⟨position 1, name, ∅⟩

/-- A function that revises one of its values, and withdraws another. -/
def revising : CalculationFunction :=
  { id := "revising"
    targetKinds := [.position]
    valueNames := ["V", "W"]
    execute := fun _ _ _ =>
      { result := .ok [⟨named "V", .text "draft"⟩, ⟨named "X", .text "draft"⟩, ⟨named "W", .text "only"⟩,
          ⟨named "X", .missing⟩, ⟨named "V", .text "final"⟩] } }

/-- Asked for the revised value it yields the last one; asked for the withdrawn one it fails. -/
theorem revising_yields : [named "W", named "V"].Nodup ∧
    revising.Yields (position 1) {} [named "W", named "V"] ∧
    revising.invoke (position 1) {} [named "W", named "V"] =
      .ok [⟨named "W", .text "only"⟩, ⟨named "V", .text "final"⟩] ∧
    [named "W", named "X"].Nodup ∧
    revising.invoke (position 1) {} [named "W", named "X"] = .error (.missingOutput (named "X")) := by
  have hnodup : [named "W", named "V"].Nodup := by decide
  have hwithdrawn : [named "W", named "X"].Nodup := by decide
  have hyields := revising.invoke_yields (position 1) {} hnodup
  refine ⟨hnodup, hyields, (hyields.last _).2 ⟨_, rfl, rfl, ?_⟩, hwithdrawn, ?_⟩
  · simp [DataValue.isMissing]
  · have houtputs : [named "W", named "X"] = [named "W"] ++ named "X" :: [] := rfl
    refine ((revising.invoke_yields (position 1) {} hwithdrawn).breaks_iff _).2 (.output rfl houtputs ?_ ?_)
    · exact List.forall_mem_singleton.2 ⟨_, rfl, rfl⟩
    · rintro ⟨v, hlast, hvalue⟩
      cases hlast
      cases hvalue

end Demo
end Valuation
