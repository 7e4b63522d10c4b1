import Valuation.Execution.Invocation
import Valuation.Proofs.Graph.Runnable

/-!
# The meaning of a graph

`Graph.evaluate` says recursively what becomes of each node of a graph: a market data node yields what
the snapshot has, a call fails when the producer of one of its inputs has failed, and yields what its
function makes of its inputs otherwise (`evaluate_marketData`, `evaluate_upstream`, `evaluate_call`).
Nothing here mentions an order of execution.
-/
namespace Valuation

/-- A reason that a node gives by itself; it blames neither another node nor what is cached. -/
def FailureReason.IsOwn : FailureReason → Prop
  | .functionError _ | .missingMarketData _ | .missingOutput _ => True
  | .missingInput _ | .dependencyFailure _ | .duplicateValue _ => False

/-- What becomes of a node: it yields values, it fails, or something before it has failed. -/
inductive Verdict where
  | ok (values : List ComputedValue)
  | failed (reason : FailureReason)
  | upstream

namespace Verdict

def ofExcept : Except FailureReason (List ComputedValue) → Verdict
  | .ok values => .ok values
  | .error reason => .failed reason

def isOk : Verdict → Bool
  | .ok _ => true
  | _ => false

/-- The value of one output. -/
def value? (v : Verdict) (s : Specification) : Option DataValue :=
  match v with
  | .ok values => (values.find? fun v => v.specification = s).map (·.value)
  | _ => none

end Verdict

namespace Node

/-- The inputs of a node that have a value. -/
def inputValues (n : Node) (value? : Specification → Option DataValue) : List ComputedValue :=
  n.inputs.filterMap fun t => (value? t).map fun v => ⟨t, v⟩

/-- What becomes of a node, given the values of its inputs. -/
def verdict (n : Node) (s : Snapshot) (value? : Specification → Option DataValue) : Verdict :=
  match n.kind with
  | .marketData key => .ofExcept (n.readMarketData key s)
  | .function f =>
    if ∀ t ∈ n.inputs, (value? t).isSome then
      .ofExcept (f.invoke n.target (.ofList (n.inputValues value?)) n.outputs)
    else .upstream

end Node

namespace Graph

/-- What becomes of a node. The recursion goes to producers, which come first in the order. -/
def evaluate (g : Graph) (s : Snapshot) (i : Nat) : Verdict :=
  match g.node? i with
  | none => .upstream
  | some n => n.verdict s fun t =>
    match g.producerOf? t with
    | none => none
    | some p => if g.order.idxOf p < g.order.idxOf i then (g.evaluate s p).value? t else none
termination_by g.order.idxOf i

/-- What becomes of the producer of a specification. -/
def verdictOf? (g : Graph) (s : Snapshot) (t : Specification) : Option Verdict :=
  (g.producerOf? t).map (g.evaluate s)

/-- The value of a specification. -/
def valueOf? (g : Graph) (s : Snapshot) (t : Specification) : Option DataValue :=
  (g.verdictOf? s t).bind (·.value? t)

end Graph

/-! ## The outputs of a node -/

theorem declaredOutputs_eq_ok {produced : Table Specification DataValue} {outputs : List Specification}
    {values : List ComputedValue} (h : declaredOutputs produced outputs = .ok values) :
    values.map (·.specification) = outputs ∧ ∀ v ∈ values, v.value.isMissing = false := by
  induction outputs generalizing produced values with
  | nil =>
    cases h
    simp
  | cons s rest ih =>
    unfold declaredOutputs at h
    split at h
    · next v hv =>
      split at h
      · cases h
      · next hmissing =>
        obtain ⟨others, hothers, rfl⟩ := map_eq_ok.1 h
        obtain ⟨hspec, hall⟩ := ih hothers
        refine ⟨by rw [List.map_cons, hspec], List.forall_mem_cons.2 ⟨?_, hall⟩⟩
        exact Bool.eq_false_iff.2 hmissing
    · cases h

theorem declaredOutputs_eq_error {produced : Table Specification DataValue} {outputs : List Specification}
    {reason : FailureReason} (h : declaredOutputs produced outputs = .error reason) :
    ∃ s, reason = .missingOutput s := by
  induction outputs generalizing produced with
  | nil => cases h
  | cons s rest ih =>
    unfold declaredOutputs at h
    split at h
    · split at h
      · cases h
        exact ⟨s, rfl⟩
      · cases hrest : declaredOutputs (produced.erase s) rest with
        | ok values =>
          rw [hrest] at h
          cases h
        | error e =>
          rw [hrest] at h
          cases h
          exact ih hrest
    · cases h
      exact ⟨s, rfl⟩

theorem Verdict.ofExcept_eq_ok {x : Except FailureReason (List ComputedValue)} {values : List ComputedValue} :
    Verdict.ofExcept x = .ok values ↔ x = .ok values := by
  cases x <;> simp [Verdict.ofExcept]

theorem Verdict.ofExcept_eq_failed {x : Except FailureReason (List ComputedValue)} {reason : FailureReason} :
    Verdict.ofExcept x = .failed reason ↔ x = .error reason := by
  cases x <;> simp [Verdict.ofExcept]

theorem Verdict.ofExcept_ne_upstream (x : Except FailureReason (List ComputedValue)) :
    Verdict.ofExcept x ≠ .upstream := by
  cases x <;> simp [Verdict.ofExcept]

theorem Verdict.isOk_of_value? {v : Verdict} {t : Specification} {w : DataValue} (h : v.value? t = some w) :
    v.isOk = true := by
  cases v with
  | ok values => rfl
  | failed reason => cases h
  | upstream => cases h

theorem outcomeOf_eq_ok {id : String} {outputs : List Specification} {e : Evaluation}
    {values : List ComputedValue} (h : outcomeOf id outputs e = .ok values) :
    values.map (·.specification) = outputs ∧ ∀ v ∈ values, v.value.isMissing = false := by
  unfold outcomeOf at h
  split at h
  · cases h
  · exact declaredOutputs_eq_ok h

theorem outcomeOf_eq_error {id : String} {outputs : List Specification} {e : Evaluation}
    {reason : FailureReason} (h : outcomeOf id outputs e = .error reason) : reason.IsOwn := by
  unfold outcomeOf at h
  split at h
  · cases h
    trivial
  · obtain ⟨s, rfl⟩ := declaredOutputs_eq_error h
    trivial

section
variable {n : Node} {s : Snapshot} {key : MarketDataKey}

theorem Node.readMarketData_eq_ok {values : List ComputedValue} (h : n.readMarketData key s = .ok values) :
    values.map (·.specification) = n.outputs ∧ ∀ v ∈ values, v.value.isMissing = false := by
  unfold readMarketData at h
  split at h
  · next v hv =>
    split at h
    · cases h
    · next hmissing =>
      cases h
      refine ⟨by rw [List.map_map]; exact List.map_id _, fun w hw => ?_⟩
      obtain ⟨o, -, rfl⟩ := List.mem_map.1 hw
      exact Bool.eq_false_iff.2 hmissing
  · cases h

theorem Node.readMarketData_eq_error {reason : FailureReason}
    (h : n.readMarketData key s = .error reason) : reason = .missingMarketData key := by
  unfold readMarketData at h
  split at h
  · split at h
    · cases h
      rfl
    · cases h
  · cases h
    rfl

variable {value? : Specification → Option DataValue}

/-- A node that succeeds yields a value for each output, and none of them is missing. -/
theorem Node.verdict_eq_ok {values : List ComputedValue} (h : n.verdict s value? = .ok values) :
    values.map (·.specification) = n.outputs ∧ ∀ v ∈ values, v.value.isMissing = false := by
  unfold verdict at h
  split at h
  · exact readMarketData_eq_ok (Verdict.ofExcept_eq_ok.1 h)
  · split at h
    · exact outcomeOf_eq_ok (Verdict.ofExcept_eq_ok.1 h)
    · cases h

/-- A node that fails by itself blames neither another node nor the cache. -/
theorem Node.verdict_eq_failed {reason : FailureReason} (h : n.verdict s value? = .failed reason) :
    reason.IsOwn := by
  unfold verdict at h
  split at h
  · rw [readMarketData_eq_error (Verdict.ofExcept_eq_failed.1 h)]
    trivial
  · split at h
    · exact outcomeOf_eq_error (Verdict.ofExcept_eq_failed.1 h)
    · cases h

theorem Node.verdict_congr {value?' : Specification → Option DataValue}
    (h : ∀ t ∈ n.inputs, value? t = value?' t) : n.verdict s value? = n.verdict s value?' := by
  have hall : (∀ t ∈ n.inputs, (value? t).isSome) ↔ ∀ t ∈ n.inputs, (value?' t).isSome :=
    forall₂_congr fun t ht => by rw [h t ht]
  have hvalues : n.inputValues value? = n.inputValues value?' :=
    List.filterMap_congr fun t ht => by rw [h t ht]
  unfold verdict
  simp only [hall, hvalues]

end

/-! ## The recursion -/

namespace Graph

section
variable {g : Graph} {s : Snapshot} {i : Nat} {n : Node}

/-- What becomes of a node follows from the values of its inputs. -/
theorem evaluate_eq (h : g.Runnable) (hn : g.node? i = some n) :
    g.evaluate s i = n.verdict s (g.valueOf? s) := by
  rw [evaluate, hn]
  refine Node.verdict_congr fun t ht => ?_
  obtain ⟨p, hp, hlt⟩ := h.producer_before i n hn t ht
  rw [valueOf?, verdictOf?, hp]
  simp [hlt]

/-- A graph means the same on snapshots with the same values. -/
theorem evaluate_congr (g : Graph) {s s' : Snapshot} (h : ∀ k, s.get? k = s'.get? k) (i : Nat) :
    g.evaluate s i = g.evaluate s' i := by
  induction hk : g.order.idxOf i using Nat.strong_induction_on generalizing i with
  | _ k ih =>
    subst hk
    rw [evaluate, evaluate]
    cases g.node? i with
    | none => rfl
    | some n =>
      have hverdict : ∀ value?, n.verdict s value? = n.verdict s' value? := fun value? => by
        simp only [Node.verdict, Node.readMarketData, h]
      refine (hverdict _).trans (Node.verdict_congr fun t _ => ?_)
      cases g.producerOf? t with
      | none => rfl
      | some p =>
        by_cases hlt : g.order.idxOf p < g.order.idxOf i
        · simp only [hlt, if_true]
          rw [ih _ hlt p rfl]
        · simp only [hlt, if_false]

theorem verdictOf?_congr (g : Graph) {s s' : Snapshot} (h : ∀ k, s.get? k = s'.get? k) :
    g.verdictOf? s = g.verdictOf? s' := by
  have hevaluate : g.evaluate s = g.evaluate s' := funext (g.evaluate_congr h)
  funext t
  rw [verdictOf?, verdictOf?, hevaluate]

theorem valueOf?_congr (g : Graph) {s s' : Snapshot} (h : ∀ k, s.get? k = s'.get? k) :
    g.valueOf? s = g.valueOf? s' := by
  funext t
  rw [valueOf?, valueOf?, g.verdictOf?_congr h]

theorem specifications_of_evaluate (h : g.Runnable) (hn : g.node? i = some n) {values : List ComputedValue}
    (hv : g.evaluate s i = .ok values) :
    values.map (·.specification) = n.outputs ∧ ∀ v ∈ values, v.value.isMissing = false := by
  rw [evaluate_eq h hn] at hv
  exact Node.verdict_eq_ok hv

/-- A failure that does not come from upstream does not look like one. -/
theorem isOwn_of_evaluate (h : g.Runnable) {reason : FailureReason}
    (hv : g.evaluate s i = .failed reason) : reason.IsOwn := by
  cases hn : g.node? i with
  | none =>
    rw [evaluate, hn] at hv
    cases hv
  | some n =>
    rw [evaluate_eq h hn] at hv
    exact Node.verdict_eq_failed hv

/-- A node that succeeds has a value for each of its outputs. -/
theorem value?_isSome_iff (h : g.Runnable) (hn : g.node? i = some n) {t : Specification} :
    ((g.evaluate s i).value? t).isSome ↔ (g.evaluate s i).isOk ∧ t ∈ n.outputs := by
  cases hv : g.evaluate s i with
  | ok values =>
    rw [← (specifications_of_evaluate h hn hv).1]
    simp [Verdict.value?, Verdict.isOk, List.find?_isSome]
  | failed reason => simp [Verdict.value?, Verdict.isOk]
  | upstream => simp [Verdict.value?, Verdict.isOk]

theorem node?_of_isOk (h : (g.evaluate s i).isOk) : ∃ n, g.node? i = some n := by
  cases hn : g.node? i with
  | some n => exact ⟨n, rfl⟩
  | none =>
    rw [evaluate, hn] at h
    cases h

/-- Only the producer of a specification yields a value for it. -/
theorem producerOf?_of_value? (h : g.Runnable) {t : Specification} {v : DataValue}
    (hv : (g.evaluate s i).value? t = some v) : g.producerOf? t = some i := by
  obtain ⟨n, hn⟩ := node?_of_isOk (Verdict.isOk_of_value? hv)
  have ht := ((value?_isSome_iff h hn).1 (by rw [hv]; rfl)).2
  exact (h.producerOf?_eq_some_iff t i).2 ⟨n, hn, ht⟩

theorem mem_outputsOf_of_value? (h : g.Runnable) {t : Specification} {v : DataValue}
    (hv : (g.evaluate s i).value? t = some v) : t ∈ g.outputsOf i :=
  mem_outputsOf_iff.2 ((h.producerOf?_eq_some_iff t i).1 (producerOf?_of_value? h hv))

theorem eq_of_value? (h : g.Runnable) {j : Nat} {t : Specification} {v w : DataValue}
    (hi : (g.evaluate s i).value? t = some v) (hj : (g.evaluate s j).value? t = some w) : i = j := by
  have hi' := producerOf?_of_value? h hi
  have hj' := producerOf?_of_value? h hj
  exact Option.some.inj (hi'.symm.trans hj')

/-- The value of an input is the one that its producer yields. -/
theorem valueOf?_isSome_iff (h : g.Runnable) {t : Specification} {p : Nat} (hp : g.producerOf? t = some p) :
    (g.valueOf? s t).isSome ↔ (g.evaluate s p).isOk := by
  obtain ⟨m, hm, ht⟩ := (h.producerOf?_eq_some_iff t p).1 hp
  rw [valueOf?, verdictOf?, hp, Option.map_some, Option.bind_some, value?_isSome_iff h hm]
  simp [ht]

theorem evaluate_marketData (h : g.Runnable) (hn : g.node? i = some n) {key : MarketDataKey}
    (hkey : n.kind = .marketData key) : g.evaluate s i = .ofExcept (n.readMarketData key s) := by
  rw [evaluate_eq h hn, Node.verdict, hkey]

/-- A node fails when one that it depends on has failed. -/
theorem evaluate_upstream (h : g.Runnable) {j : Nat} (hj : j ∈ g.dependenciesOf i)
    (hfails : (g.evaluate s j).isOk = false) : g.evaluate s i = .upstream := by
  obtain ⟨n, hn, t, ht, hp⟩ := (h.mem_dependenciesOf i j).1 hj
  rw [evaluate_eq h hn, Node.verdict]
  split
  · next key hkey =>
    rw [h.dependenciesOf_eq_nil hn hkey] at hj
    cases hj
  · refine if_neg fun hall => ?_
    have hok := (valueOf?_isSome_iff h hp).1 (hall t ht)
    rw [hfails] at hok
    cases hok

/-- What lies behind a failure fails too. -/
theorem evaluate_downstream (h : g.Runnable) {j : Nat} (hfails : (g.evaluate s i).isOk = false)
    (hj : j ∈ g.downstream i) : g.evaluate s j = .upstream := by
  rw [h.mem_downstream_iff] at hj
  induction hj with
  | single he => exact evaluate_upstream h ((h.mem_dependentsOf _ _).1 he) hfails
  | tail _ he ih => exact evaluate_upstream h ((h.mem_dependentsOf _ _).1 he) (by rw [ih]; rfl)

/-- A call yields what its function makes of the inputs when all that it depends on have succeeded. -/
theorem evaluate_call (h : g.Runnable) (hn : g.node? i = some n) {f : CalculationFunction}
    (hf : n.kind = .function f) (hok : ∀ j ∈ g.dependenciesOf i, (g.evaluate s j).isOk) :
    g.evaluate s i =
      .ofExcept (f.invoke n.target (.ofList (n.inputValues (g.valueOf? s))) n.outputs) := by
  rw [evaluate_eq h hn, Node.verdict, hf]
  refine if_pos fun t ht => ?_
  obtain ⟨p, hp, -⟩ := h.producer_before i n hn t ht
  exact (valueOf?_isSome_iff h hp).2 (hok p ((h.mem_dependenciesOf i p).2 ⟨n, hn, t, ht, hp⟩))

end

end Graph
end Valuation
