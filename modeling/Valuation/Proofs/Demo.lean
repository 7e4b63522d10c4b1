import Valuation.Batch
import Valuation.Demo
import Valuation.Execution.Strategy
import Valuation.Graph.Compiler
import Valuation.Processor
import Valuation.Proofs.Graph.Compilation
import Valuation.Snapshot

/-!
# The demonstration portfolio

The functions of the demonstration lie in layers (`layered`), so every view of it has a graph
(`compileUncached_isOk`). A view that comes to a single call (`compile_singleView`), or to a single value that is read
(`compile_quoted`), is small enough to be run by hand.
-/
namespace Valuation.Demo

theorem repository_eq_ok : ∃ r, repository = .ok r ∧ r.functions = functions := ⟨_, rfl, rfl⟩

/-- The present value lies above the discount factor and the cash flow, and these above the data. -/
def layer : Vertex → Nat
  | .call id _ => if id = "present-value" then 2 else 1
  | .marketData _ => 0

theorem layer_vertexOf {r : FunctionRepository} (h : r.functions = functions) (s : Specification) :
    layer (vertexOf r s) =
      if s.target.kind ≠ .position then 0
      else if s.name = "PV" then 2
      else if s.name = "DF" ∨ s.name = "CF" then 1
      else 0 := by
  unfold vertexOf FunctionRepository.resolve?
  simp only [h, functions, onPosition, List.find?_cons, List.find?_nil, CalculationFunction.resolves,
    CalculationFunction.appliesTo, CalculationFunction.produces]
  by_cases ht : s.target.kind = .position
  · by_cases hdf : s.name = "DF"
    · simp [layer, ht, hdf]
    by_cases hcf : s.name = "CF"
    · simp [layer, ht, hcf]
    by_cases hpv : s.name = "PV"
    · simp [layer, ht, hpv]
    simp [layer, ht, hdf, hcf, hpv]
  · simp [layer, ht]

theorem layered {r : FunctionRepository} (h : r.functions = functions) : Layered r layer := by
  intro s t ht
  obtain ⟨f, hf⟩ := FunctionRepository.resolve?_of_mem_requirements ht
  rw [FunctionRepository.requirements_of_some hf] at ht
  obtain ⟨hmem, hres⟩ := FunctionRepository.resolves_of_resolve? hf
  rw [layer_vertexOf h, layer_vertexOf h]
  rw [h] at hmem
  simp only [functions, onPosition, List.mem_cons, List.not_mem_nil, or_false] at hmem
  rcases hmem with rfl | rfl | rfl <;>
    simp [CalculationFunction.inputsOnTarget, CalculationFunction.resolves, CalculationFunction.appliesTo,
      CalculationFunction.produces] at ht hres <;>
    rcases ht with rfl | rfl <;> simp [hres]

/-- Any market data is there. -/
def everything : Availability := ⟨fun _ => true, []⟩

/-- Whatever is asked of the demonstration, there is a graph for it once all market data is there. -/
theorem compileUncached_isOk {c : GraphCompiler} (h : c.repository.functions = functions)
    (d : ViewDefinition) : ∃ g, c.compileUncached d everything = .ok g :=
  (Graph.compile_isOk_iff ((layered h).finite_required _)).2
    ⟨fun _ _ => .inr rfl, (layered h).acyclicCalls _⟩

theorem exists_graph (positions : Nat) : ∃ r g, repository = .ok r ∧ r.functions = functions ∧
    (GraphCompiler.ofRepository r 1).compileUncached (definition positions) everything = .ok g := by
  obtain ⟨r, hr, hfunctions⟩ := repository_eq_ok
  obtain ⟨g, hg⟩ := compileUncached_isOk (c := .ofRepository r 1) hfunctions (definition positions)
  exact ⟨r, g, hr, hfunctions, hg⟩

theorem cancels_oneByOne {compute : Specification → Computation} (h : ∀ s, (compute s).cancels = false)
    (outputs : List Specification) : (CalculationFunction.oneByOne compute outputs).cancels = false := by
  induction outputs with
  | nil => rfl
  | cons s rest ih =>
    unfold CalculationFunction.oneByOne
    dsimp only
    split
    · exact h s
    · simp [h, ih]

/-- No function of the demonstration asks for cancellation. -/
theorem cancels_eq_false {f : CalculationFunction} (hf : f ∈ functions) (t : Target) (i : FunctionInputs)
    (outputs : List Specification) : (f.execute t i outputs).cancels = false := by
  simp only [functions, onPosition, List.mem_cons, List.not_mem_nil, or_false] at hf
  rcases hf with rfl | rfl | rfl <;> exact cancels_oneByOne (fun _ => rfl) outputs

/-- The market data of the first positions in one snapshot. -/
def snapshot (positions : Nat) : Snapshot := { id := default, values := .ofList (marketData positions 0) }

/-- Nodes end out of order. Workers go on with the second one in flight early, and with the first one while
others are queued. -/
def outOfOrder : Interleaving :=
  { ends := fun round => round, early := fun _ => [1], meanwhile := fun _ _ => [0] }

/-- In addition, the run is cancelled after some rounds. -/
def cancelledMidway : Interleaving := { outOfOrder with raised := fun round => round < 10 }

/-! ## A single call -/

/-- A function without requirements, whose calls may ask for cancellation. -/
def single (cancels : Bool) : CalculationFunction :=
  { id := "single"
    targetKinds := [.position]
    valueNames := ["V"]
    execute := fun _ _ outputs =>
      CalculationFunction.oneByOne (fun _ => { result := .ok (.text "done"), cancels }) outputs }

def singleView : ViewDefinition :=
  { name := "single", targets := [position 1], requested := [{ name := "V" }] }

/-- One call, and nothing else. -/
def singleGraph (cancels : Bool) : Graph :=
  { name := "single"
    nodes := [⟨0, position 1, .function (single cancels), [], [⟨position 1, "V", ∅⟩]⟩]
    edges := []
    dependencies := [[]]
    dependents := [[]]
    order := [0]
    terminals := [⟨position 1, "V", ∅⟩] }

/-- A vertex without edges is in order. -/
theorem topologicalOrder_alone : Search.topologicalOrder 1 ([[]].getD · []) ([[]].getD · []) = .ok [0] := by
  have hfinished : Search.finishingOrder 1 ([[]].getD · []) = .ok [0] := by
    simp [Search.finishingOrder, Search.depthFirst, Except.map]
  have hcheck : Search.checkOrder 1 ([[]].getD · []) [] [0] = .ok () := by
    simp [Search.checkOrder, Search.reach]
  exact bind_eq_ok.2 ⟨_, hfinished, bind_eq_ok.2 ⟨_, hcheck, rfl⟩⟩

/-- Whatever market data is there, the view comes to the one call. -/
theorem compile_singleView (cancels : Bool) (a : Availability) :
    Graph.compile { functions := [single cancels] } a singleView = .ok (singleGraph cancels) := by
  have hterminals : singleView.terminals = (singleGraph cancels).terminals := rfl
  have hresolve : Graph.resolveLogged { functions := [single cancels] } a [] [] ⟨position 1, "V", ∅⟩ [] =
      some (.ok (singleGraph cancels).nodes, [⟨⟨position 1, "V", ∅⟩, []⟩]) := by
    rw [Graph.resolveLogged]
    rfl
  have hdeps : (singleGraph cancels).nodes.mapM (Graph.producers (singleGraph cancels).nodes) = .ok [[]] := rfl
  unfold Graph.compile Graph.resolveAll
  rw [hterminals, singleGraph, Graph.resolveAllLogged_cons hresolve]
  exact Graph.ofNodes_of_order hdeps topologicalOrder_alone

/-! ## A single value that is read -/

/-- What the single view asks for, when no function computes it. -/
def quoted : Specification := ⟨position 1, "V", ∅⟩

/-- One node for market data, and nothing else. -/
def quotedGraph : Graph :=
  { name := "single"
    nodes := [⟨0, position 1, .marketData quoted.marketDataKey, [], [quoted]⟩]
    edges := []
    dependencies := [[]]
    dependents := [[]]
    order := [0]
    terminals := [quoted] }

theorem compile_quoted {a : Availability} (ha : a.isAvailable quoted.marketDataKey = true) :
    Graph.compile .empty a singleView = .ok quotedGraph := by
  have hterminals : singleView.terminals = [quoted] := rfl
  have hresolve : Graph.resolveLogged .empty a [] [] quoted [] = some (.ok quotedGraph.nodes, []) := by
    rw [Graph.resolveLogged]
    exact if_pos ha
  have hdeps : quotedGraph.nodes.mapM (Graph.producers quotedGraph.nodes) = .ok [[]] := rfl
  unfold Graph.compile Graph.resolveAll
  rw [hterminals, Graph.resolveAllLogged_cons hresolve]
  exact Graph.ofNodes_of_order hdeps topologicalOrder_alone

/-! ## A batch and a process of it -/

/-- The single call, under a strategy with several nodes in flight. -/
def engine : Engine :=
  { compiler := .ofRepository { functions := [single false] } 1, executor := .nodeParallel, now := default }

/-- A process for the single call that has nowhere to take snapshots from. -/
def process : Process := .new ⟨"process"⟩ singleView .unavailable {} 1

/-- The same with a value that is read. -/
def quotes : Engine := { engine with compiler := .ofRepository .empty 1 }

def job : BatchJob := { batch := ⟨"single"⟩, snapshot := default, valuationTime := default }

/-! ## A confidential position -/

/-- Of two positions, one may be seen. About anything else there is no answer. -/
def confidential : EntitlementSource :=
  .fixed fun _ t =>
    if t = .position "P1" then .ok true
    else if t = .position "P2" then .ok false
    else .error (.sourceNotAvailable "no such position")

/-- A value on each of the two positions, the second one given, and a failure on something else. -/
def published (value : DataValue) : ResultModel :=
  { cycle := ⟨"cycle"⟩
    view := "view"
    valuationTime := default
    values := .ofList [
      (.position "P1", .ofList [("V", ⟨⟨.position "P1", "V", ∅⟩, .text "open"⟩)]),
      (.position "P2", .ofList [("V", ⟨⟨.position "P2", "V", ∅⟩, value⟩)])]
    failures := .ofList [(⟨.position "P3", "V", ∅⟩, .functionError "failed")]
    marketData := [⟨⟨.position "P1", "M", ∅⟩, .text "open"⟩, ⟨⟨.position "P2", "M", ∅⟩, value⟩] }

/-- A processor where someone looks at the cycle of that model. -/
def observed : Processor :=
  { config := { permission := .entitlement }
    engine := { engine with
      cycles := .ofList [(⟨"cycle"⟩,
        { id := ⟨"cycle"⟩
          process := ⟨"process"⟩
          options := default
          resultOptions := {}
          result := some (published (.text "secret")) })] }
    permission := .entitlement confidential
    clients := .ofList [(⟨"client"⟩,
      { id := ⟨"client"⟩, user := .onThisMachine "user", heartbeat := default })] }

end Valuation.Demo
