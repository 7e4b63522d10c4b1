import Valuation.Execution.Cache
import Valuation.Graph.Basic
import Valuation.Snapshot

/-!
# Computing one node

What a node yields from the cached values and a snapshot, and why it may fail. A call yields the
declared outputs and nothing else, each from the last value produced for it (`outcomeOf`); it fails
if one of them is absent or missing. Nothing is written if one of the values is cached already
(`writeOutputs`).
-/
namespace Valuation

/-! ## Reasons for failure -/

/-- Why a node failed. -/
inductive FailureReason where
  | functionError (what : String)
  | missingMarketData (key : MarketDataKey)
  | missingInput (specification : Specification)
  | missingOutput (specification : Specification)
  | dependencyFailure (dependency : Specification)
  | duplicateValue (specification : Specification)
deriving DecidableEq, Inhabited

def FailureReason.message : FailureReason → String
  | .functionError s => "function error: " ++ s
  | .missingMarketData key => "missing market data: " ++ key.display
  | .missingInput s => "missing input: " ++ s.display
  | .missingOutput s => "missing output: " ++ s.display
  | .dependencyFailure s => "upstream failure: " ++ s.display
  | .duplicateValue s => "duplicate value: " ++ s.display

/-- The text of a fault of a function. -/
def Fault.message (functionId : String) : Fault → String
  | .error e => functionId ++ ": " ++ e.message
  | .panic text => functionId ++ " panicked: " ++ text.getD "unknown panic"

/-! ## Calls -/

/-- One call of a function in a run. -/
structure Invocation where
  node : Nat
  functionId : String
  target : Target
  inputs : FunctionInputs
  evaluation : Evaluation
  /-- What was cached when the call was made. -/
  cache : ComputationCache

namespace Node

/-- The inputs of a node, if all of them are cached. -/
def gatherInputs (n : Node) (c : ComputationCache) : Except FailureReason FunctionInputs :=
  match n.inputs.find? fun s => !c.contains s with
  | some s => .error (.missingInput s)
  | none => .ok (.ofList (c.getMany n.inputs))

/-- A market data input: the value of its key, unless that is absent or missing. -/
def readMarketData (n : Node) (key : MarketDataKey) (s : Snapshot) :
    Except FailureReason (List ComputedValue) :=
  match s.get? key with
  | some v => if v.isMissing then .error (.missingMarketData key) else .ok (n.outputs.map fun o => ⟨o, v⟩)
  | none => .error (.missingMarketData key)

end Node

/-- The declared outputs, each with the last value produced for it. A declared output that is repeated
is found once only. -/
def declaredOutputs (produced : Table Specification DataValue) :
    List Specification → Except FailureReason (List ComputedValue)
  | [] => .ok []
  | s :: rest =>
    match produced.get? s with
    | some v =>
      if v.isMissing then .error (.missingOutput s)
      else (declaredOutputs (produced.erase s) rest).map (⟨s, v⟩ :: ·)
    | none => .error (.missingOutput s)

/-- What a call yields for its declared outputs. -/
def outcomeOf (functionId : String) (outputs : List Specification) (e : Evaluation) :
    Except FailureReason (List ComputedValue) :=
  match e.result with
  | .error fault => .error (.functionError (fault.message functionId))
  | .ok values =>
    declaredOutputs (Table.ofList (values.map fun v => (v.specification, v.value))) outputs

/-- What a call of a function on given inputs yields. -/
def CalculationFunction.invoke (f : CalculationFunction) (t : Target) (inputs : FunctionInputs)
    (outputs : List Specification) : Except FailureReason (List ComputedValue) :=
  outcomeOf f.id outputs (f.execute t inputs outputs)

/-- Writes values in turn. What is written before one that is refused stays. -/
def putAll (micros : Nat) :
    List ComputedValue → ComputationCache → ComputationCache × Except FailureReason Unit
  | [], c => (c, .ok ())
  | v :: rest, c =>
    match c.put v.specification v.value micros with
    | .ok c => putAll micros rest c
    | .error _ => (c, .error (.duplicateValue v.specification))

/-- Writes the values of a node, unless one of them is cached already. -/
def writeOutputs (c : ComputationCache) (values : List ComputedValue) (micros : Nat) :
    ComputationCache × Except FailureReason Unit :=
  match values.find? fun v => c.contains v.specification with
  | some v => (c, .error (.duplicateValue v.specification))
  | none => putAll micros values c

end Valuation
