import Valuation.Value

/-!
# Calculation functions

A calculation function says which targets it applies to, which values it produces and what each of
them requires, and computes requested outputs from inputs. A call is a pure function of its
arguments; what else it did is part of the answer: the outputs it set about computing and whether it
asked for cancellation.
-/
namespace Valuation

/-! ## Failures of a call -/

inductive FunctionError where
  | missingInput (what : String)
  | invalidInput (what : String)
  | calculation (what : String)
deriving DecidableEq, Inhabited

def FunctionError.message : FunctionError → String
  | .missingInput s => "missing input: " ++ s
  | .invalidInput s => "invalid input: " ++ s
  | .calculation s => "calculation failed: " ++ s

/-- How a call goes wrong: it reports an error, or it breaks off, with or without a text. -/
inductive Fault where
  | error (cause : FunctionError)
  | panic (text : Option String)
deriving DecidableEq, Inhabited

/-! ## Inputs -/

/-- The input values of a call, in the order of their specifications. -/
structure FunctionInputs where
  values : Table Specification DataValue := ∅
deriving Inhabited

namespace FunctionInputs

/-- A repeated specification keeps its last value. -/
def ofList (values : List ComputedValue) : FunctionInputs :=
  ⟨Table.ofList (values.map fun v => (v.specification, v.value))⟩

def get? (i : FunctionInputs) (s : Specification) : Option DataValue := i.values.get? s

def toList (i : FunctionInputs) : List (Specification × DataValue) := i.values.toList

def size (i : FunctionInputs) : Nat := i.values.size

/-- The first value with a given name, whatever its target and properties. -/
def byName? (i : FunctionInputs) (name : String) : Option DataValue :=
  (i.toList.find? fun e => e.1.name = name).map (·.2)

/-- The number with a given name. -/
def floatByName (i : FunctionInputs) (name : String) : Except FunctionError Float :=
  match i.byName? name with
  | none => .error (.missingInput name)
  | some v =>
    match v.toFloat? with
    | some x => .ok x
    | none => .error (.invalidInput (name ++ " is not numeric"))

end FunctionInputs

/-! ## Calls -/

/-- What one call did. -/
structure Evaluation where
  result : Except Fault (List ComputedValue)
  /-- The outputs that it set about computing, in turn, those computed together in one group. -/
  attempts : List (List Specification) := []
  /-- Whether it asked for the run to be cancelled. -/
  cancels : Bool := false

/-- What the computation of one value did. -/
structure Computation where
  result : Except Fault DataValue
  cancels : Bool := false

structure CalculationFunction where
  id : String
  targetKinds : List TargetKind
  valueNames : List String
  /-- Which targets of those kinds it applies to. -/
  accepts : Target → Bool := fun _ => true
  requirements : Specification → List Specification := fun _ => []
  execute : Target → FunctionInputs → List Specification → Evaluation

namespace CalculationFunction

def appliesTo (f : CalculationFunction) (t : Target) : Bool :=
  f.targetKinds.contains t.kind && f.accepts t

def produces (f : CalculationFunction) (name : String) : Bool := f.valueNames.contains name

/-- Whether the function can compute a specification. -/
def resolves (f : CalculationFunction) (s : Specification) : Bool :=
  f.appliesTo s.target && f.produces s.name

/-- Requires values of given names on the output's own target. -/
def inputsOnTarget (names : List String) (output : Specification) : List Specification :=
  names.map fun name => ⟨output.target, name, ∅⟩

/-- Computes requested outputs one at a time, in order; the first fault stops the others. -/
def oneByOne (compute : Specification → Computation) : List Specification → Evaluation
  | [] => { result := .ok [] }
  | s :: rest =>
    let c := compute s
    match c.result with
    | .error fault => { result := .error fault, attempts := [[s]], cancels := c.cancels }
    | .ok value =>
      let e := oneByOne compute rest
      { result := e.result.map (⟨s, value⟩ :: ·)
        attempts := [s] :: e.attempts
        cancels := c.cancels || e.cancels }

/-- The behaviour of a function that was given none. -/
def withoutComputation (id : String) : Evaluation :=
  { result := .error (.error (.calculation (id ++ " has no computation"))) }

end CalculationFunction
end Valuation
