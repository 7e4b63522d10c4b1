import Valuation.Function.Basic

/-!
# Formulas

Calculation functions given by data instead of code. A `Formula` says how one output is computed from
the inputs of a call, which are taken in the order of their specifications. A `RequirementRule` says
what an output requires.
-/
namespace Valuation

/-! ## Formulas -/

inductive Formula where
  | const (value : DataValue)
  /-- The display text of the output itself. -/
  | outputText
  /-- The sum of all numeric inputs, on top of a start. -/
  | sum (start : Float)
  /-- The product of named inputs, times a factor. -/
  | product (names : List String) (factor : Float)
  | copy (name : String)
  /-- All inputs as text. -/
  | listing
  | count
  | error (cause : FunctionError)
  | panic (text : Option String)
  /-- Another formula, provided that an input is not below a bound. -/
  | atLeast (name : String) (bound : Float) (next : Formula)
  /-- Another formula, and a request to cancel. -/
  | cancelling (next : Formula)
  /-- A formula for each name of an output. -/
  | byOutput (cases : List (String × Formula))

namespace Formula

def failed (cause : FunctionError) : Computation := { result := .error (.error cause) }

def ofExcept : Except FunctionError DataValue → Computation
  | .ok v => { result := .ok v }
  | .error cause => failed cause

/-- The sum of the numeric inputs, in their order. -/
def sumOf (start : Float) (i : FunctionInputs) : Float :=
  (i.toList.filterMap fun e => e.2.toFloat?).foldl (· + ·) start

def productOf (names : List String) (factor : Float) (i : FunctionInputs) : Except FunctionError Float :=
  names.foldlM (fun acc name => (i.floatByName name).map fun x => acc * x) factor

def listingOf (i : FunctionInputs) : String :=
  ";".intercalate (i.toList.map fun e => e.1.display ++ "=" ++ e.2.display)

/-- The inputs that are below the bound of a formula are refused with their value. -/
def tooSmall (name : String) (x : Float) : FunctionError :=
  .invalidInput (name ++ " is " ++ Binary64.display x)

mutual

/-- Computes one output. -/
def evaluate (i : FunctionInputs) (output : Specification) : Formula → Computation
  | .const v => { result := .ok v }
  | .outputText => { result := .ok (.text output.display) }
  | .sum start => { result := .ok (.float (sumOf start i)) }
  | .product names factor => ofExcept ((productOf names factor i).map .float)
  | .copy name =>
    match i.byName? name with
    | some v => { result := .ok v }
    | none => failed (.missingInput name)
  | .listing => { result := .ok (.text (listingOf i)) }
  | .count => { result := .ok (.float (Binary64.ofNat i.size)) }
  | .error cause => failed cause
  | .panic text => { result := .error (.panic text) }
  | .atLeast name bound next =>
    match i.floatByName name with
    | .error cause => failed cause
    | .ok x => if x < bound then failed (tooSmall name x) else evaluate i output next
  | .cancelling next => { evaluate i output next with cancels := true }
  | .byOutput cases => evaluateCase i output cases

def evaluateCase (i : FunctionInputs) (output : Specification) : List (String × Formula) → Computation
  | [] => failed (.calculation ("no formula for " ++ output.name))
  | (name, f) :: rest => if name = output.name then evaluate i output f else evaluateCase i output rest

end

end Formula

/-! ## Whole computations -/

/-- How a function computes the outputs of a call. -/
inductive Rule where
  /-- Output by output. -/
  | each (f : Formula)
  /-- Output by output, but reported as one attempt. -/
  | together (f : Formula)
  /-- Fixed values on the target of the call, whatever is asked for. -/
  | fixed (rows : List (String × Properties × DataValue))
  | nothing

namespace Rule

def execute (functionId : String) (rule : Rule) (t : Target) (i : FunctionInputs)
    (outputs : List Specification) : Evaluation :=
  match rule with
  | .each f => CalculationFunction.oneByOne (fun o => f.evaluate i o) outputs
  | .together f =>
    { CalculationFunction.oneByOne (fun o => f.evaluate i o) outputs with attempts := [outputs] }
  | .fixed rows =>
    { result := .ok (rows.map fun r => ⟨⟨t, r.1, r.2.1⟩, r.2.2⟩), attempts := [outputs] }
  | .nothing => CalculationFunction.withoutComputation functionId

end Rule

/-! ## Requirements -/

/-- One value that outputs require. -/
structure RequirementRule where
  name : String
  /-- Its target, if it is not that of the output. -/
  target : Option Target := none
  /-- Its properties, if they are not those of the output. -/
  properties : Option Properties := some ∅
  /-- The names of the outputs that require it, if not all do. -/
  outputs : Option (List String) := none

/-- What an output requires by a rule. -/
def RequirementRule.apply? (r : RequirementRule) (output : Specification) : Option Specification :=
  if r.outputs.all fun names => names.contains output.name then
    some ⟨r.target.getD output.target, r.name, r.properties.getD output.properties⟩
  else none

end Valuation
