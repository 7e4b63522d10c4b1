import Valuation.Function.Formula
import Valuation.Function.Repository
import Valuation.Scenario.Value

/-!
# Functions in scenarios

A function is described by its identifier, the names and target kinds that it covers, what it
requires, and a formula.
-/
namespace Valuation
namespace Scenario

/-! ## Formulas -/

def functionError? (kind what : String) : Option FunctionError :=
  match kind with
  | "MissingInput" => some (.missingInput what)
  | "InvalidInput" => some (.invalidInput what)
  | "Calculation" => some (.calculation what)
  | _ => none

def panicText (kind what : String) : Option String :=
  match kind with
  | "str" => some "static panic"
  | "string" => some what
  | _ => none

def bound? : Document → Option Float
  | .text s => float? s
  | d => d.float?

/-- Formulas are not nested deeper than documents are. -/
def formulaDepth : Nat := 128

/-- A formula with others nested in it up to a depth. -/
def formula? (depth : Nat) (d : Document) : Option Formula :=
  match depth with
  | 0 => none
  | depth + 1 => do
    match ← d.textField? "fn" with
    | "const" => return .const (← d.read? "value" value?)
    | "missing" => return .const .missing
    | "echo" => return .outputText
    | "sum" => return .sum (← floatOr? d "start" "0.0")
    | "product" => return .product (← d.readEach? "names" Document.text?) (← floatOr? d "times" "1.0")
    | "copy" => return .copy (← d.textField? "name")
    | "concat" => return .listing
    | "count" => return .count
    | "error" => return .error (← functionError? (← d.textField? "kind") (d.textOr "msg" ""))
    | "panic" => return .panic (panicText (← d.textField? "kind") (d.textOr "msg" ""))
    | "guard" =>
      return .atLeast (← d.textField? "name") (← d.read? "min" bound?) (← d.read? "then" (formula? depth))
    | "cancel" => return .cancelling (← d.read? "then" (formula? depth))
    | "by_output" =>
      match ← d.field? "map" with
      | .record fs => return .byOutput (← fs.mapM fun f => (formula? depth f.2).map fun x => (f.1, x))
      | _ => none
    | _ => none

def row? : Document → Option (String × Properties × DataValue)
  | .list [n, p, v] => do return (← n.text?, ← Properties.ofDocument? p, ← value? v)
  | _ => none

/-- What a function does; a table of rows is computed as a whole, and so is everything that a raw
function computes. -/
def rule? (raw : Bool) : Option Document → Option Rule
  | none => some .nothing
  | some d => do
    if d.textField? "fn" = some "table" then return .fixed (← d.readEach? "rows" row?)
    else
      let f ← formula? formulaDepth d
      return if raw then .together f else .each f

/-! ## Functions -/

def requirement? (d : Document) : Option RequirementRule := do
  return {
    name := ← d.textField? "name"
    target := ← d.readIf? "target" target?
    properties := ← match d.field? "props" with
      | some (.text _) => some none
      | some p => (Properties.ofDocument? p).map some
      | none => some (some ∅)
    outputs := ← d.readIf? "for" (Document.items? Document.text?) }

/-- A raw function applies to every target of its kinds and does not require inputs by name. -/
def function? (d : Document) : Option CalculationFunction := do
  let id ← d.textField? "id"
  let raw := d.flagOr "raw" false
  let kinds ← d.readIf? "kinds" (Document.items? kind?)
  let names ← d.readEach? "names" Document.text?
  let inputs ← d.readEach? "inputs" Document.text?
  let requirements ← d.readIf? "reqs" (Document.items? requirement?)
  let rule ← rule? raw (d.field? "do")
  return {
    id
    targetKinds := kinds.getD [.position]
    valueNames := names
    accepts := fun t => raw || (d.textField? "applies").all fun start => t.id.text.startsWith start
    requirements := match requirements with
      | some rules => fun output => rules.filterMap fun r => r.apply? output
      | none => CalculationFunction.inputsOnTarget (if raw then [] else inputs)
    execute := rule.execute id }

/-- The functions of a scenario in a repository, if they are different. -/
def repository? (d : Document) : Option (Except EngineError FunctionRepository) := do
  return FunctionRepository.ofList (← d.readEach? "functions" function?)

end Scenario
end Valuation
