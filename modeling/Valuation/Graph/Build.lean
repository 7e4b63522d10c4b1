import Valuation.Definition
import Valuation.Function.Repository
import Valuation.Graph.Availability
import Valuation.Graph.Basic

/-!
# Building a graph

A specification is resolved by the first function that can compute it, once the function's
requirements are resolved, and otherwise by market data. Calls of one function on one target share a
node, which gathers the outputs asked of it and the inputs that they need. A requirement that leads
back to itself, in resolving or after calls have been merged, is a cyclic dependency. Resolving keeps a
log of what functions are consulted about; there is no other way to the requirements (`consult`).
-/
namespace Valuation
namespace Graph

/-! ## Nodes -/

/-- Appends the elements that are not in a list yet. -/
def union (xs ys : List Specification) : List Specification :=
  ys.foldl (fun seen y => if y ∈ seen then seen else seen ++ [y]) xs

/-- Files an output under the call that computes it: a node of its own, or the call's earlier one. -/
def addCall (nodes : List Node) (f : CalculationFunction) (output : Specification)
    (inputs : List Specification) : List Node :=
  match nodes.findIdx? fun n => n.isCall f.id output.target with
  | some i =>
    nodes.modify i fun n =>
      { n with outputs := union n.outputs [output], inputs := union n.inputs inputs }
  | none => nodes ++ [⟨nodes.length, output.target, .function f, union [] inputs, [output]⟩]

/-- A node that reads market data for one specification. -/
def addMarketData (nodes : List Node) (s : Specification) : List Node :=
  nodes ++ [⟨nodes.length, s.target, .marketData s.marketDataKey, [], [s]⟩]

/-! ## Resolving -/

/-- The way from a specification on the stack back to itself; the stack has its newest element
first. -/
def cyclePath (stack : List Specification) (s : Specification) : List Specification :=
  s :: (stack.takeWhile fun t => t ≠ s).reverse ++ [s]

/-- A specification that a function is consulted about, and the stack below it. -/
structure Consultation where
  specification : Specification
  below : List Specification

/-- The stack while the requirements are resolved. -/
def Consultation.stack (q : Consultation) : List Specification := q.specification :: q.below

/-- What resolving comes to: a result or an error, and the consultations so far, the first one first; or
nothing when requirements lead on without end. -/
abbrev Resolution := ExceptT EngineError (StateT (List Consultation) Option)

/-- Asks a function for the requirements of a specification, and writes it down. -/
def consult (f : CalculationFunction) (stack : List Specification) (s : Specification) :
    Resolution (List Specification) := do
  modify (· ++ [⟨s, stack⟩])
  return f.requirements s

/-- What resolves one specification, given the stack and the nodes at hand. -/
abbrev Resolver :=
  FunctionRepository → Availability → List Specification → List Node → Specification →
    Resolution (List Node)

/-- Adds the nodes that a specification needs, and keeps a log. `stack` holds the specifications whose
requirements are being resolved. -/
def resolveLogged (r : FunctionRepository) (a : Availability) (stack : List Specification)
    (nodes : List Node) (s : Specification) (log : List Consultation) :
    Option (Except EngineError (List Node) × List Consultation) :=
  if (producer? nodes s).isSome then some (.ok nodes, log)
  else if s ∈ stack then some (.error (.cyclicDependency (cyclePath stack s)), log)
  else
    match r.resolve? s with
    | some f => StateT.run (ExceptT.run do
        let inputs ← consult f stack s
        -- named by a tactic, which leaves no source position behind in the definition
        let resolved ← inputs.foldlM
          (fun nodes t => (by apply resolveLogged : Resolver) r a (s :: stack) nodes t) nodes
        return addCall resolved f s inputs) log
    | none =>
      if a.isAvailable s.marketDataKey then some (.ok (addMarketData nodes s), log)
      else some (.error (.unsatisfiedDependency s), log)
partial_fixpoint

/-- Adds the nodes that some specifications need, one after the other, and keeps a log. -/
def resolveAllLogged (r : FunctionRepository) (a : Availability) (stack : List Specification)
    (nodes : List Node) (ss : List Specification) (log : List Consultation) :
    Option (Except EngineError (List Node) × List Consultation) :=
  StateT.run (ExceptT.run
    (ss.foldlM (fun nodes s => (resolveLogged r a stack nodes s : Resolution (List Node))) nodes)) log

/-- Adds the nodes that a specification needs. -/
def resolve (r : FunctionRepository) (a : Availability) (stack : List Specification)
    (nodes : List Node) (s : Specification) : Option (Except EngineError (List Node)) :=
  (resolveLogged r a stack nodes s []).map (·.1)

/-- Adds the nodes that some specifications need, one after the other. -/
def resolveAll (r : FunctionRepository) (a : Availability) (stack : List Specification)
    (nodes : List Node) (ss : List Specification) : Option (Except EngineError (List Node)) :=
  (resolveAllLogged r a stack nodes ss []).map (·.1)

/-! ## Edges and order -/

/-- The node that produces an input. -/
def requireProducer (nodes : List Node) (s : Specification) : Except EngineError Nat :=
  match producer? nodes s with
  | some i => .ok i
  | none => .error (.internal ("unresolved input " ++ s.display))

/-- The producers of a node's inputs, in ascending order. -/
def producers (nodes : List Node) (n : Node) : Except EngineError (List Nat) := do
  let found ← n.inputs.mapM (requireProducer nodes)
  return (OrderedSet.ofList found).toList

/-- An edge from each dependency of each node, node by node. -/
def edgesOf (dependencies : List (List Nat)) : List (Nat × Nat) :=
  dependencies.zipIdx.flatMap fun (producers, i) => producers.map fun p => (p, i)

/-- Where the edges lead that leave a node. -/
def successors (edges : List (Nat × Nat)) (i : Nat) : List Nat :=
  (edges.filter fun e => e.1 = i).map (·.2)

/-- The outputs of a node on a cycle, closed to a path. -/
def closedOutputs (nodes : List Node) (i : Nat) : List Specification :=
  match nodes[i]? with
  | some n => n.outputs ++ n.outputs.take 1
  | none => []

/-- Orders the nodes of a graph, unless their calls depend on each other. -/
def ofNodes (name : String) (terminals : List Specification) (nodes : List Node) :
    Except EngineError Graph := do
  let dependencies ← nodes.mapM (producers nodes)
  let edges := edgesOf dependencies
  let dependents := (List.range nodes.length).map (successors edges)
  match Search.topologicalOrder nodes.length (dependents.getD · []) (dependencies.getD · []) with
  | .ok order => return { name, nodes, edges, dependencies, dependents, order, terminals }
  | .error i => throw (.cyclicDependency (closedOutputs nodes i))

/-- Stands for the answer of a compilation that has none, because its requirements lead on without end. Where
they are finitely many, compiling has an answer of its own. -/
def neverEnds : EngineError := .internal "requirements lead on without end"

/-- The graph of a view. -/
def compile (r : FunctionRepository) (a : Availability) (d : ViewDefinition) :
    Except EngineError Graph :=
  match resolveAll r a [] [] d.terminals with
  | some (.ok nodes) => ofNodes d.name d.terminals nodes
  | some (.error e) => .error e
  | none => .error neverEnds

end Graph
end Valuation
