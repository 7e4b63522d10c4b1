import Valuation.Graph.Build

/-!
# The graph compiler

Compiles views with a repository of functions and keeps the latest graphs for reuse. A graph is kept
under the view's definition and the fingerprint of the market data that it was compiled against. The
oldest entry leaves first, whether it has been used or not. A call of `compile` is a look-up, which
counts a hit or a miss, and after a miss an insertion; other calls may come between the two.
-/
namespace Valuation

/-- What a kept graph was compiled from. -/
structure GraphKey where
  definition : ViewDefinition
  fingerprint : Fingerprint
deriving DecidableEq

/-- A compiled graph with a number that tells it apart from all others of its compiler. -/
structure CompiledGraph where
  serial : Nat
  graph : Graph

structure GraphCompiler where
  repository : FunctionRepository
  capacity : Nat
  /-- The keys of the kept graphs, the oldest first. -/
  queue : List GraphKey := []
  entries : List (GraphKey × CompiledGraph) := []
  hits : Nat := 0
  misses : Nat := 0
  nextSerial : Nat := 0

namespace GraphCompiler

/-- A compiler that keeps at least one graph. -/
def ofRepository (r : FunctionRepository) (cacheSize : Nat) : GraphCompiler :=
  { repository := r, capacity := max cacheSize 1 }

def key (d : ViewDefinition) (a : Availability) : GraphKey := ⟨d, a.fingerprint⟩

/-- The graph kept under a key. -/
def find? (c : GraphCompiler) (k : GraphKey) : Option CompiledGraph :=
  (c.entries.find? fun e => e.1 = k).map (·.2)

def cachedGraphs (c : GraphCompiler) : Nat := c.entries.length

/-- The graph of a view, without looking at the kept ones. -/
def compileUncached (c : GraphCompiler) (d : ViewDefinition) (a : Availability) :
    Except EngineError Graph :=
  Graph.compile c.repository a d

/-- Looks a key up and counts a hit or a miss. -/
def lookup (c : GraphCompiler) (k : GraphKey) : Option CompiledGraph × GraphCompiler :=
  match c.find? k with
  | some g => (some g, { c with hits := c.hits + 1 })
  | none => (none, { c with misses := c.misses + 1 })

/-- Drops the oldest keys and their graphs until the queue fits. -/
def evict (capacity : Nat) : List GraphKey → List (GraphKey × CompiledGraph) →
    List GraphKey × List (GraphKey × CompiledGraph)
  | [], entries => ([], entries)
  | k :: rest, entries =>
    if capacity < rest.length + 1 then evict capacity rest (entries.filter fun e => e.1 ≠ k)
    else (k :: rest, entries)

/-- Keeps a new graph, unless the key has come to hold one since it was looked up. The graph that the
key then holds is the answer. -/
def insert (c : GraphCompiler) (k : GraphKey) (g : Graph) : CompiledGraph × GraphCompiler :=
  match c.find? k with
  | some existing => (existing, c)
  | none =>
    let compiled : CompiledGraph := ⟨c.nextSerial, g⟩
    let (queue, entries) := evict c.capacity (c.queue ++ [k]) (c.entries ++ [(k, compiled)])
    (compiled, { c with queue, entries, nextSerial := c.nextSerial + 1 })

/-- The graph of a view, a kept one if there is one. -/
def compile (c : GraphCompiler) (d : ViewDefinition) (a : Availability) :
    Except EngineError CompiledGraph × GraphCompiler :=
  let k := key d a
  match c.lookup k with
  | (some g, c) => (.ok g, c)
  | (none, c) =>
    match c.compileUncached d a with
    | .error e => (.error e, c)
    | .ok g =>
      let (compiled, c) := c.insert k g
      (.ok compiled, c)

/-- Forgets all kept graphs. -/
def invalidate (c : GraphCompiler) : GraphCompiler := { c with queue := [], entries := [] }

end GraphCompiler
end Valuation
