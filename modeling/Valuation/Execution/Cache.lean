import Valuation.Error
import Valuation.Value

/-!
# Computation caches

The values of one cycle. Each specification is written at most once, and never with a missing value.
-/
namespace Valuation

structure CachedValue where
  value : DataValue
  /-- How long the value took to compute, in microseconds. -/
  micros : Nat
deriving Inhabited

structure ComputationCache where
  values : Table Specification CachedValue := ∅
deriving Inhabited

namespace ComputationCache

def empty : ComputationCache := {}

def getCached? (c : ComputationCache) (s : Specification) : Option CachedValue := c.values.get? s

def get? (c : ComputationCache) (s : Specification) : Option DataValue :=
  (c.getCached? s).map (·.value)

def get (c : ComputationCache) (s : Specification) : Except EngineError DataValue :=
  match c.get? s with
  | some v => .ok v
  | none => .error (.valueNotFound s)

def contains (c : ComputationCache) (s : Specification) : Bool := c.values.contains s

def size (c : ComputationCache) : Nat := c.values.size

def isEmpty (c : ComputationCache) : Bool := c.values.isEmpty

/-- Writes a value under a specification that has none. -/
def put (c : ComputationCache) (s : Specification) (value : DataValue) (micros : Nat) :
    Except EngineError ComputationCache :=
  if value.isMissing then .error (.internal ("refusing to cache missing sentinel for " ++ s.display))
  else if c.contains s then .error (.duplicateValue s)
  else .ok ⟨c.values.insert s ⟨value, micros⟩⟩

/-- The cached values of some specifications, in their order. -/
def getMany (c : ComputationCache) (specifications : List Specification) : List ComputedValue :=
  specifications.filterMap fun s => (c.get? s).map fun v => ⟨s, v⟩

/-- The cached values on the targets that satisfy a test, ordered by specification. -/
def query (c : ComputationCache) (test : Target → Bool) : List ComputedValue :=
  (c.values.toList.filter fun e => test e.1.target).map fun e => ⟨e.1, e.2.value⟩

/-- All cached values, ordered by specification. -/
def toList (c : ComputationCache) : List ComputedValue := c.query fun _ => true

def valuesFor (c : ComputationCache) (t : Target) : List ComputedValue := c.query fun u => u = t

end ComputationCache
end Valuation
