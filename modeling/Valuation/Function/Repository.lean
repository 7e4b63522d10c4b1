import Valuation.Error
import Valuation.Function.Basic

/-!
# Function repositories

Functions in the order of their registration, each under an identifier of its own. The first one that
can compute a specification resolves it.
-/
namespace Valuation

structure FunctionRepository where
  functions : List CalculationFunction := []
  ids_nodup : (functions.map (·.id)).Nodup := by simp

namespace FunctionRepository

def empty : FunctionRepository := {}

def size (r : FunctionRepository) : Nat := r.functions.length

/-- Whether a function is registered under an identifier. -/
def hasId (r : FunctionRepository) (id : String) : Bool := r.functions.any fun f => f.id = id

theorem ids_nodup_append {r : FunctionRepository} {f : CalculationFunction} (h : ¬r.hasId f.id) :
    ((r.functions ++ [f]).map (·.id)).Nodup := by
  have hf : ∀ g ∈ r.functions, g.id ≠ f.id := by simpa [hasId] using h
  rw [List.map_append, List.nodup_append]
  exact ⟨r.ids_nodup, by simp, by simpa using hf⟩

/-- Adds a function, unless its identifier is taken. -/
def register (r : FunctionRepository) (f : CalculationFunction) : Except EngineError FunctionRepository :=
  if h : r.hasId f.id then .error (.config ("duplicate function id: " ++ f.id))
  else .ok ⟨r.functions ++ [f], ids_nodup_append h⟩

/-- A repository of the given functions, if their identifiers differ. -/
def ofList (fs : List CalculationFunction) : Except EngineError FunctionRepository :=
  fs.foldlM register empty

/-- The function that computes a specification. -/
def resolve? (r : FunctionRepository) (s : Specification) : Option CalculationFunction :=
  r.functions.find? fun f => f.resolves s

theorem resolves_of_resolve? {r : FunctionRepository} {s : Specification} {f : CalculationFunction}
    (h : r.resolve? s = some f) : f ∈ r.functions ∧ f.resolves s := by
  unfold resolve? at h
  exact ⟨List.mem_of_find?_eq_some h, by simpa using List.find?_some h⟩

end FunctionRepository
end Valuation
