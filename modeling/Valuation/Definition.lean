import Valuation.Specification
import Valuation.Time.Instant

/-!
# View definitions

A view asks for values on its targets. `ViewDefinition.terminals` lists the specifications
it asks for, target by target, each once.
-/
namespace Valuation

/-- A value asked for on every target of the given kinds, or of any kind. -/
structure RequestedValue where
  name : String
  properties : Properties := ∅
  kinds : Option (List TargetKind) := none
deriving DecidableEq, Inhabited

namespace RequestedValue

def admits (r : RequestedValue) (t : Target) : Bool :=
  match r.kinds with
  | none => true
  | some kinds => kinds.contains t.kind

def specification (r : RequestedValue) (t : Target) : Specification := ⟨t, r.name, r.properties⟩

end RequestedValue

/-- What a result model shows beside the values asked for. -/
structure ResultOptions where
  intermediates : Bool := false
  marketData : Bool := true
deriving DecidableEq, Inhabited

structure ViewDefinition where
  name : String
  targets : List Target := []
  requested : List RequestedValue := []
  options : ResultOptions := {}
deriving DecidableEq, Inhabited

/-- The elements of a list without repetition, each at its first place. -/
def distinct {α : Type} [DecidableEq α] (xs : List α) : List α :=
  xs.foldl (fun seen x => if x ∈ seen then seen else seen ++ [x]) []

namespace ViewDefinition

/-- Everything the view asks for, with repetitions. -/
def requests (d : ViewDefinition) : List Specification :=
  d.targets.flatMap fun t => (d.requested.filter fun r => r.admits t).map fun r => r.specification t

/-- Everything the view asks for. -/
def terminals (d : ViewDefinition) : List Specification := distinct d.requests

end ViewDefinition

/-- The time that a cycle values at, and the time of the data that it uses. -/
structure CycleOptions where
  valuationTime : Instant
  inputDataTime : Instant
deriving DecidableEq, Inhabited

/-- Both times at one instant. -/
def CycleOptions.atTime (t : Instant) : CycleOptions := ⟨t, t⟩

theorem mem_foldl_distinct {α : Type} [DecidableEq α] (xs seen : List α) (x : α) :
    x ∈ xs.foldl (fun seen x => if x ∈ seen then seen else seen ++ [x]) seen ↔ x ∈ seen ∨ x ∈ xs := by
  induction xs generalizing seen with
  | nil => simp
  | cons y ys ih =>
    rw [List.foldl_cons, ih]
    by_cases h : y ∈ seen
    · simp only [h, if_true, List.mem_cons]
      constructor
      · rintro (hx | hx) <;> simp [hx]
      · rintro (hx | rfl | hx) <;> simp_all
    · simp [h, or_assoc]

@[simp] theorem mem_distinct {α : Type} [DecidableEq α] (xs : List α) (x : α) :
    x ∈ distinct xs ↔ x ∈ xs := by
  simp [distinct, mem_foldl_distinct]

end Valuation
