import Mathlib.Data.List.Nodup
import Mathlib.Data.Set.Finite.Basic
import Mathlib.Logic.Relation
import Valuation.Definition
import Valuation.Function.Repository
import Valuation.Graph.Availability

/-!
# Requirements

What a view needs, said without building a graph. `Required` is the requirement closure of the
specifications that a view asks for. `Vertex` and `Calls` are the graph of the calls behind it: one
vertex for each function and target, one for each specification that is left to market data, and an
edge for every requirement.
-/
namespace Valuation

open Relation

namespace FunctionRepository

/-- A function is known by its identifier. -/
theorem eq_of_id_eq {r : FunctionRepository} {f g : CalculationFunction} (hf : f ∈ r.functions)
    (hg : g ∈ r.functions) (h : f.id = g.id) : f = g :=
  List.inj_on_of_nodup_map r.ids_nodup hf hg h

/-- What a specification requires of others: the requirements of the function that computes it. -/
def requirements (r : FunctionRepository) (s : Specification) : List Specification :=
  match r.resolve? s with
  | some f => f.requirements s
  | none => []

theorem requirements_of_some {r : FunctionRepository} {s : Specification} {f : CalculationFunction}
    (h : r.resolve? s = some f) : r.requirements s = f.requirements s := by
  rw [requirements, h]

theorem requirements_of_none {r : FunctionRepository} {s : Specification} (h : r.resolve? s = none) :
    r.requirements s = [] := by
  rw [requirements, h]

theorem resolve?_of_mem_requirements {r : FunctionRepository} {s t : Specification}
    (h : t ∈ r.requirements s) : ∃ f, r.resolve? s = some f := by
  cases hs : r.resolve? s with
  | some f => exact ⟨f, rfl⟩
  | none => simp [requirements_of_none hs] at h

end FunctionRepository

/-! ## The closure -/

/-- The least set that holds some specifications and with each one its requirements. -/
inductive Required (r : FunctionRepository) (roots : List Specification) : Specification → Prop
  | root {s : Specification} : s ∈ roots → Required r roots s
  | step {s t : Specification} : Required r roots s → t ∈ r.requirements s → Required r roots t

/-- One required specification requires another. -/
def Requires (r : FunctionRepository) (roots : List Specification) (s t : Specification) : Prop :=
  Required r roots s ∧ t ∈ r.requirements s

theorem Required.of_roots {r : FunctionRepository} {roots roots' : List Specification} {s : Specification}
    (h : Required r roots s) (hr : ∀ t ∈ roots, Required r roots' t) : Required r roots' s := by
  induction h with
  | root hs => exact hr _ hs
  | step _ ht ih => exact .step ih ht

theorem not_required_nil {r : FunctionRepository} {s : Specification} : ¬Required r [] s := by
  intro h
  induction h with
  | root hs => simp at hs
  | step _ _ ih => exact ih

theorem required_cons {r : FunctionRepository} {s t : Specification} {ss : List Specification} :
    Required r (s :: ss) t ↔ Required r [s] t ∨ Required r ss t := by
  constructor
  · intro h
    induction h with
    | root hs =>
      rcases List.mem_cons.1 hs with rfl | hs
      · exact .inl (.root (by simp))
      · exact .inr (.root hs)
    | step _ ht ih => exact ih.imp (.step · ht) (.step · ht)
  · rintro (h | h)
    · exact h.of_roots fun u hu => .root (by simp_all)
    · exact h.of_roots fun u hu => .root (List.mem_cons_of_mem _ hu)

theorem required_singleton {r : FunctionRepository} {s t : Specification} :
    Required r [s] t ↔ t = s ∨ Required r (r.requirements s) t := by
  constructor
  · intro h
    induction h with
    | root hs => exact .inl (List.mem_singleton.1 hs)
    | step _ ht ih =>
      rcases ih with rfl | ih
      · exact .inr (.root ht)
      · exact .inr (.step ih ht)
  · rintro (rfl | h)
    · exact .root (by simp)
    · exact h.of_roots fun u hu => .step (.root (by simp)) hu

/-- Every required specification is computed by a function or stood in for by market data. -/
def Satisfied (r : FunctionRepository) (a : Availability) (roots : List Specification) : Prop :=
  ∀ s, Required r roots s → (r.resolve? s).isSome ∨ a.isAvailable s.marketDataKey

/-! ## The graph of calls -/

inductive Vertex where
  | call (functionId : String) (target : Target)
  | marketData (s : Specification)

/-- Where a specification comes from. -/
def vertexOf (r : FunctionRepository) (s : Specification) : Vertex :=
  match r.resolve? s with
  | some f => .call f.id s.target
  | none => .marketData s

/-- The output of one vertex requires an output of another. -/
def Calls (r : FunctionRepository) (roots : List Specification) (v w : Vertex) : Prop :=
  ∃ s t, Requires r roots s t ∧ vertexOf r s = v ∧ vertexOf r t = w

/-- No call leads back to itself. -/
def AcyclicCalls (r : FunctionRepository) (roots : List Specification) : Prop :=
  ∀ v, ¬TransGen (Calls r roots) v v

/-- A specification that leads back to itself is a cycle of calls. -/
theorem AcyclicCalls.not_requires {r : FunctionRepository} {roots : List Specification}
    (h : AcyclicCalls r roots) (s : Specification) : ¬TransGen (Requires r roots) s s := fun hs =>
  h (vertexOf r s) (hs.lift (vertexOf r) fun s t hst => ⟨s, t, hst, rfl, rfl⟩)

/-! ## Layers -/

/-- The requirements of every vertex lie in lower layers than the vertex itself. -/
def Layered (r : FunctionRepository) (layer : Vertex → Nat) : Prop :=
  ∀ s t, t ∈ r.requirements s → layer (vertexOf r t) < layer (vertexOf r s)

theorem Layered.acyclicCalls {r : FunctionRepository} {layer : Vertex → Nat} (h : Layered r layer)
    (roots : List Specification) : AcyclicCalls r roots := by
  have hdown : ∀ v w, TransGen (Calls r roots) v w → layer w < layer v := by
    intro v w hvw
    induction hvw with
    | single he =>
      obtain ⟨s, t, hst, rfl, rfl⟩ := he
      exact h s t hst.2
    | tail _ he ih =>
      obtain ⟨s, t, hst, rfl, rfl⟩ := he
      exact Nat.lt_trans (h s t hst.2) ih
  exact fun v hv => Nat.lt_irrefl _ (hdown v v hv)

theorem finite_required_of_forall {r : FunctionRepository} {ss : List Specification}
    (h : ∀ s ∈ ss, {t | Required r [s] t}.Finite) : {t | Required r ss t}.Finite := by
  induction ss with
  | nil => simp [not_required_nil]
  | cons s ss ih =>
    rw [List.forall_mem_cons] at h
    have hunion : {t | Required r (s :: ss) t} = {t | Required r [s] t} ∪ {t | Required r ss t} :=
      Set.ext fun t => required_cons
    rw [hunion]
    exact h.1.union (ih h.2)

theorem Layered.finite_required {r : FunctionRepository} {layer : Vertex → Nat} (h : Layered r layer)
    (roots : List Specification) : {s | Required r roots s}.Finite := by
  refine finite_required_of_forall fun s hs => ?_
  clear hs
  induction hk : layer (vertexOf r s) using Nat.strong_induction_on generalizing s with
  | _ k ih =>
    have hinsert : {t | Required r [s] t} = {s} ∪ {t | Required r (r.requirements s) t} :=
      Set.ext fun t => required_singleton
    rw [hinsert]
    refine (Set.finite_singleton s).union (finite_required_of_forall fun t ht => ?_)
    exact ih _ (hk ▸ h s t ht) t rfl

end Valuation
