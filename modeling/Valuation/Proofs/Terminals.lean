import Mathlib.Data.List.ProdSigma
import Valuation.Definition

/-!
# Terminals

What a view asks for (`terminals_eq`): every admitted pair of a target and a request, targets first, each
specification at its first place only.
-/
namespace Valuation

theorem foldl_distinct_eq {α : Type} [DecidableEq α] (xs seen : List α) :
    xs.foldl (fun seen x => if x ∈ seen then seen else seen ++ [x]) seen =
      seen ++ (xs.filter fun x => x ∉ seen).eraseDups := by
  induction xs generalizing seen with
  | nil => simp
  | cons x xs ih =>
    rw [List.foldl_cons]
    by_cases hx : x ∈ seen
    · rw [if_pos hx, ih, List.filter_cons_of_neg (by simpa using hx)]
    · rw [if_neg hx, ih, List.filter_cons_of_pos (by simpa using hx), List.eraseDups_cons,
        List.filter_filter]
      have hfilter : (xs.filter fun y => y ∉ seen ++ [x]) =
          xs.filter fun y => (!y == x) && decide (y ∉ seen) := by
        refine List.filter_congr fun y _ => ?_
        by_cases hyx : y = x <;> simp [hyx]
      rw [hfilter, List.append_assoc, List.singleton_append]

theorem distinct_eq_eraseDups {α : Type} [DecidableEq α] (xs : List α) : distinct xs = xs.eraseDups := by
  rw [distinct, foldl_distinct_eq, List.nil_append, List.filter_eq_self.2 (by simp)]

namespace ViewDefinition

/-- Every pair of a target and a value asked for that goes with it, targets first. -/
def admitted (d : ViewDefinition) : List (Target × RequestedValue) :=
  (d.targets ×ˢ d.requested).filter fun p => p.2.admits p.1

theorem requests_eq (d : ViewDefinition) : d.requests = d.admitted.map fun p => p.2.specification p.1 := by
  unfold requests admitted
  induction d.targets with
  | nil => rfl
  | cons t ts ih =>
    rw [List.flatMap_cons, ih, List.product_cons, List.filter_append, List.map_append, List.filter_map,
      List.map_map]
    rfl

theorem terminals_eq (d : ViewDefinition) :
    d.terminals = (d.admitted.map fun p => p.2.specification p.1).eraseDups := by
  rw [terminals, distinct_eq_eraseDups, requests_eq]

end ViewDefinition
end Valuation
