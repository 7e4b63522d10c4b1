import Mathlib.Data.List.Sort
import Valuation.OrderedSet

/-!
# Ordered sets are sorted

Under an order that is transitive and tells unequal elements apart, an `OrderedSet` lists its elements
strictly ascending (`sorted_ofList`), so the same elements always give the same list.
-/
namespace Valuation
namespace OrderedSet

variable {κ : Type}

@[simp] theorem mem_toList (s : OrderedSet κ) (x : κ) : x ∈ s.toList ↔ x ∈ s := Iff.rfl

variable [DecidableEq κ] [Ord κ]

@[simp] theorem mem_ofList (xs : List κ) (x : κ) : x ∈ ofList xs ↔ x ∈ xs := by
  have hempty : x ∉ (∅ : OrderedSet κ) := List.not_mem_nil
  simp [ofList, hempty]

/-- Every element is less than all that follow. -/
def Sorted (xs : List κ) : Prop := xs.Pairwise fun x y => compare x y = .lt

variable [Std.TransOrd κ] [Std.LawfulEqOrd κ]

theorem sorted_place (x : κ) {ys : List κ} (h : Sorted ys) : Sorted (place x ys) := by
  induction ys with
  | nil => exact List.pairwise_singleton ..
  | cons y ys ih =>
    obtain ⟨hy, hys⟩ := List.pairwise_cons.1 h
    unfold place
    split
    · exact h
    next hne =>
    split
    · next hlt =>
      have hxy : compare x y = .lt := Ordering.isLT_iff_eq_lt.1 hlt
      refine List.pairwise_cons.2 ⟨fun z hz => ?_, h⟩
      rcases List.mem_cons.1 hz with rfl | hz
      · exact hxy
      · exact Std.TransCmp.lt_trans hxy (hy z hz)
    · next hge =>
      have hyx : compare y x = .lt := by
        cases hc : compare x y with
        | lt => simp [hc] at hge
        | eq => exact absurd (Std.LawfulEqCmp.eq_of_compare hc).symm hne
        | gt => exact Std.OrientedCmp.lt_of_gt hc
      refine List.pairwise_cons.2 ⟨fun z hz => ?_, ih hys⟩
      rcases (mem_place z x ys).1 hz with rfl | hz
      · exact hyx
      · exact hy z hz

omit [Std.LawfulEqOrd κ] in
/-- An element that is there stays where it is. -/
theorem place_of_mem {x : κ} {ys : List κ} (h : Sorted ys) (hx : x ∈ ys) : place x ys = ys := by
  induction ys with
  | nil => cases hx
  | cons y ys ih =>
    obtain ⟨hy, hys⟩ := List.pairwise_cons.1 h
    unfold place
    split
    · rfl
    next hne =>
    have hmem : x ∈ ys := (List.mem_cons.1 hx).resolve_left (Ne.symm hne)
    rw [if_neg, ih hys hmem]
    rw [Std.OrientedCmp.gt_of_lt (hy x hmem)]
    exact Bool.false_ne_true

theorem sorted_insertAll {s : OrderedSet κ} (h : Sorted s.toList) (xs : List κ) :
    Sorted (s.insertAll xs).toList := by
  induction xs generalizing s with
  | nil => exact h
  | cons x xs ih => exact ih (sorted_place x h)

theorem sorted_ofList (xs : List κ) : Sorted (ofList xs).toList :=
  sorted_insertAll List.Pairwise.nil xs

omit [DecidableEq κ] in
/-- Sorted lists of the same elements are the same. -/
theorem Sorted.eq_of_mem_iff {xs ys : List κ} (hx : Sorted xs) (hy : Sorted ys) (h : ∀ x, x ∈ xs ↔ x ∈ ys) : xs = ys := by
  have hantisymm : Std.Antisymm fun x y : κ => compare x y = .lt :=
    ⟨fun x y hxy hyx => by cases (Std.OrientedCmp.gt_of_lt hxy).symm.trans hyx⟩
  have hirrefl : Std.Irrefl fun x y : κ => compare x y = .lt :=
    ⟨fun x hx => by rw [Std.compare_self] at hx; cases hx⟩
  exact List.Pairwise.eq_of_mem_iff hx hy h

theorem pairwise_lt_ofList (xs : List Nat) : (ofList xs).toList.Pairwise (· < ·) :=
  (sorted_ofList xs).imp Nat.compare_eq_lt.1

end OrderedSet
end Valuation
