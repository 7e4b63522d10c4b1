import Mathlib.Data.List.DropRight

/-!
# The latest elements of a list

What a store keeps that makes room for each new element by dropping the oldest is `List.rtake` of all that has ever
come (`rtake_rtake_append`). An element is among the latest just if few have come since (`mem_rtake_iff`).
-/
namespace Valuation

variable {α β : Type}

theorem length_rtake (xs : List α) (n : Nat) : (xs.rtake n).length = min n xs.length := by
  rw [List.rtake, List.length_drop]
  omega

theorem rtake_of_length_le {xs : List α} {n : Nat} (h : xs.length ≤ n) : xs.rtake n = xs := by
  rw [List.rtake, Nat.sub_eq_zero_of_le h, List.drop_zero]

theorem rtake_cons_of_length_lt (x : α) {xs : List α} {n : Nat} (h : n ≤ xs.length) :
    (x :: xs).rtake n = xs.rtake n := by
  rw [List.rtake, List.length_cons, Nat.succ_sub h, List.drop_succ_cons, List.rtake]

theorem map_rtake (f : α → β) (xs : List α) (n : Nat) : (xs.rtake n).map f = (xs.map f).rtake n := by
  rw [List.rtake, List.rtake, List.map_drop, List.length_map]

/-- What has been dropped before does not count. -/
theorem rtake_rtake_append (xs ys : List α) (n : Nat) : (xs.rtake n ++ ys).rtake n = (xs ++ ys).rtake n := by
  induction xs with
  | nil => rw [List.rtake_nil]
  | cons x xs ih =>
    by_cases h : n ≤ xs.length
    · have hlonger : n ≤ (xs ++ ys).length := by
        rw [List.length_append]
        omega
      rw [rtake_cons_of_length_lt x h, ih, List.cons_append, rtake_cons_of_length_lt x hlonger]
    · have hall : (x :: xs).length ≤ n := by
        rw [List.length_cons]
        omega
      rw [rtake_of_length_le hall]

/-- What has come last is there, as long as there is room for it. -/
theorem rtake_append (xs ys : List α) {n : Nat} (h : ys.length ≤ n) :
    (xs ++ ys).rtake n = xs.rtake (n - ys.length) ++ ys := by
  have hdropped : (xs ++ ys).length - n = xs.length - (n - ys.length) := by
    rw [List.length_append]
    omega
  rw [List.rtake, hdropped, List.drop_append_of_le_length (Nat.sub_le ..), List.rtake]

theorem mem_rtake_iff {x : α} {xs : List α} {n : Nat} :
    x ∈ xs.rtake n ↔ ∃ before after, xs = before ++ x :: after ∧ after.length < n := by
  constructor
  · intro hmem
    obtain ⟨before, after, hsplit⟩ := List.append_of_mem hmem
    refine ⟨xs.take (xs.length - n) ++ before, after, ?_, ?_⟩
    · rw [List.append_assoc, ← hsplit, List.rtake, List.take_append_drop]
    · have hlength := length_rtake xs n
      rw [hsplit, List.length_append, List.length_cons] at hlength
      omega
  · rintro ⟨before, after, rfl, hfew⟩
    rw [rtake_append before (x :: after) hfew]
    exact List.mem_append_right _ (List.mem_cons_self ..)

end Valuation
