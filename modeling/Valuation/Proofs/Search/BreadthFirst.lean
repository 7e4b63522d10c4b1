import Valuation.Proofs.Search.DepthFirst

/-!
# Breadth-first search

`breadthFirst` lists what can be reached (`mem_breadthFirst_iff`). The invariant behind it: all successors
of a vertex that has been seen have been seen too or stand in the queue.
-/
namespace Valuation.Search

open Relation

variable {n : Nat} {next : Nat → List Nat}

theorem reached_of_mem_breadthFirst {seen queue : List Nat} {v : Nat}
    (hv : v ∈ breadthFirst n next seen queue) : ∃ u ∈ queue, ReflTransGen (Edge next) u v := by
  fun_induction breadthFirst n next seen queue with
  | case1 => simp at hv
  | case2 seen u rest hu ih =>
    rcases List.mem_cons.1 hv with rfl | hv
    · exact ⟨v, List.mem_cons_self .., .refl⟩
    · obtain ⟨w, hw, hwv⟩ := ih hv
      rcases List.mem_append.1 hw with hw | hw
      · exact ⟨w, List.mem_cons_of_mem _ hw, hwv⟩
      · exact ⟨u, List.mem_cons_self .., .head hw hwv⟩
  | case3 seen u rest hu ih =>
    obtain ⟨w, hw, hwv⟩ := ih hv
    exact ⟨w, List.mem_cons_of_mem _ hw, hwv⟩

/-- What has been seen in the end, the queue included, is closed under successors. -/
theorem breadthFirst_closed (hrange : ∀ u, ∀ w ∈ next u, w < n) {seen queue : List Nat}
    (hqueue : ∀ u ∈ queue, u < n) (hseen : ∀ u ∈ seen, ∀ w ∈ next u, w ∈ seen ∨ w ∈ queue) :
    (∀ u ∈ queue, u ∈ seen ∨ u ∈ breadthFirst n next seen queue) ∧
      ∀ u, u ∈ seen ∨ u ∈ breadthFirst n next seen queue →
        ∀ w ∈ next u, w ∈ seen ∨ w ∈ breadthFirst n next seen queue := by
  fun_induction breadthFirst n next seen queue with
  | case1 seen => simpa using hseen
  | case2 seen u rest hu ih =>
    rw [List.forall_mem_cons] at hqueue
    have hqueue' : ∀ w ∈ rest ++ next u, w < n := by
      intro w hw
      exact (List.mem_append.1 hw).elim (hqueue.2 w) (hrange u w)
    have hseen' : ∀ v ∈ u :: seen, ∀ w ∈ next v, w ∈ u :: seen ∨ w ∈ rest ++ next u := by
      intro v hv w hw
      rcases List.mem_cons.1 hv with rfl | hv
      · exact .inr (List.mem_append_right _ hw)
      · rcases hseen v hv w hw with h | h
        · exact .inl (List.mem_cons_of_mem _ h)
        · rcases List.mem_cons.1 h with rfl | h
          · exact .inl (List.mem_cons_self ..)
          · exact .inr (List.mem_append_left _ h)
    obtain ⟨hall, hclosed⟩ := ih hqueue' hseen'
    have hmove : ∀ v, v ∈ u :: seen ∨ v ∈ breadthFirst n next (u :: seen) (rest ++ next u) ↔
        v ∈ seen ∨ v ∈ u :: breadthFirst n next (u :: seen) (rest ++ next u) := by
      intro v
      simp only [List.mem_cons]
      tauto
    refine ⟨fun v hv => ?_, fun v hv w hw => (hmove w).1 (hclosed v ((hmove v).2 hv) w hw)⟩
    rcases List.mem_cons.1 hv with rfl | hv
    · exact .inr (List.mem_cons_self ..)
    · exact (hmove v).1 (hall v (List.mem_append_left _ hv))
  | case3 seen u rest hu ih =>
    rw [List.forall_mem_cons] at hqueue
    have hus : u ∈ seen := by
      by_contra h
      exact hu ⟨hqueue.1, h⟩
    obtain ⟨hall, hclosed⟩ := ih hqueue.2 fun v hv w hw => by
      rcases hseen v hv w hw with h | h
      · exact .inl h
      · rcases List.mem_cons.1 h with rfl | h
        · exact .inl hus
        · exact .inr h
    refine ⟨fun v hv => ?_, hclosed⟩
    rcases List.mem_cons.1 hv with rfl | hv
    · exact .inl hus
    · exact hall v hv

/-- A search from the successors of a vertex lists what it leads to. -/
theorem mem_breadthFirst_iff (hrange : ∀ u, ∀ w ∈ next u, w < n) {u v : Nat} :
    v ∈ breadthFirst n next [] (next u) ↔ TransGen (Edge next) u v := by
  constructor
  · intro hv
    obtain ⟨w, hw, hwv⟩ := reached_of_mem_breadthFirst hv
    exact .head' hw hwv
  · intro h
    obtain ⟨hall, hclosed⟩ := @breadthFirst_closed n next hrange [] (next u) (hrange u) (by simp)
    simp only [List.not_mem_nil, false_or] at hall hclosed
    induction h with
    | single he => exact hall _ he
    | tail _ he ih => exact hclosed _ ih _ he

end Valuation.Search
