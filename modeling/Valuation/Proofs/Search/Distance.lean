import Mathlib.Algebra.Order.Ring.Nat
import Mathlib.Order.Lattice.Nat
import Valuation.Proofs.Search.BreadthFirst

/-!
# Breadth-first search, nearest first

`breadthFirst` lists each vertex once (`nodup_breadthFirst`), and no vertex before one that is nearer
(`breadthFirst_nearestFirst`). The invariant behind it: the queue can be labelled with lengths of paths that do not
decrease along it and differ by one at most, and every vertex that has not been seen has a label in the queue that is
no longer than any path to it (`Labelled`). The search is a loop over its queue that ends by itself: after one pass
for each vertex that is ever queued, nothing is left (`pass_breadthFirst`).
-/
namespace Valuation.Search

open Relation

/-! ## Paths -/

/-- One vertex leads to another along so many edges, one at least. -/
inductive Path (edge : Nat → Nat → Prop) (u : Nat) : Nat → Nat → Prop
  | single {v : Nat} (first : edge u v) : Path edge u 1 v
  | tail {k v w : Nat} (before : Path edge u k v) (last : edge v w) : Path edge u (k + 1) w

/-- The number of edges on a shortest path. -/
noncomputable def distance (edge : Nat → Nat → Prop) (u v : Nat) : Nat := sInf {k | Path edge u k v}

section
variable {edge : Nat → Nat → Prop} {u v : Nat}

theorem transGen_iff_path : TransGen edge u v ↔ ∃ k, Path edge u k v := by
  constructor
  · intro h
    induction h with
    | single he => exact ⟨1, .single he⟩
    | tail _ he ih =>
      obtain ⟨k, hk⟩ := ih
      exact ⟨k + 1, hk.tail he⟩
  · rintro ⟨k, h⟩
    induction h with
    | single he => exact .single he
    | tail _ he ih => exact ih.tail he

theorem path_distance (h : TransGen edge u v) : Path edge u (distance edge u v) v :=
  Nat.sInf_mem (transGen_iff_path.1 h)

theorem Path.distance_le {k : Nat} (h : Path edge u k v) : distance edge u v ≤ k := Nat.sInf_le h

end

variable {n : Nat} {next : Nat → List Nat}

/-! ## Each vertex once -/

theorem notMem_seen_of_mem_breadthFirst {seen queue : List Nat} {v : Nat}
    (hv : v ∈ breadthFirst n next seen queue) : v ∉ seen := by
  fun_induction breadthFirst n next seen queue with
  | case1 => simp at hv
  | case2 seen u rest hu ih =>
    rcases List.mem_cons.1 hv with rfl | hv
    · exact hu.2
    · exact fun hmem => ih hv (List.mem_cons_of_mem u hmem)
  | case3 seen u rest hu ih => exact ih hv

theorem nodup_breadthFirst (seen queue : List Nat) : (breadthFirst n next seen queue).Nodup := by
  fun_induction breadthFirst n next seen queue with
  | case1 => exact List.nodup_nil
  | case2 seen u rest hu ih =>
    exact List.nodup_cons.2 ⟨fun hmem => notMem_seen_of_mem_breadthFirst hmem (List.mem_cons_self ..), ih⟩
  | case3 seen u rest hu ih => exact ih

/-! ## Nearest first -/

/-- Each vertex in the queue of a search from `u` is labelled with the length of a path to it. -/
structure Labelled (next : Nat → List Nat) (u : Nat) (seen : List Nat) (queue : List (Nat × Nat)) : Prop where
  path : ∀ e ∈ queue, Path (Edge next) u e.2 e.1
  sorted : queue.Pairwise fun e f => e.2 ≤ f.2
  close : ∀ e ∈ queue, ∀ f ∈ queue, f.2 ≤ e.2 + 1
  first : ∀ w ∈ next u, w ∈ seen ∨ ∃ l ≤ 1, (w, l) ∈ queue
  behind : ∀ v ∈ seen, ∀ k, Path (Edge next) u k v → ∀ w ∈ next v, w ∈ seen ∨ ∃ l ≤ k + 1, (w, l) ∈ queue

section
variable {u : Nat} {seen : List Nat} {queue : List (Nat × Nat)}

theorem labelled_start (next : Nat → List Nat) (u : Nat) :
    Labelled next u [] ((next u).map fun w => (w, 1)) where
  path e he := by
    obtain ⟨w, hw, rfl⟩ := List.mem_map.1 he
    exact .single hw
  sorted := List.pairwise_map.2 (List.pairwise_of_forall fun _ _ => le_rfl)
  close e he f hf := by
    obtain ⟨_, -, rfl⟩ := List.mem_map.1 he
    obtain ⟨_, -, rfl⟩ := List.mem_map.1 hf
    exact Nat.le_succ 1
  first w hw := .inr ⟨1, le_rfl, List.mem_map.2 ⟨w, hw, rfl⟩⟩
  behind v hv := absurd hv List.not_mem_nil

/-- No path to a vertex that has not been seen is shorter than every label. -/
theorem Labelled.exists_label_le (h : Labelled next u seen queue) {k w : Nat} (hpath : Path (Edge next) u k w)
    (hw : w ∉ seen) : ∃ e ∈ queue, e.2 ≤ k := by
  induction hpath with
  | @single w he =>
    obtain ⟨l, hl, hmem⟩ := (h.first w he).resolve_left hw
    exact ⟨_, hmem, hl⟩
  | @tail k v w hbefore he ih =>
    by_cases hv : v ∈ seen
    · obtain ⟨l, hl, hmem⟩ := (h.behind v hv k hbefore w he).resolve_left hw
      exact ⟨_, hmem, hl⟩
    · obtain ⟨e, hmem, hle⟩ := ih hv
      exact ⟨e, hmem, hle.trans (Nat.le_succ k)⟩

section
variable {v l : Nat} {rest : List (Nat × Nat)}

/-- The label of the first vertex in the queue is no longer than any path to a vertex that has not been seen. -/
theorem Labelled.label_le (h : Labelled next u seen ((v, l) :: rest)) {k w : Nat}
    (hpath : Path (Edge next) u k w) (hw : w ∉ seen) : l ≤ k := by
  obtain ⟨e, he, hle⟩ := h.exists_label_le hpath hw
  rcases List.mem_cons.1 he with rfl | he
  · exact hle
  · exact ((List.pairwise_cons.1 h.sorted).1 e he).trans hle

/-- A vertex that is seen for the first time queues its successors, a step farther on. -/
theorem Labelled.visit (h : Labelled next u seen ((v, l) :: rest)) (hv : v ∉ seen) :
    Labelled next u (v :: seen) (rest ++ (next v).map fun w => (w, l + 1)) := by
  obtain ⟨hle, hsorted⟩ := List.pairwise_cons.1 h.sorted
  have hrest : ∀ e ∈ rest, e ∈ (v, l) :: rest := fun e he => List.mem_cons_of_mem _ he
  have hnear : ∀ e ∈ rest, e.2 ≤ l + 1 := fun e he => h.close _ (List.mem_cons_self ..) e (hrest e he)
  have hbounds : ∀ e ∈ rest ++ (next v).map (fun w => (w, l + 1)), l ≤ e.2 ∧ e.2 ≤ l + 1 := by
    intro e he
    rcases List.mem_append.1 he with he | he
    · exact ⟨hle e he, hnear e he⟩
    · obtain ⟨w, -, rfl⟩ := List.mem_map.1 he
      exact ⟨Nat.le_succ l, le_rfl⟩
  have hkeep : ∀ {w m : Nat}, (w ∈ seen ∨ ∃ i ≤ m, (w, i) ∈ (v, l) :: rest) →
      w ∈ v :: seen ∨ ∃ i ≤ m, (w, i) ∈ rest ++ (next v).map fun w => (w, l + 1) := by
    rintro w m (hw | ⟨i, hi, hmem⟩)
    · exact .inl (List.mem_cons_of_mem v hw)
    · rcases List.mem_cons.1 hmem with heq | hmem
      · cases heq
        exact .inl (List.mem_cons_self ..)
      · exact .inr ⟨i, hi, List.mem_append_left _ hmem⟩
  refine ⟨fun e he => ?_, ?_, fun e he f hf => ?_, fun w hw => hkeep (h.first w hw), fun x hx k hk w hw => ?_⟩
  · rcases List.mem_append.1 he with he | he
    · exact h.path e (hrest e he)
    · obtain ⟨w, hw, rfl⟩ := List.mem_map.1 he
      exact (h.path _ (List.mem_cons_self ..)).tail hw
  · refine List.pairwise_append.2 ⟨hsorted, List.pairwise_map.2 (List.pairwise_of_forall fun _ _ => le_rfl), ?_⟩
    intro e he f hf
    obtain ⟨w, -, rfl⟩ := List.mem_map.1 hf
    exact hnear e he
  · exact (hbounds f hf).2.trans (Nat.succ_le_succ (hbounds e he).1)
  · rcases List.mem_cons.1 hx with rfl | hx
    · -- its label is the length of a shortest path, so its successors are queued early enough
      have hlk : l ≤ k := h.label_le hk hv
      exact .inr ⟨l + 1, Nat.succ_le_succ hlk, List.mem_append_right _ (List.mem_map.2 ⟨w, hw, rfl⟩)⟩
    · exact hkeep (h.behind x hx k hk w hw)

/-- A vertex that has been seen leaves the queue. -/
theorem Labelled.pass (h : Labelled next u seen ((v, l) :: rest)) (hv : v ∈ seen) : Labelled next u seen rest := by
  have hkeep : ∀ {w m : Nat}, (w ∈ seen ∨ ∃ i ≤ m, (w, i) ∈ (v, l) :: rest) →
      w ∈ seen ∨ ∃ i ≤ m, (w, i) ∈ rest := by
    rintro w m (hw | ⟨i, hi, hmem⟩)
    · exact .inl hw
    · rcases List.mem_cons.1 hmem with heq | hmem
      · cases heq
        exact .inl hv
      · exact .inr ⟨i, hi, hmem⟩
  exact ⟨fun e he => h.path e (List.mem_cons_of_mem _ he), (List.pairwise_cons.1 h.sorted).2,
    fun e he f hf => h.close e (List.mem_cons_of_mem _ he) f (List.mem_cons_of_mem _ hf),
    fun w hw => hkeep (h.first w hw), fun x hx k hk w hw => hkeep (h.behind x hx k hk w hw)⟩

end

/-- What is listed from a queue can be reached from where the search started. -/
theorem Labelled.transGen (h : Labelled next u seen queue) {v : Nat}
    (hv : v ∈ breadthFirst n next seen (queue.map (·.1))) : TransGen (Edge next) u v := by
  obtain ⟨w, hw, hwv⟩ := reached_of_mem_breadthFirst hv
  obtain ⟨e, he, rfl⟩ := List.mem_map.1 hw
  exact (transGen_iff_path.2 ⟨_, h.path e he⟩).trans_left hwv

theorem Labelled.nearestFirst (hrange : ∀ u, ∀ w ∈ next u, w < n) (h : Labelled next u seen queue) :
    (breadthFirst n next seen (queue.map (·.1))).Pairwise fun v w =>
      distance (Edge next) u v ≤ distance (Edge next) u w := by
  generalize hqueue : queue.map (·.1) = vertices
  fun_induction breadthFirst n next seen vertices generalizing queue with
  | case1 => exact List.Pairwise.nil
  | case2 seen v rest hv ih =>
    obtain ⟨⟨v, l⟩, rest, rfl, rfl, rfl⟩ := List.map_eq_cons_iff.1 hqueue
    have hnext : (rest ++ (next v).map fun w => (w, l + 1)).map (·.1) = rest.map (·.1) ++ next v := by
      rw [List.map_append, List.map_map]
      exact congrArg _ (List.map_id' _)
    have hvisit := h.visit hv.2
    refine List.pairwise_cons.2 ⟨fun w hw => ?_, ih hvisit hnext⟩
    have hunseen : w ∉ seen := fun hmem => notMem_seen_of_mem_breadthFirst hw (List.mem_cons_of_mem _ hmem)
    have hpath := path_distance (hvisit.transGen (hnext.symm ▸ hw))
    calc distance (Edge next) u v
        ≤ l := (h.path _ (List.mem_cons_self ..)).distance_le
      _ ≤ distance (Edge next) u w := h.label_le hpath hunseen
  | case3 seen v rest hv ih =>
    obtain ⟨⟨v, l⟩, rest, rfl, rfl, rfl⟩ := List.map_eq_cons_iff.1 hqueue
    have hlt : v < n := by
      cases h.path _ (List.mem_cons_self ..) with
      | single he => exact hrange u v he
      | tail _ he => exact hrange _ v he
    have hseen : v ∈ seen := by
      by_contra hnot
      exact hv ⟨hlt, hnot⟩
    exact ih (h.pass hseen) rfl

end

/-- A search from the successors of a vertex lists no vertex before one that is nearer. -/
theorem breadthFirst_nearestFirst (hrange : ∀ u, ∀ w ∈ next u, w < n) (u : Nat) :
    (breadthFirst n next [] (next u)).Pairwise fun v w =>
      distance (Edge next) u v ≤ distance (Edge next) u w := by
  have hstart := (labelled_start next u).nearestFirst hrange
  rwa [List.map_map, List.map_id''] at hstart
  exact fun _ => rfl

/-! ## The search as a loop -/

/-- A search under way: what it has listed, and what is queued. -/
structure Frontier where
  listed : List Nat := []
  queue : List Nat

/-- One pass of the loop: the first vertex leaves the queue; if it has not been listed, it is listed and queues its
successors. -/
def Frontier.pass (next : Nat → List Nat) (s : Frontier) : Frontier :=
  match s.queue with
  | [] => s
  | v :: rest =>
    if v ∈ s.listed then { s with queue := rest }
    else { listed := s.listed ++ [v], queue := rest ++ next v }

/-- Each vertex that is queued at first or by a vertex that is listed takes one pass, and then the queue is empty. -/
theorem pass_breadthFirst (hrange : ∀ u, ∀ w ∈ next u, w < n) {seen queue listed : List Nat}
    (hqueue : ∀ v ∈ queue, v < n) (hlisted : ∀ v, v ∈ listed ↔ v ∈ seen) :
    (Frontier.pass next)^[queue.length + ((breadthFirst n next seen queue).map fun v => (next v).length).sum]
      ⟨listed, queue⟩ = ⟨listed ++ breadthFirst n next seen queue, []⟩ := by
  fun_induction breadthFirst n next seen queue generalizing listed with
  | case1 => simp
  | case2 seen v rest hv ih =>
    rw [List.forall_mem_cons] at hqueue
    have hpass : Frontier.pass next ⟨listed, v :: rest⟩ = ⟨listed ++ [v], rest ++ next v⟩ :=
      if_neg fun hmem => hv.2 ((hlisted v).1 hmem)
    have hrest := @ih (listed ++ [v])
      (fun w hw => (List.mem_append.1 hw).elim (hqueue.2 w) (hrange v w)) fun w => by simp [hlisted, or_comm]
    rw [List.length_append, List.append_assoc, List.singleton_append] at hrest
    rw [List.map_cons, List.sum_cons, List.length_cons, Nat.add_right_comm, ← Nat.add_assoc,
      Function.iterate_succ_apply, hpass]
    exact hrest
  | case3 seen v rest hv ih =>
    rw [List.forall_mem_cons] at hqueue
    have hseen : v ∈ seen := by
      by_contra hnot
      exact hv ⟨hqueue.1, hnot⟩
    have hpass : Frontier.pass next ⟨listed, v :: rest⟩ = ⟨listed, rest⟩ := if_pos ((hlisted v).2 hseen)
    rw [List.length_cons, Nat.add_right_comm, Function.iterate_succ_apply, hpass]
    exact ih hqueue.2 hlisted

end Valuation.Search
