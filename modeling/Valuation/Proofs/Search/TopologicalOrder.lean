import Valuation.Proofs.Search.DepthFirst

/-!
# Topological orders

A sorted list holds every vertex once, each behind all its predecessors (`topologicalOrder_spec`). Where there is
none, the vertex that is named instead leads back to itself (`topologicalOrder_eq_error`), so there is one exactly if
no vertex does (`topologicalOrder_isOk_iff`). The walk back that `checkOrder` makes finds the predecessors in the list
or a vertex behind its successor; that such a vertex lies on a cycle is owed to the depth-first search before it.
-/
namespace Valuation.Search

open Relation

/-! ## Walking back -/

/-- The predecessors of each vertex of a list stand before it or are known. -/
def Backward (previous : Nat → List Nat) : (seen order : List Nat) → Prop
  | _, [] => True
  | seen, v :: rest => (∀ u ∈ previous v, u ∈ seen) ∧ Backward previous (v :: seen) rest

section
variable {n : Nat} {previous : Nat → List Nat}

theorem mem_of_reach {seen stack found after : List Nat} {w : Nat}
    (h : reach n previous seen stack = (w :: found, after)) : w ∈ stack ∧ w ∉ seen := by
  induction stack with
  | nil => simp [reach] at h
  | cons u rest ih =>
    rw [reach] at h
    split at h
    · next hu =>
      cases h
      exact ⟨List.mem_cons_self .., hu.2⟩
    · exact (ih h).imp_left (List.mem_cons_of_mem _)

theorem seen_of_reach {seen stack after : List Nat} (h : reach n previous seen stack = ([], after)) :
    ∀ u ∈ stack, u < n → u ∈ seen := by
  induction stack with
  | nil => simp
  | cons u rest ih =>
    rw [reach] at h
    split at h
    · simp at h
    · next hu =>
      intro w hw hwn
      rcases List.mem_cons.1 hw with rfl | hw
      · simpa [hwn] using hu
      · exact ih h w hw hwn

/-- The walk from a vertex meets no second one if the predecessors are known, and otherwise one of them that is
not. -/
theorem reach_singleton {seen : List Nat} {v : Nat} (hv : v < n) (hvs : v ∉ seen)
    (hprev : ∀ u ∈ previous v, u < n) :
    (∀ u ∈ previous v, u ∈ v :: seen) ∧ reach n previous seen [v] = ([v], v :: seen) ∨
      ∃ w found after, reach n previous seen [v] = (v :: w :: found, after) ∧
        w ∈ previous v ∧ w ∉ v :: seen := by
  rw [reach, if_pos ⟨hv, hvs⟩]
  simp only [List.append_nil]
  generalize hstack : (previous v).filter (fun w => w ∉ v :: seen) = stack
  have hmem : ∀ u, u ∈ stack ↔ u ∈ previous v ∧ u ∉ v :: seen := by
    intro u
    rw [← hstack, List.mem_filter, decide_eq_true_iff]
  by_cases hknown : ∀ u ∈ previous v, u ∈ v :: seen
  · have hnil : stack = [] := List.eq_nil_iff_forall_not_mem.2 fun u hu =>
      ((hmem u).1 hu).2 (hknown u ((hmem u).1 hu).1)
    exact .inl ⟨hknown, by rw [hnil, reach]⟩
  · refine .inr ?_
    cases hr : reach n previous (v :: seen) stack with
    | mk found after =>
      cases found with
      | nil =>
        refine absurd (fun u hu => ?_) hknown
        by_contra hus
        exact hus (seen_of_reach hr u ((hmem u).2 ⟨hu, hus⟩) (hprev u hu))
      | cons w found =>
        have hw := (hmem w).1 (mem_of_reach hr).1
        exact ⟨w, found, after, rfl, hw⟩

theorem checkOrder_iff (hprev : ∀ v, ∀ u ∈ previous v, u < n) (hloop : ∀ v < n, v ∉ previous v)
    {seen order : List Nat} (hn : ∀ v ∈ order, v < n) (hd : order.Nodup) (hs : ∀ v ∈ order, v ∉ seen) :
    checkOrder n previous seen order = .ok () ↔ Backward previous seen order := by
  induction order generalizing seen with
  | nil => simp [checkOrder, Backward]
  | cons v rest ih =>
    obtain ⟨hvr, hd⟩ := List.nodup_cons.1 hd
    have hv : v < n := hn v (List.mem_cons_self ..)
    have hvs : v ∉ seen := hs v (List.mem_cons_self ..)
    have hself : (∀ u ∈ previous v, u ∈ v :: seen) ↔ ∀ u ∈ previous v, u ∈ seen := by
      refine forall₂_congr fun u hu => ?_
      have huv : u ≠ v := fun e => hloop v hv (e ▸ hu)
      simp [huv]
    have ih : checkOrder n previous (v :: seen) rest = .ok () ↔ Backward previous (v :: seen) rest := by
      refine ih (fun w hw => hn w (List.mem_cons_of_mem _ hw)) hd fun w hw => ?_
      have hwv : w ≠ v := fun e => hvr (e ▸ hw)
      simp [hwv, hs w (List.mem_cons_of_mem _ hw)]
    rw [checkOrder, Backward, ← hself, ← ih]
    rcases reach_singleton hv hvs (hprev v) with ⟨hknown, hr⟩ | ⟨w, found, after, hr, hw, hunknown⟩
    · simp only [hr, iff_and_self]
      exact fun _ => hknown
    · simp only [hr, reduceCtorEq, false_iff, not_and]
      exact fun h => absurd (h w hw) hunknown

/-- A list is refused at a predecessor of one of its vertices that does not stand before it. -/
theorem checkOrder_eq_error (hprev : ∀ v, ∀ u ∈ previous v, u < n) {seen order : List Nat}
    (hn : ∀ v ∈ order, v < n) (hd : order.Nodup) (hs : ∀ v ∈ order, v ∉ seen) {w : Nat}
    (h : checkOrder n previous seen order = .error w) :
    ∃ v ∈ order, w ∈ previous v ∧ w ∉ seen ∧ ¬order.idxOf w < order.idxOf v := by
  induction order generalizing seen with
  | nil => cases h
  | cons v rest ih =>
    obtain ⟨hvr, hd⟩ := List.nodup_cons.1 hd
    rw [checkOrder] at h
    rcases reach_singleton (hn v (List.mem_cons_self ..)) (hs v (List.mem_cons_self ..)) (hprev v) with
      ⟨-, hr⟩ | ⟨u, found, after, hr, hu, hunknown⟩
    · simp only [hr] at h
      obtain ⟨x, hx, hwx, hw, hbehind⟩ := ih (fun x hx => hn x (List.mem_cons_of_mem _ hx)) hd
        (fun x hx => by simp [show x ≠ v from fun e => hvr (e ▸ hx), hs x (List.mem_cons_of_mem _ hx)]) h
      have hvx : v ≠ x := fun e => hvr (e ▸ hx)
      rw [List.mem_cons, not_or] at hw
      refine ⟨x, List.mem_cons_of_mem _ hx, hwx, hw.2, ?_⟩
      rwa [List.idxOf_cons_ne _ hvx, List.idxOf_cons_ne _ (Ne.symm hw.1), Nat.succ_lt_succ_iff]
    · simp only [hr] at h
      cases h
      exact ⟨v, List.mem_cons_self .., hu, fun hs => hunknown (List.mem_cons_of_mem _ hs), by simp⟩

theorem backward_iff {seen order : List Nat} (hd : order.Nodup) :
    Backward previous seen order ↔
      ∀ v ∈ order, ∀ u ∈ previous v, u ∈ seen ∨ order.idxOf u < order.idxOf v := by
  induction order generalizing seen with
  | nil => simp [Backward]
  | cons x rest ih =>
    obtain ⟨hxr, hd⟩ := List.nodup_cons.1 hd
    have hne : ∀ v ∈ rest, x ≠ v := fun v hv e => hxr (e ▸ hv)
    rw [Backward, ih hd]
    constructor
    · rintro ⟨hx, hrest⟩ v hv u hu
      rcases List.mem_cons.1 hv with rfl | hv
      · exact .inl (hx u hu)
      · rw [List.idxOf_cons_ne _ (hne v hv)]
        by_cases hxu : x = u
        · rw [hxu, List.idxOf_cons_self]
          exact .inr (Nat.succ_pos _)
        · rw [List.idxOf_cons_ne _ hxu, Nat.succ_lt_succ_iff]
          exact (hrest v hv u hu).imp (fun h => (List.mem_cons.1 h).resolve_left (Ne.symm hxu)) id
    · intro h
      refine ⟨fun u hu => ?_, fun v hv u hu => ?_⟩
      · exact (h x (List.mem_cons_self ..) u hu).resolve_right (by simp)
      · by_cases hxu : x = u
        · exact .inl (hxu ▸ List.mem_cons_self ..)
        · have := h v (List.mem_cons_of_mem _ hv) u hu
          rw [List.idxOf_cons_ne _ (hne v hv), List.idxOf_cons_ne _ hxu, Nat.succ_lt_succ_iff] at this
          exact this.imp (List.mem_cons_of_mem _) id

end

/-! ## Sorting -/

section
variable {n : Nat} {next previous : Nat → List Nat}

theorem topologicalOrder_eq_ok {order : List Nat} :
    topologicalOrder n next previous = .ok order ↔
      finishingOrder n next = .ok order ∧ checkOrder n previous [] order = .ok () := by
  unfold topologicalOrder
  rw [bind_eq_ok]
  constructor
  · rintro ⟨found, hf, h⟩
    obtain ⟨_, hc, h⟩ := bind_eq_ok.1 h
    cases h
    exact ⟨hf, hc⟩
  · rintro ⟨hf, hc⟩
    exact ⟨order, hf, bind_eq_ok.2 ⟨(), hc, rfl⟩⟩

/-- A sorted list holds every vertex once, and no edge points backwards. -/
theorem topologicalOrder_spec (hrange : ∀ u, ∀ v ∈ next u, u < n ∧ v < n)
    (hconv : ∀ u v, u ∈ previous v ↔ v ∈ next u) {order : List Nat}
    (h : topologicalOrder n next previous = .ok order) :
    order.Perm (List.range n) ∧ ∀ u v, v ∈ next u → order.idxOf u < order.idxOf v := by
  obtain ⟨hf, hc⟩ := topologicalOrder_eq_ok.1 h
  obtain ⟨hperm, hloop⟩ := finishingOrder_spec hf
  have hmem : ∀ v, v ∈ order ↔ v < n := fun v => by rw [hperm.mem_iff, List.mem_range]
  have hd : order.Nodup := hperm.nodup_iff.2 List.nodup_range
  have hb : Backward previous [] order :=
    (checkOrder_iff (fun v u hu => (hrange u v ((hconv u v).1 hu)).1)
      (fun v hv hvv => hloop v hv ((hconv v v).1 hvv)) (fun v hv => (hmem v).1 hv) hd (by simp)).1 hc
  refine ⟨hperm, fun u v hv => ?_⟩
  have hv' : v ∈ order := (hmem v).2 (hrange u v hv).2
  exact ((backward_iff hd).1 hb v hv' u ((hconv u v).2 hv)).resolve_left (by simp)

theorem idxOf_lt_of_transGen {order : List Nat} (h : ∀ u v, v ∈ next u → order.idxOf u < order.idxOf v)
    {u v : Nat} (hp : TransGen (Edge next) u v) : order.idxOf u < order.idxOf v := by
  induction hp with
  | single he => exact h _ _ he
  | tail _ he ih => exact Nat.lt_trans ih (h _ _ he)

/-- The vertex that is named when the vertices cannot be sorted leads back to itself. -/
theorem topologicalOrder_eq_error (hrange : ∀ u, ∀ v ∈ next u, u < n ∧ v < n)
    (hconv : ∀ u v, u ∈ previous v ↔ v ∈ next u) {i : Nat} (h : topologicalOrder n next previous = .error i) :
    TransGen (Edge next) i i := by
  rcases bind_eq_error.1 h with hf | ⟨order, hf, h⟩
  · exact .single (finishingOrder_eq_error hf)
  have hcheck : checkOrder n previous [] order = .error i :=
    (bind_eq_error.1 h).resolve_right fun ⟨_, _, h⟩ => nomatch h
  obtain ⟨hperm, -⟩ := finishingOrder_spec hf
  have hmem : ∀ v, v ∈ order ↔ v < n := fun v => by rw [hperm.mem_iff, List.mem_range]
  have hd : order.Nodup := hperm.nodup_iff.2 List.nodup_range
  obtain ⟨v, -, hv, -, hbehind⟩ := checkOrder_eq_error
    (fun v u hu => (hrange u v ((hconv u v).1 hu)).1) (fun v hv => (hmem v).1 hv) hd (by simp) hcheck
  have hedge : v ∈ next i := (hconv i v).1 hv
  have hreturning := finishingOrder_returning (fun u w hw => (hrange u w hw).2) hf
  have hback := (hreturning.idxOf_lt hd ((hmem i).2 (hrange i v hedge).1) hedge).resolve_left
    fun hlt => hbehind hlt.2
  exact .head hedge hback

/-- The vertices can be sorted just if none leads back to itself. -/
theorem topologicalOrder_isOk_iff (hrange : ∀ u, ∀ v ∈ next u, u < n ∧ v < n)
    (hconv : ∀ u v, u ∈ previous v ↔ v ∈ next u) :
    (∃ order, topologicalOrder n next previous = .ok order) ↔ Acyclic next := by
  constructor
  · rintro ⟨order, h⟩ v hp
    exact Nat.lt_irrefl _ (idxOf_lt_of_transGen (topologicalOrder_spec hrange hconv h).2 hp)
  · intro hacyclic
    cases h : topologicalOrder n next previous with
    | ok order => exact ⟨order, rfl⟩
    | error i => exact absurd (topologicalOrder_eq_error hrange hconv h) (hacyclic i)

end

end Valuation.Search
