import Mathlib.Data.List.Nodup
import Mathlib.Logic.Relation
import Valuation.Graph.Search
import Valuation.Proofs.Result

/-!
# What a depth-first search leaves behind

`finishingOrder` lists every vertex once (`finishingOrder_spec`). What a vertex leads to next stands behind it in the
list, or leads back to it (`finishingOrder_returning`), so only in a graph where some vertex leads back to itself can
an edge point backwards. The search is refused at a vertex that is its own successor
(`finishingOrder_eq_error`).
-/
namespace Valuation.Search

open Relation

/-- One vertex is a successor of another. -/
def Edge (next : Nat → List Nat) (u v : Nat) : Prop := v ∈ next u

/-- No vertex leads back to itself. -/
def Acyclic (next : Nat → List Nat) : Prop := ∀ v, ¬TransGen (Edge next) v v

/-! ## Every vertex is left once -/

section
variable {n : Nat} {next : Nat → List Nat}

/-- What holds whenever a vertex is taken from the stack: a vertex that has been met was left or
still waits on the stack. -/
structure Visited (n : Nat) (next : Nat → List Nat) (discovered finished stack : List Nat) : Prop where
  bounded : ∀ v ∈ discovered, v < n
  met : ∀ v ∈ finished, v ∈ discovered
  nodup : finished.Nodup
  waiting : ∀ v ∈ discovered, v ∈ finished ∨ v ∈ stack
  loopless : ∀ v ∈ discovered, v ∉ next v

/-- A vertex met for the first time, under its undiscovered successors. -/
theorem Visited.push {discovered finished rest : List Nat} {v : Nat}
    (hi : Visited n next discovered finished (v :: rest)) (hv : v < n) (hloop : v ∉ next v)
    (undiscovered : List Nat) :
    Visited n next (v :: discovered) finished (undiscovered ++ v :: rest) := by
  refine ⟨?_, fun w hw => List.mem_cons_of_mem _ (hi.met w hw), hi.nodup, ?_, ?_⟩
  · rintro w (_ | ⟨_, hw⟩)
    · exact hv
    · exact hi.bounded w hw
  · intro w hw
    rcases List.mem_cons.1 hw with rfl | hw
    · exact .inr (by simp)
    · exact (hi.waiting w hw).imp id fun h => List.mem_append_right _ h
  · rintro w (_ | ⟨_, hw⟩)
    · exact hloop
    · exact hi.loopless w hw

/-- A vertex met again after it was left. -/
theorem Visited.drop {discovered finished rest : List Nat} {v : Nat}
    (hi : Visited n next discovered finished (v :: rest)) (hv : v ∈ finished ∨ n ≤ v) :
    Visited n next discovered finished rest := by
  refine ⟨hi.bounded, hi.met, hi.nodup, fun w hw => ?_, hi.loopless⟩
  rcases hi.waiting w hw with h | h
  · exact .inl h
  · rcases List.mem_cons.1 h with rfl | h
    · exact .inl (hv.resolve_right fun hn => absurd (hi.bounded w hw) (by omega))
    · exact .inr h

/-- A vertex that is left. -/
theorem Visited.leave {discovered finished rest : List Nat} {v : Nat}
    (hi : Visited n next discovered finished (v :: rest)) (hv : v ∈ discovered) (hopen : v ∉ finished) :
    Visited n next discovered (v :: finished) rest := by
  refine ⟨hi.bounded, ?_, List.nodup_cons.2 ⟨hopen, hi.nodup⟩, fun w hw => ?_, hi.loopless⟩
  · rintro w (_ | ⟨_, hw⟩)
    · exact hv
    · exact hi.met w hw
  · rcases hi.waiting w hw with h | h
    · exact .inl (List.mem_cons_of_mem _ h)
    · rcases List.mem_cons.1 h with rfl | h
      · exact .inl (List.mem_cons_self ..)
      · exact .inr h

theorem depthFirst_visited {discovered finished stack : List Nat} {visits : Visits}
    (hi : Visited n next discovered finished stack)
    (h : depthFirst n next discovered finished stack = .ok visits) :
    Visited n next visits.discovered visits.finished [] ∧
      (∀ v ∈ discovered, v ∈ visits.discovered) ∧ ∀ v ∈ stack, v < n → v ∈ visits.discovered := by
  fun_induction depthFirst n next discovered finished stack with
  | case1 discovered finished =>
    cases h
    exact ⟨hi, fun _ hv => hv, by simp⟩
  | case2 discovered finished v rest hv hloop => cases h
  | case3 discovered finished v rest hv hloop undiscovered ih =>
    obtain ⟨hvis, hdisc, hstack⟩ := ih (hi.push hv.1 hloop undiscovered) h
    refine ⟨hvis, fun w hw => hdisc w (List.mem_cons_of_mem _ hw), fun w hw hwn => ?_⟩
    exact hstack w (List.mem_append_right _ hw) hwn
  | case4 discovered finished v rest hv hdone ih =>
    obtain ⟨hvis, hdisc, hstack⟩ := ih (hi.drop hdone) h
    refine ⟨hvis, hdisc, fun w hw hwn => ?_⟩
    rcases List.mem_cons.1 hw with rfl | hw
    · exact hdisc w (by simpa [hwn] using hv)
    · exact hstack w hw hwn
  | case5 discovered finished v rest hv hopen ih =>
    obtain ⟨hopen, hvn⟩ := not_or.1 hopen
    have hvd : v ∈ discovered := by simpa [Nat.lt_of_not_le hvn] using hv
    obtain ⟨hvis, hdisc, hstack⟩ := ih (hi.leave hvd hopen) h
    refine ⟨hvis, hdisc, fun w hw hwn => ?_⟩
    rcases List.mem_cons.1 hw with rfl | hw
    · exact hdisc w hvd
    · exact hstack w hw hwn

theorem Visited.restart {discovered finished : List Nat} (hi : Visited n next discovered finished [])
    (i : Nat) : Visited n next discovered finished [i] :=
  ⟨hi.bounded, hi.met, hi.nodup, fun v hv => (hi.waiting v hv).imp id (by simp), hi.loopless⟩

/-- The search goes wrong only at a vertex that is its own successor. -/
theorem depthFirst_eq_error {discovered finished stack : List Nat} {i : Nat}
    (h : depthFirst n next discovered finished stack = .error i) : i ∈ next i := by
  fun_induction depthFirst n next discovered finished stack with
  | case1 => cases h
  | case2 _ _ v _ _ hloop =>
    cases h
    exact hloop
  | case3 _ _ _ _ _ _ _ ih => exact ih h
  | case4 _ _ _ _ _ _ ih => exact ih h
  | case5 _ _ _ _ _ _ ih => exact ih h

theorem finishingOrder_eq_error {i : Nat} (h : finishingOrder n next = .error i) : i ∈ next i := by
  have hall : ∀ (starts : List Nat) (before : Visits),
      starts.foldlM (fun v i => depthFirst n next v.discovered v.finished [i]) before = .error i → i ∈ next i := by
    intro starts
    induction starts with
    | nil => exact fun _ h => nomatch h
    | cons j starts ih =>
      intro before h
      rw [List.foldlM_cons, bind_eq_error] at h
      rcases h with hstep | ⟨mid, -, h⟩
      · exact depthFirst_eq_error hstep
      · exact ih mid h
  exact hall _ _ (map_eq_error.1 h)

/-- A search begun anew from each of some vertices has met all of them in the end. -/
theorem searchAll_visited {starts : List Nat} {before after : Visits}
    (hi : Visited n next before.discovered before.finished [])
    (h : starts.foldlM (fun v i => depthFirst n next v.discovered v.finished [i]) before = .ok after) :
    Visited n next after.discovered after.finished [] ∧
      (∀ v ∈ before.discovered, v ∈ after.discovered) ∧ ∀ v ∈ starts, v < n → v ∈ after.discovered := by
  induction starts generalizing before with
  | nil =>
    cases h
    exact ⟨hi, fun _ hv => hv, by simp⟩
  | cons i starts ih =>
    rw [List.foldlM_cons, bind_eq_ok] at h
    obtain ⟨mid, hstep, h⟩ := h
    obtain ⟨hmid, hgrow, hmet⟩ := depthFirst_visited (hi.restart i) hstep
    obtain ⟨hafter, hgrow', hmet'⟩ := ih hmid h
    refine ⟨hafter, fun v hv => hgrow' v (hgrow v hv), fun v hv hvn => ?_⟩
    rcases List.mem_cons.1 hv with rfl | hv
    · exact hgrow' v (hmet v (by simp) hvn)
    · exact hmet' v hv hvn

theorem visited_empty : Visited n next [] [] [] :=
  ⟨by simp, by simp, by simp, by simp, by simp⟩

theorem finishingOrder_eq_ok {order : List Nat} (h : finishingOrder n next = .ok order) :
    ∃ visits : Visits, visits.finished = order ∧
      (List.range n).foldlM (fun v i => depthFirst n next v.discovered v.finished [i]) {} = .ok visits := by
  obtain ⟨visits, hv, rfl⟩ := map_eq_ok.1 h
  exact ⟨visits, rfl, hv⟩

/-- Every vertex is listed once, and none is its own successor. -/
theorem finishingOrder_spec {order : List Nat} (h : finishingOrder n next = .ok order) :
    order.Perm (List.range n) ∧ ∀ v < n, v ∉ next v := by
  obtain ⟨visits, rfl, hv⟩ := finishingOrder_eq_ok h
  obtain ⟨hvis, -, hall⟩ := searchAll_visited visited_empty hv
  have hmet : ∀ v < n, v ∈ visits.discovered := fun v hv => hall v (List.mem_range.2 hv) hv
  refine ⟨(List.perm_ext_iff_of_nodup hvis.nodup List.nodup_range).2 fun v => ?_,
    fun v hv => hvis.loopless v (hmet v hv)⟩
  rw [List.mem_range]
  constructor
  · exact fun hv => hvis.bounded v (hvis.met v hv)
  · exact fun hv => (hvis.waiting v (hmet v hv)).resolve_right (by simp)

/-! ## Edges that point backwards lie on cycles -/

/-- What each vertex of a list leads to next stands behind it or leads back to it. -/
def Returning (next : Nat → List Nat) : List Nat → Prop
  | [] => True
  | v :: rest => (∀ w ∈ next v, w ∈ rest ∨ TransGen (Edge next) w v) ∧ Returning next rest

theorem Returning.idxOf_lt {order : List Nat} (h : Returning next order) (hd : order.Nodup) {v w : Nat}
    (hv : v ∈ order) (hw : w ∈ next v) :
    w ∈ order ∧ order.idxOf v < order.idxOf w ∨ TransGen (Edge next) w v := by
  induction order with
  | nil => simp at hv
  | cons x rest ih =>
    obtain ⟨hxr, hd⟩ := List.nodup_cons.1 hd
    have hne : ∀ u ∈ rest, x ≠ u := fun u hu e => hxr (e ▸ hu)
    by_cases hxv : x = v
    · subst hxv
      refine (h.1 w hw).imp_left fun hwr => ⟨List.mem_cons_of_mem _ hwr, ?_⟩
      rw [List.idxOf_cons_self, List.idxOf_cons_ne _ (hne w hwr)]
      exact Nat.succ_pos _
    · refine (ih h.2 hd ((List.mem_cons.1 hv).resolve_left (Ne.symm hxv))).imp_left ?_
      rintro ⟨hwr, hlt⟩
      rw [List.idxOf_cons_ne _ hxv, List.idxOf_cons_ne _ (hne w hwr)]
      exact ⟨List.mem_cons_of_mem _ hwr, Nat.succ_lt_succ hlt⟩

/-- What stands on the stack above the topmost occurrence of a vertex. -/
def above (v : Nat) (stack : List Nat) : List Nat := stack.takeWhile (· ≠ v)

/-- What holds throughout a search. A vertex that has been met and not been left is open: what it leads to next was
left, lies above it or leads back to it, and it leads to everything above it. -/
structure Descent (next : Nat → List Nat) (discovered finished stack : List Nat) : Prop where
  returning : Returning next finished
  successors : ∀ v ∈ discovered, v ∉ finished → ∀ w ∈ next v,
    (w ∈ finished ∨ w ∈ above v stack) ∨ TransGen (Edge next) w v
  path : ∀ v ∈ discovered, v ∉ finished → ∀ w ∈ above v stack, TransGen (Edge next) v w

theorem above_append {v : Nat} {xs ys : List Nat} (h : v ∉ xs) : above v (xs ++ ys) = xs ++ above v ys := by
  unfold above
  exact List.takeWhile_append_of_pos fun x hx => by
    have : x ≠ v := fun e => h (e ▸ hx)
    simpa using this

theorem above_cons_self (v : Nat) (xs : List Nat) : above v (v :: xs) = [] := by simp [above]

theorem above_cons_ne {v w : Nat} (h : w ≠ v) (xs : List Nat) : above v (w :: xs) = w :: above v xs := by
  simp [above, h]

section
variable {discovered finished rest : List Nat} {v : Nat}

theorem Descent.push (hi : Descent next discovered finished (v :: rest)) (hv : v ∉ discovered)
    (hloop : v ∉ next v) :
    Descent next (v :: discovered) finished
      ((next v).filter (fun w => w ∉ v :: discovered) ++ v :: rest) := by
  have hnew : ∀ u ∈ v :: discovered, u ∉ (next v).filter fun w => w ∉ v :: discovered := by
    intro u hu hf
    exact absurd hu (by simpa using (List.mem_filter.1 hf).2)
  have hne : ∀ u ∈ discovered, v ≠ u := fun u hu e => hv (e ▸ hu)
  -- an open vertex leads to everything above it, so to `v`
  have hopened : ∀ u ∈ discovered, u ∉ finished → TransGen (Edge next) u v := fun u hu hopen =>
    hi.path u hu hopen v (by simp [above_cons_ne (hne u hu)])
  refine ⟨hi.returning, fun u hu hopen w hw => ?_, fun u hu hopen w hw => ?_⟩
  · rw [above_append (hnew u hu)]
    rcases List.mem_cons.1 hu with rfl | hud
    · by_cases hwf : w ∈ finished
      · exact .inl (.inl hwf)
      by_cases hwd : w ∈ discovered
      · exact .inr (hopened w hwd hwf)
      · have hwu : w ≠ u := fun e => hloop (e ▸ hw)
        exact .inl (.inr (List.mem_append_left _ (by simp [hw, hwu, hwd])))
    · exact (hi.successors u hud hopen w hw).imp_left (.imp_right fun h => List.mem_append_right _ h)
  · rw [above_append (hnew u hu), List.mem_append] at hw
    rcases List.mem_cons.1 hu with rfl | hud
    · rw [above_cons_self] at hw
      have hw := hw.resolve_right (by simp)
      exact .single (List.mem_filter.1 hw).1
    · rcases hw with hw | hw
      · exact (hopened u hud hopen).tail (List.mem_filter.1 hw).1
      · exact hi.path u hud hopen w hw

theorem Descent.drop (hrange : ∀ u, ∀ w ∈ next u, w < n)
    (hvis : Visited n next discovered finished (v :: rest))
    (hi : Descent next discovered finished (v :: rest)) (hv : v ∈ finished ∨ n ≤ v) :
    Descent next discovered finished rest := by
  have hne : ∀ u ∈ discovered, u ∉ finished → v ≠ u := by
    rintro u hu hopen rfl
    exact hv.elim hopen fun hn => absurd (hvis.bounded v hu) (by omega)
  refine ⟨hi.returning, fun u hu hopen w hw => ?_, fun u hu hopen w hw => ?_⟩
  · have h := hi.successors u hu hopen w hw
    rw [above_cons_ne (hne u hu hopen), List.mem_cons] at h
    rcases h with (h | rfl | h) | h
    · exact .inl (.inl h)
    · exact .inl (.inl (hv.resolve_right fun hn => absurd (hrange u w hw) (by omega)))
    · exact .inl (.inr h)
    · exact .inr h
  · exact hi.path u hu hopen w (by simp [above_cons_ne (hne u hu hopen), hw])

theorem Descent.leave (hi : Descent next discovered finished (v :: rest)) (hv : v ∈ discovered)
    (hopen : v ∉ finished) : Descent next discovered (v :: finished) rest := by
  have hdone : ∀ w ∈ next v, w ∈ finished ∨ TransGen (Edge next) w v := fun w hw =>
    (hi.successors v hv hopen w hw).imp_left fun h => h.resolve_right (by simp [above_cons_self])
  refine ⟨⟨hdone, hi.returning⟩, fun u hu huo w hw => ?_, fun u hu huo w hw => ?_⟩
  all_goals
    obtain ⟨hne, huo⟩ : v ≠ u ∧ u ∉ finished := by simpa [eq_comm] using huo
  · have h := hi.successors u hu huo w hw
    rw [above_cons_ne hne, List.mem_cons] at h
    rcases h with (h | rfl | h) | h
    · exact .inl (.inl (List.mem_cons_of_mem _ h))
    · exact .inl (.inl (List.mem_cons_self ..))
    · exact .inl (.inr h)
    · exact .inr h
  · exact hi.path u hu huo w (by simp [above_cons_ne hne, hw])

end

theorem depthFirst_descent (hrange : ∀ u, ∀ w ∈ next u, w < n) {discovered finished stack : List Nat}
    {visits : Visits} (hvis : Visited n next discovered finished stack)
    (hi : Descent next discovered finished stack)
    (h : depthFirst n next discovered finished stack = .ok visits) :
    Descent next visits.discovered visits.finished [] := by
  fun_induction depthFirst n next discovered finished stack with
  | case1 discovered finished =>
    cases h
    exact hi
  | case2 discovered finished v rest hv hloop => cases h
  | case3 discovered finished v rest hv hloop undiscovered ih =>
    exact ih (hvis.push hv.1 hloop undiscovered) (hi.push hv.2 hloop) h
  | case4 discovered finished v rest hv hdone ih =>
    exact ih (hvis.drop hdone) (hi.drop hrange hvis hdone) h
  | case5 discovered finished v rest hv hopen ih =>
    obtain ⟨hopen, hvn⟩ := not_or.1 hopen
    have hvd : v ∈ discovered := by simpa [Nat.lt_of_not_le hvn] using hv
    exact ih (hvis.leave hvd hopen) (hi.leave hvd hopen) h

theorem searchAll_descent (hrange : ∀ u, ∀ w ∈ next u, w < n) {starts : List Nat} {before after : Visits}
    (hvis : Visited n next before.discovered before.finished [])
    (hi : Descent next before.discovered before.finished [])
    (h : starts.foldlM (fun v i => depthFirst n next v.discovered v.finished [i]) before = .ok after) :
    Descent next after.discovered after.finished [] := by
  induction starts generalizing before with
  | nil =>
    cases h
    exact hi
  | cons i starts ih =>
    rw [List.foldlM_cons, bind_eq_ok] at h
    obtain ⟨mid, hstep, h⟩ := h
    have hopen : ∀ v ∈ before.discovered, v ∈ before.finished := fun v hv =>
      (hvis.waiting v hv).resolve_right (by simp)
    -- nothing is open between two searches
    have hi' : Descent next before.discovered before.finished [i] :=
      ⟨hi.returning, fun v hv hn => absurd (hopen v hv) hn, fun v hv hn => absurd (hopen v hv) hn⟩
    have hmid := depthFirst_descent hrange (hvis.restart i) hi' hstep
    exact ih (depthFirst_visited (hvis.restart i) hstep).1 hmid h

/-- What a vertex leads to next stands behind it in the list, unless both lie on a cycle. -/
theorem finishingOrder_returning (hrange : ∀ u, ∀ w ∈ next u, w < n) {order : List Nat}
    (h : finishingOrder n next = .ok order) : Returning next order := by
  obtain ⟨visits, rfl, hv⟩ := finishingOrder_eq_ok h
  have hstart : Descent next ([] : List Nat) [] [] := ⟨trivial, by simp, by simp⟩
  exact (searchAll_descent hrange visited_empty hstart hv).returning

end

end Valuation.Search
