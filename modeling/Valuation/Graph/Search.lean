/-!
# Searching a graph

Vertices are the numbers below `n`, edges are given by a function. `topologicalOrder` sorts the
vertices so that every edge points forwards, or names a vertex on a cycle. `breadthFirst` lists what
can be reached, nearest first. Both end because every step either meets a new vertex or shortens the
work list (`unseen_cons_lt`).
-/
namespace Valuation.Search

/-! ## The measure -/

/-- How many vertices below `n` have not been seen. -/
def unseen (n : Nat) (seen : List Nat) : Nat := (List.range n).countP fun v => v ∉ seen

theorem countP_lt_countP {α : Type} {p q : α → Bool} {xs : List α} (hpq : ∀ x ∈ xs, p x → q x) {a : α}
    (ha : a ∈ xs) (hp : ¬p a) (hq : q a) : xs.countP p < xs.countP q := by
  induction xs with
  | nil => simp at ha
  | cons x xs ih =>
    have hle : xs.countP p ≤ xs.countP q :=
      List.countP_mono_left fun y hy => hpq y (List.mem_cons_of_mem x hy)
    by_cases hax : a = x
    · subst hax
      rw [List.countP_cons_of_neg hp, List.countP_cons_of_pos hq]
      omega
    · have ha' : a ∈ xs := (List.mem_cons.1 ha).resolve_left hax
      have := ih (fun y hy => hpq y (List.mem_cons_of_mem x hy)) ha'
      by_cases hpx : p x
      · rw [List.countP_cons_of_pos hpx, List.countP_cons_of_pos (hpq x (List.mem_cons_self ..) hpx)]
        omega
      · rw [List.countP_cons_of_neg hpx]
        by_cases hqx : q x
        · rw [List.countP_cons_of_pos hqx]; omega
        · rw [List.countP_cons_of_neg hqx]; exact this

theorem unseen_cons_lt {n v : Nat} {seen : List Nat} (hv : v < n) (h : v ∉ seen) :
    unseen n (v :: seen) < unseen n seen := by
  refine countP_lt_countP (a := v) ?_ (List.mem_range.2 hv) (by simp) (by simpa using h)
  intro x _ hx
  simp only [decide_eq_true_eq, List.mem_cons, not_or] at hx ⊢
  exact hx.2

/-! ## Depth first -/

/-- What a depth-first search has met, and which vertices it has left for good, the last one
first. -/
structure Visits where
  discovered : List Nat := []
  finished : List Nat := []

/-- Works off a stack: a vertex met for the first time puts its undiscovered successors on top of
itself, one met again leaves the stack. A vertex that is its own successor ends the search. -/
def depthFirst (n : Nat) (next : Nat → List Nat) (discovered finished stack : List Nat) :
    Except Nat Visits :=
  match stack with
  | [] => .ok ⟨discovered, finished⟩
  | v :: rest =>
    if v < n ∧ v ∉ discovered then
      if v ∈ next v then .error v
      else
        let undiscovered := (next v).filter fun w => w ∉ v :: discovered
        depthFirst n next (v :: discovered) finished (undiscovered ++ v :: rest)
    else if v ∈ finished ∨ n ≤ v then depthFirst n next discovered finished rest
    else depthFirst n next discovered (v :: finished) rest
termination_by (unseen n discovered, stack.length)
decreasing_by
  · exact Prod.Lex.left _ _ (unseen_cons_lt (by omega) (by simp_all))
  · exact Prod.Lex.right _ (Nat.lt_succ_self _)
  · exact Prod.Lex.right _ (Nat.lt_succ_self _)

/-- A depth-first search from every vertex in turn. -/
def finishingOrder (n : Nat) (next : Nat → List Nat) : Except Nat (List Nat) :=
  (List.range n).foldlM (fun v i => depthFirst n next v.discovered v.finished [i]) {}
    |>.map (·.finished)

/-- What can be reached from a stack through undiscovered vertices, in the order of reaching it, and
all that has been discovered then. -/
def reach (n : Nat) (next : Nat → List Nat) (discovered stack : List Nat) : List Nat × List Nat :=
  match stack with
  | [] => ([], discovered)
  | v :: rest =>
    if v < n ∧ v ∉ discovered then
      let undiscovered := (next v).filter fun w => w ∉ v :: discovered
      let (found, seen) := reach n next (v :: discovered) (undiscovered ++ rest)
      (v :: found, seen)
    else reach n next discovered rest
termination_by (unseen n discovered, stack.length)
decreasing_by
  · exact Prod.Lex.left _ _ (unseen_cons_lt (by omega) (by simp_all))
  · exact Prod.Lex.right _ (Nat.lt_succ_self _)

/-- In a list whose edges all point forwards, walking back from each vertex in turn meets only
vertices that came before. Otherwise the walk reaches a second vertex. -/
def checkOrder (n : Nat) (previous : Nat → List Nat) : (discovered order : List Nat) → Except Nat Unit
  | _, [] => .ok ()
  | discovered, v :: rest =>
    match reach n previous discovered [v] with
    | (_ :: w :: _, _) => .error w
    | (_, seen) => checkOrder n previous seen rest

/-- The vertices in an order in which every edge points forwards, or a vertex on a cycle. -/
def topologicalOrder (n : Nat) (next previous : Nat → List Nat) : Except Nat (List Nat) := do
  let order ← finishingOrder n next
  checkOrder n previous [] order
  return order

/-! ## Breadth first -/

/-- Works off a queue: a vertex met for the first time is listed and queues its successors. -/
def breadthFirst (n : Nat) (next : Nat → List Nat) (seen queue : List Nat) : List Nat :=
  match queue with
  | [] => []
  | v :: rest =>
    if v < n ∧ v ∉ seen then v :: breadthFirst n next (v :: seen) (rest ++ next v)
    else breadthFirst n next seen rest
termination_by (unseen n seen, queue.length)
decreasing_by
  · exact Prod.Lex.left _ _ (unseen_cons_lt (by omega) (by simp_all))
  · exact Prod.Lex.right _ (Nat.lt_succ_self _)

end Valuation.Search
