import Valuation.Graph.Build
import Valuation.Proofs.Graph.Requirements

/-!
# The nodes of a graph in the making

What holds of the list of nodes at every moment of a compilation (`Sound`): every output has one node,
every call has one node, and a node's inputs are what its outputs require. A node gains an output only
when all that the output requires has been produced, so the list is closed under requirements all the
time, also while calls further up the stack are still waiting. Each way of adding an output keeps this
(`sound_addCall`, `sound_addMarketData`).
-/
namespace Valuation
namespace Graph

/-! ## Lists without repetition -/

theorem mem_union (xs ys : List Specification) (s : Specification) : s ∈ union xs ys ↔ s ∈ xs ∨ s ∈ ys :=
  mem_foldl_distinct ys xs s

theorem nodup_union {xs : List Specification} (h : xs.Nodup) (ys : List Specification) :
    (union xs ys).Nodup := by
  unfold union
  induction ys generalizing xs with
  | nil => exact h
  | cons y ys ih =>
    rw [List.foldl_cons]
    split
    · exact ih h
    · next hy =>
      refine ih (List.nodup_append.2 ⟨h, by simp, fun x hx z hz e => hy ?_⟩)
      rwa [← List.mem_singleton.1 hz, ← e]

/-! ## Producers -/

/-- Some node has a specification among its outputs. -/
def Produced (nodes : List Node) (s : Specification) : Prop := ∃ n ∈ nodes, s ∈ n.outputs

theorem produced_iff_getElem? {nodes : List Node} {s : Specification} :
    Produced nodes s ↔ ∃ (i : Nat) (n : Node), nodes[i]? = some n ∧ s ∈ n.outputs := by
  constructor
  · rintro ⟨n, hn, hs⟩
    obtain ⟨i, hi⟩ := List.mem_iff_getElem?.1 hn
    exact ⟨i, n, hi, hs⟩
  · rintro ⟨i, n, hi, hs⟩
    exact ⟨n, List.mem_of_getElem? hi, hs⟩

theorem producer?_isSome_iff {nodes : List Node} {s : Specification} :
    (producer? nodes s).isSome ↔ Produced nodes s := by
  simp [producer?, Produced, List.findIdx?_isSome]

theorem producer?_eq_some {nodes : List Node} {s : Specification} {i : Nat}
    (h : producer? nodes s = some i) : ∃ n, nodes[i]? = some n ∧ s ∈ n.outputs := by
  obtain ⟨hi, hs, -⟩ := List.findIdx?_eq_some_iff_getElem.1 h
  exact ⟨nodes[i], List.getElem?_eq_getElem hi, by simpa using hs⟩

/-! ## Sound nodes -/

section
variable (r : FunctionRepository) (a : Availability)

/-- A node can yield a specification: it calls the function that computes it, or it reads the market
data that stands in for it. -/
def Serves (n : Node) (s : Specification) : Prop :=
  n.target = s.target ∧
    match r.resolve? s with
    | some f => n.kind = .function f
    | none => n.kind = .marketData s.marketDataKey ∧ a.isAvailable s.marketDataKey

structure SoundNode (n : Node) : Prop where
  outputs_nodup : n.outputs.Nodup
  outputs_ne_nil : n.outputs ≠ []
  inputs_nodup : n.inputs.Nodup
  mem_inputs : ∀ t, t ∈ n.inputs ↔ ∃ s ∈ n.outputs, t ∈ r.requirements s
  serves : ∀ s ∈ n.outputs, Serves r a n s
  marketData : ∀ key, n.kind = .marketData key → ∃ s, n.outputs = [s]

/-- What holds of the nodes at every moment of a compilation. -/
structure Sound (nodes : List Node) : Prop where
  node : ∀ (i : Nat) n, nodes[i]? = some n → SoundNode r a n
  numbered : ∀ (i : Nat) n, nodes[i]? = some n → n.number = i
  output_unique : ∀ (i j : Nat) n m s, nodes[i]? = some n → nodes[j]? = some m → s ∈ n.outputs →
    s ∈ m.outputs → i = j
  call_unique : ∀ (i j : Nat) n m id, nodes[i]? = some n → nodes[j]? = some m →
    n.functionId? = some id → m.functionId? = some id → n.target = m.target → i = j
  closed : ∀ s t, Produced nodes s → t ∈ r.requirements s → Produced nodes t

end

section
variable {r : FunctionRepository} {a : Availability} {nodes : List Node}

theorem sound_nil : Sound r a [] := by
  refine ⟨by simp, by simp, by simp, by simp, ?_⟩
  rintro s t ⟨n, hn, -⟩
  simp at hn

theorem Sound.node_of_mem (h : Sound r a nodes) {n : Node} (hn : n ∈ nodes) : SoundNode r a n := by
  obtain ⟨i, hi⟩ := List.mem_iff_getElem?.1 hn
  exact h.node i n hi

/-- The function that a node calls is the one that resolves its outputs. -/
theorem SoundNode.resolve?_eq_some {n : Node} (h : SoundNode r a n) {f : CalculationFunction}
    (hf : n.kind = .function f) {s : Specification} (hs : s ∈ n.outputs) : r.resolve? s = some f := by
  have hserves := (h.serves s hs).2
  cases hr : r.resolve? s with
  | none =>
    rw [hr] at hserves
    cases hf.symm.trans hserves.1
  | some g =>
    rw [hr] at hserves
    cases hf.symm.trans hserves
    rfl

theorem SoundNode.resolve?_eq_none {n : Node} (h : SoundNode r a n) {key : MarketDataKey}
    (hkey : n.kind = .marketData key) {s : Specification} (hs : s ∈ n.outputs) : r.resolve? s = none := by
  have hserves := (h.serves s hs).2
  cases hr : r.resolve? s with
  | none => rfl
  | some g =>
    rw [hr] at hserves
    cases hkey.symm.trans hserves

theorem SoundNode.function_mem {n : Node} (h : SoundNode r a n) {f : CalculationFunction}
    (hf : n.kind = .function f) : f ∈ r.functions := by
  obtain ⟨s, hs⟩ := List.exists_mem_of_ne_nil _ h.outputs_ne_nil
  exact (FunctionRepository.resolves_of_resolve? (h.resolve?_eq_some hf hs)).1

/-- A node that calls a function of some identifier calls the one that is registered under it. -/
theorem SoundNode.kind_of_functionId {n : Node} (h : SoundNode r a n) {f : CalculationFunction}
    (hf : f ∈ r.functions) (hid : n.functionId? = some f.id) : n.kind = .function f := by
  cases hk : n.kind with
  | marketData key => simp [Node.functionId?, hk] at hid
  | function g =>
    have hg : g.id = f.id := by simpa [Node.functionId?, hk] using hid
    rw [FunctionRepository.eq_of_id_eq (h.function_mem hk) hf hg]

theorem SoundNode.requirements_eq {n : Node} (h : SoundNode r a n) {f : CalculationFunction}
    (hf : n.kind = .function f) {s : Specification} (hs : s ∈ n.outputs) :
    r.requirements s = f.requirements s :=
  FunctionRepository.requirements_of_some (h.resolve?_eq_some hf hs)

/-- What some produced specifications require is produced too. -/
theorem Sound.produced_of_required (h : Sound r a nodes) {roots : List Specification}
    (hroots : ∀ s ∈ roots, Produced nodes s) {t : Specification} (ht : Required r roots t) :
    Produced nodes t := by
  induction ht with
  | root hs => exact hroots _ hs
  | step _ ht ih => exact h.closed _ _ ih ht

theorem Sound.producer?_eq_some_iff (h : Sound r a nodes) {s : Specification} {i : Nat} :
    producer? nodes s = some i ↔ ∃ n, nodes[i]? = some n ∧ s ∈ n.outputs := by
  refine ⟨producer?_eq_some, ?_⟩
  rintro ⟨n, hn, hs⟩
  have hsome : (producer? nodes s).isSome := producer?_isSome_iff.2 ⟨n, List.mem_of_getElem? hn, hs⟩
  obtain ⟨j, hj⟩ := Option.isSome_iff_exists.1 hsome
  obtain ⟨m, hm, hsm⟩ := producer?_eq_some hj
  rw [hj, h.output_unique i j n m s hn hm hs hsm]

/-! ## Adding an output -/

/-- One list is another with a node put in a place. -/
def PutAt (nodes nodes' : List Node) (i : Nat) (n' : Node) : Prop :=
  ∀ (j : Nat) m, nodes'[j]? = some m ↔ j = i ∧ m = n' ∨ j ≠ i ∧ nodes[j]? = some m

theorem putAt_append (nodes : List Node) (n : Node) : PutAt nodes (nodes ++ [n]) nodes.length n := by
  intro j m
  rw [List.getElem?_append]
  split
  · next hj => simp [Nat.ne_of_lt hj]
  · next hj =>
    rw [List.getElem?_singleton]
    by_cases h : j = nodes.length
    · simp [h, eq_comm]
    · simp [h, show j - nodes.length ≠ 0 by omega, List.getElem?_eq_none (Nat.le_of_not_lt hj)]

theorem putAt_modify {i : Nat} {n : Node} (h : nodes[i]? = some n) (f : Node → Node) :
    PutAt nodes (nodes.modify i f) i (f n) := by
  intro j m
  by_cases hj : i = j
  · subst hj
    simp [h, eq_comm]
  · simp [hj, Ne.symm hj]

/-- One more output, filed at a node that stays sound, once all that it requires is produced. -/
theorem Sound.put {nodes' : List Node} {i : Nat} {n' : Node} {s : Specification} (h : Sound r a nodes)
    (hput : PutAt nodes nodes' i n') (hnode : SoundNode r a n') (hnumber : n'.number = i)
    (hout : ∀ t, t ∈ n'.outputs ↔ t = s ∨ ∃ n, nodes[i]? = some n ∧ t ∈ n.outputs)
    (hnew : ¬Produced nodes s) (hreq : ∀ t ∈ r.requirements s, Produced nodes t)
    (hcall : ∀ (j : Nat) m id, nodes[j]? = some m → m.functionId? = some id → n'.functionId? = some id →
      m.target = n'.target → j = i) :
    Sound r a nodes' ∧ ∀ t, Produced nodes' t ↔ Produced nodes t ∨ t = s := by
  have hprod : ∀ t, Produced nodes' t ↔ Produced nodes t ∨ t = s := by
    intro t
    simp only [produced_iff_getElem?, hput _ _]
    constructor
    · rintro ⟨j, m, ⟨rfl, rfl⟩ | ⟨-, hm⟩, ht⟩
      · rcases (hout t).1 ht with rfl | ⟨n, hn, ht⟩
        · exact .inr rfl
        · exact .inl ⟨j, n, hn, ht⟩
      · exact .inl ⟨j, m, hm, ht⟩
    · rintro (⟨j, m, hm, ht⟩ | rfl)
      · by_cases hj : j = i
        · exact ⟨i, n', .inl ⟨rfl, rfl⟩, (hout t).2 (.inr ⟨m, hj ▸ hm, ht⟩)⟩
        · exact ⟨j, m, .inr ⟨hj, hm⟩, ht⟩
      · exact ⟨i, n', .inl ⟨rfl, rfl⟩, (hout t).2 (.inl rfl)⟩
  -- an output of the new node that another node has too would be one of the node it replaces
  have hother : ∀ (j : Nat) m t, j ≠ i → nodes[j]? = some m → t ∈ m.outputs → t ∉ n'.outputs := by
    intro j m t hj hm ht ht'
    rcases (hout t).1 ht' with rfl | ⟨n, hn, htn⟩
    · exact hnew (produced_iff_getElem?.2 ⟨j, m, hm, ht⟩)
    · exact hj (h.output_unique j i m n t hm hn ht htn)
  refine ⟨⟨?_, ?_, ?_, ?_, ?_⟩, hprod⟩
  · intro j m hm
    rcases (hput j m).1 hm with ⟨-, rfl⟩ | ⟨-, hm⟩
    · exact hnode
    · exact h.node j m hm
  · intro j m hm
    rcases (hput j m).1 hm with ⟨rfl, rfl⟩ | ⟨-, hm⟩
    · exact hnumber
    · exact h.numbered j m hm
  · intro j k m l t hm hl htm htl
    rcases (hput j m).1 hm with ⟨rfl, rfl⟩ | ⟨hj, hm⟩ <;>
      rcases (hput k l).1 hl with ⟨rfl, rfl⟩ | ⟨hk, hl⟩
    · rfl
    · exact absurd htm (hother k l t hk hl htl)
    · exact absurd htl (hother j m t hj hm htm)
    · exact h.output_unique j k m l t hm hl htm htl
  · intro j k m l id hm hl him hil htarget
    rcases (hput j m).1 hm with ⟨rfl, rfl⟩ | ⟨hj, hm⟩ <;>
      rcases (hput k l).1 hl with ⟨rfl, rfl⟩ | ⟨hk, hl⟩
    · rfl
    · exact absurd (hcall k l id hl hil him htarget.symm) hk
    · exact absurd (hcall j m id hm him hil htarget) hj
    · exact h.call_unique j k m l id hm hl him hil htarget
  · intro u t hu ht
    rcases (hprod u).1 hu with hu | rfl
    · exact (hprod t).2 (.inl (h.closed u t hu ht))
    · exact (hprod t).2 (.inl (hreq t ht))

/-- A call that gains an output stays sound. -/
theorem SoundNode.gain {n : Node} (h : SoundNode r a n) {f : CalculationFunction} {s : Specification}
    (hf : r.resolve? s = some f) (hkind : n.kind = .function f) (htarget : n.target = s.target) :
    SoundNode r a { n with
      outputs := union n.outputs [s]
      inputs := union n.inputs (r.requirements s) } := by
  refine ⟨nodup_union h.outputs_nodup _, ?_, nodup_union h.inputs_nodup _, ?_, ?_, ?_⟩
  · exact List.ne_nil_of_mem ((mem_union _ _ s).2 (.inr (List.mem_singleton.2 rfl)))
  · intro t
    simp only [mem_union, h.mem_inputs, List.mem_singleton, or_and_right, exists_or, exists_eq_left]
  · intro t ht
    rcases (mem_union _ _ t).1 ht with ht | ht
    · exact h.serves t ht
    · rw [List.mem_singleton.1 ht]
      exact ⟨htarget, by rw [hf]; exact hkind⟩
  · intro key hkey
    cases hkind.symm.trans hkey

theorem soundNode_call {f : CalculationFunction} {s : Specification} (hf : r.resolve? s = some f) (i : Nat) :
    SoundNode r a ⟨i, s.target, .function f, union [] (r.requirements s), [s]⟩ := by
  refine ⟨by simp, by simp, nodup_union List.nodup_nil _, fun t => by simp [mem_union], ?_, ?_⟩
  · intro t ht
    rw [List.mem_singleton.1 ht]
    exact ⟨rfl, by rw [hf]⟩
  · intro key hkey
    cases hkey

theorem soundNode_marketData {s : Specification} (hs : r.resolve? s = none)
    (hav : a.isAvailable s.marketDataKey) (i : Nat) :
    SoundNode r a ⟨i, s.target, .marketData s.marketDataKey, [], [s]⟩ := by
  have hreq := FunctionRepository.requirements_of_none hs
  refine ⟨by simp, by simp, by simp, by simp [hreq], ?_, fun _ _ => ⟨s, rfl⟩⟩
  intro t ht
  rw [List.mem_singleton.1 ht]
  exact ⟨rfl, by rw [hs]; exact ⟨rfl, hav⟩⟩

/-- The call of a function gains an output. -/
theorem sound_addCall (h : Sound r a nodes) {f : CalculationFunction} {s : Specification}
    (hf : r.resolve? s = some f) (hnew : ¬Produced nodes s)
    (hreq : ∀ t ∈ f.requirements s, Produced nodes t) :
    Sound r a (addCall nodes f s (f.requirements s)) ∧
      ∀ t, Produced (addCall nodes f s (f.requirements s)) t ↔ Produced nodes t ∨ t = s := by
  rw [← FunctionRepository.requirements_of_some hf] at hreq ⊢
  unfold addCall
  split
  · next i hi =>
    obtain ⟨hlt, hcall, -⟩ := List.findIdx?_eq_some_iff_getElem.1 hi
    have hn : nodes[i]? = some nodes[i] := List.getElem?_eq_getElem hlt
    generalize nodes[i] = n at hn hcall
    obtain ⟨hid, htarget⟩ : n.functionId? = some f.id ∧ n.target = s.target := by
      simpa [Node.isCall] using hcall
    have hsound := h.node i n hn
    have hkind := hsound.kind_of_functionId (FunctionRepository.resolves_of_resolve? hf).1 hid
    refine h.put (s := s) (putAt_modify hn _) (hsound.gain hf hkind htarget) (h.numbered i n hn) ?_ hnew
      hreq ?_
    · intro t
      simp [mem_union, hn, or_comm]
    · intro j m id hm him hin ht
      exact h.call_unique j i m n id hm hn him hin ht
  · next hnone =>
    refine h.put (s := s) (putAt_append nodes _) (soundNode_call hf _) rfl (by simp) hnew hreq ?_
    intro j m id hm him hin ht
    have hno := List.findIdx?_eq_none_iff.1 hnone m (List.mem_of_getElem? hm)
    have hid : f.id = id := by simpa [Node.functionId?] using hin
    simp [Node.isCall, him, hid, ht] at hno

/-- A node for market data is added. -/
theorem sound_addMarketData (h : Sound r a nodes) {s : Specification} (hs : r.resolve? s = none)
    (hav : a.isAvailable s.marketDataKey) (hnew : ¬Produced nodes s) :
    Sound r a (addMarketData nodes s) ∧
      ∀ t, Produced (addMarketData nodes s) t ↔ Produced nodes t ∨ t = s := by
  have hreq := FunctionRepository.requirements_of_none hs
  refine h.put (s := s) (putAt_append nodes _) (soundNode_marketData hs hav _) rfl (by simp) hnew
    (by simp [hreq]) ?_
  intro j m id _ _ hid
  simp [Node.functionId?] at hid

end

end Graph
end Valuation
