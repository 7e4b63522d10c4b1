import Valuation.Proofs.Graph.Edges
import Valuation.Proofs.Graph.Resolution

/-!
# Compiling a view

How a view's requirements and the graph made of them fit together. Nodes correspond to the vertices of
the graph of calls (`Sound.eq_of_nodeVertex_eq`), so the nodes depend on each other in a circle just if
the calls do (`Sound.acyclic_iff`). It follows when a view has a graph (`compile_isOk_iff`) and what is
reported when it has none (`compile_eq_error`).
-/
namespace Valuation

open Relation

namespace Graph

variable {r : FunctionRepository} {a : Availability} {d : ViewDefinition}

/-! ## Nodes and vertices -/

/-- What a node stands for in the graph of calls. -/
def nodeVertex (n : Node) : Vertex :=
  match n.kind with
  | .function f => .call f.id n.target
  | .marketData _ => .marketData (n.outputs.headD default)

theorem SoundNode.vertexOf_eq {n : Node} (h : SoundNode r a n) {s : Specification} (hs : s ∈ n.outputs) :
    vertexOf r s = nodeVertex n := by
  unfold vertexOf nodeVertex
  cases hk : n.kind with
  | function f => rw [h.resolve?_eq_some hk hs, (h.serves s hs).1]
  | marketData key =>
    obtain ⟨t, ht⟩ := h.marketData key hk
    have hst : s = t := by simpa [ht] using hs
    rw [h.resolve?_eq_none hk hs, ht, hst]
    rfl

/-- Each vertex has one node at most. -/
theorem Sound.eq_of_nodeVertex_eq {nodes : List Node} (h : Sound r a nodes) {i j : Nat} {n m : Node}
    (hn : nodes[i]? = some n) (hm : nodes[j]? = some m) (hv : nodeVertex n = nodeVertex m) : i = j := by
  unfold nodeVertex at hv
  cases hnk : n.kind with
  | function f =>
    cases hmk : m.kind with
    | function g =>
      simp only [hnk, hmk, Vertex.call.injEq] at hv
      refine h.call_unique i j n m f.id hn hm ?_ ?_ hv.2
      · rw [Node.functionId?, hnk]
      · rw [Node.functionId?, hmk, hv.1]
    | marketData key => simp [hnk, hmk] at hv
  | marketData key =>
    cases hmk : m.kind with
    | function g => simp [hnk, hmk] at hv
    | marketData key' =>
      obtain ⟨s, hs⟩ := (h.node i n hn).marketData key hnk
      obtain ⟨t, ht⟩ := (h.node j m hm).marketData key' hmk
      simp only [hnk, hmk, hs, ht, List.headD_cons, Vertex.marketData.injEq] at hv
      exact h.output_unique i j n m s hn hm (by simp [hs]) (by simp [ht, hv])

/-! ## Cycles of nodes and of calls -/

/-- Cycles stay cycles when the labels of the vertices are replaced by others that tell the same ones
apart. -/
theorem exists_transGen_relabel {α β γ : Type} {R : α → α → Prop} {P : α → β → Prop} {Q : α → γ → Prop}
    (hQ : ∀ s t, R s t → (∃ x, Q s x) ∧ ∃ y, Q t y)
    (hPQ : ∀ s t v x y, P s v → P t v → Q s x → Q t y → x = y) {v : β}
    (h : TransGen (fun v w => ∃ s t, R s t ∧ P s v ∧ P t w) v v) :
    ∃ x, TransGen (fun x y => ∃ s t, R s t ∧ Q s x ∧ Q t y) x x := by
  have hpath : ∀ {v w : β}, TransGen (fun v w => ∃ s t, R s t ∧ P s v ∧ P t w) v w →
      ∃ s t x y, P s v ∧ P t w ∧ Q s x ∧ Q t y ∧
        TransGen (fun x y => ∃ s t, R s t ∧ Q s x ∧ Q t y) x y := by
    intro v w h
    induction h with
    | single he =>
      obtain ⟨s, t, hst, hs, ht⟩ := he
      obtain ⟨⟨x, hx⟩, y, hy⟩ := hQ s t hst
      exact ⟨s, t, x, y, hs, ht, hx, hy, .single ⟨s, t, hst, hx, hy⟩⟩
    | tail _ he ih =>
      obtain ⟨s, t, x, y, hs, ht, hx, hy, hxy⟩ := ih
      obtain ⟨t', u, htu, ht', hu⟩ := he
      obtain ⟨⟨y', hy'⟩, z, hz⟩ := hQ t' u htu
      have hyy : y = y' := hPQ t t' _ y y' ht ht' hy hy'
      exact ⟨s, u, x, z, hs, hu, hx, hz, hxy.tail ⟨t', u, htu, hyy ▸ hy', hz⟩⟩
  obtain ⟨s, t, x, y, hs, ht, hx, hy, hxy⟩ := hpath h
  exact ⟨x, hPQ t s v y x ht hs hy hx ▸ hxy⟩

theorem Sound.dependsOn_iff {nodes : List Node} {roots : List Specification} (h : Sound r a nodes)
    (hprod : ∀ s, Produced nodes s ↔ Required r roots s) {i j : Nat} :
    DependsOn nodes i j ↔
      ∃ s t, Requires r roots s t ∧ producer? nodes s = some i ∧ producer? nodes t = some j := by
  constructor
  · rintro ⟨n, hn, t, ht, hj⟩
    obtain ⟨s, hs, hst⟩ := ((h.node i n hn).mem_inputs t).1 ht
    have hreq : Required r roots s := (hprod s).1 ⟨n, List.mem_of_getElem? hn, hs⟩
    exact ⟨s, t, ⟨hreq, hst⟩, h.producer?_eq_some_iff.2 ⟨n, hn, hs⟩, hj⟩
  · rintro ⟨s, t, ⟨-, hst⟩, hi, hj⟩
    obtain ⟨n, hn, hs⟩ := producer?_eq_some hi
    exact ⟨n, hn, t, ((h.node i n hn).mem_inputs t).2 ⟨s, hs, hst⟩, hj⟩

/-- Nodes depend on each other in a circle just if calls do. -/
theorem Sound.acyclic_iff {nodes : List Node} {roots : List Specification} (h : Sound r a nodes)
    (hprod : ∀ s, Produced nodes s ↔ Required r roots s) :
    (∀ i, ¬TransGen (DependsOn nodes) i i) ↔ AcyclicCalls r roots := by
  have hrel : DependsOn nodes = fun i j =>
      ∃ s t, Requires r roots s t ∧ producer? nodes s = some i ∧ producer? nodes t = some j := by
    funext i j
    exact propext (h.dependsOn_iff hprod)
  have hproducer : ∀ s, Required r roots s → ∃ i, producer? nodes s = some i := fun s hs =>
    Option.isSome_iff_exists.1 (producer?_isSome_iff.2 ((hprod s).2 hs))
  have hvertex : ∀ {s i n}, nodes[i]? = some n → s ∈ n.outputs → vertexOf r s = nodeVertex n :=
    fun hn hs => (h.node _ _ hn).vertexOf_eq hs
  rw [hrel]
  constructor
  · intro hacyclic v hv
    have hnode : ∀ s t v i j, vertexOf r s = v → vertexOf r t = v → producer? nodes s = some i →
        producer? nodes t = some j → i = j := by
      intro s t v i j hs ht hi hj
      obtain ⟨n, hn, hsn⟩ := producer?_eq_some hi
      obtain ⟨m, hm, htm⟩ := producer?_eq_some hj
      exact h.eq_of_nodeVertex_eq hn hm (by rw [← hvertex hn hsn, ← hvertex hm htm, hs, ht])
    obtain ⟨i, hi⟩ := exists_transGen_relabel
      (fun s t hst => ⟨hproducer s hst.1, hproducer t (.step hst.1 hst.2)⟩) hnode hv
    exact hacyclic i hi
  · intro hacyclic i hi
    have hcall : ∀ s t i v w, producer? nodes s = some i → producer? nodes t = some i →
        vertexOf r s = v → vertexOf r t = w → v = w := by
      intro s t i v w hs ht hv hw
      obtain ⟨n, hn, hsn⟩ := producer?_eq_some hs
      obtain ⟨m, hm, htm⟩ := producer?_eq_some ht
      rw [hn] at hm
      cases hm
      rw [← hv, ← hw, hvertex hn hsn, hvertex hn htm]
    obtain ⟨v, hv⟩ := exists_transGen_relabel (fun s t _ => ⟨⟨_, rfl⟩, _, rfl⟩) hcall hi
    exact hacyclic v hv

/-! ## Success and failure -/

/-- Resolving from scratch gathers exactly the requirements. -/
theorem Resolves.gathers {roots : List Specification} {nodes : List Node} {made : List Consultation}
    (h : Resolves r a [] [] roots (.ok nodes) made) :
    Sound r a nodes ∧ ∀ s, Produced nodes s ↔ Required r roots s := by
  obtain ⟨hsound, hprod, -⟩ := h.adds sound_nil
  refine ⟨hsound, fun s => ?_⟩
  rw [hprod]
  simp [Produced]

theorem compile_eq_ok {g : Graph} (h : compile r a d = .ok g) :
    ∃ nodes, Sound r a nodes ∧ (∀ s, Produced nodes s ↔ Required r d.terminals s) ∧
      ofNodes d.name d.terminals nodes = .ok g := by
  unfold compile at h
  split at h
  · next nodes hnodes =>
    obtain ⟨_, hresolves⟩ := resolves_of_resolveAll hnodes
    obtain ⟨hsound, hprod⟩ := hresolves.gathers
    exact ⟨nodes, hsound, hprod, h⟩
  · cases h
  · cases h

/-- The requirements of some specifications are gathered in full, or there is a complaint. -/
theorem resolveAll_nil_cases (a : Availability) {roots : List Specification}
    (hfinite : {s | Required r roots s}.Finite) :
    (∃ nodes, resolveAll r a [] [] roots = some (.ok nodes) ∧ Sound r a nodes ∧
      ∀ s, Produced nodes s ↔ Required r roots s) ∨
    ∃ e, resolveAll r a [] [] roots = some (.error e) ∧ Complaint r a roots e := by
  obtain ⟨result, hresult⟩ := resolveAll_isSome (a := a) hfinite [] []
  obtain ⟨_, hresolves⟩ := resolves_of_resolveAll hresult
  cases result with
  | ok nodes => exact .inl ⟨nodes, hresult, hresolves.gathers⟩
  | error e => exact .inr ⟨e, hresult, hresolves.complaint (fun s hs => .root hs) (by simp)⟩

theorem Sound.satisfied {nodes : List Node} {roots : List Specification} (h : Sound r a nodes)
    (hprod : ∀ s, Produced nodes s ↔ Required r roots s) : Satisfied r a roots := by
  intro s hs
  obtain ⟨n, hn, hsn⟩ := (hprod s).2 hs
  have hserves := ((h.node_of_mem hn).serves s hsn).2
  cases hf : r.resolve? s with
  | some f => exact .inl rfl
  | none =>
    rw [hf] at hserves
    exact .inr hserves.2

theorem Sound.produced_of_mem_inputs {nodes : List Node} (h : Sound r a nodes) :
    ∀ n ∈ nodes, ∀ t ∈ n.inputs, Produced nodes t := by
  intro n hn t ht
  obtain ⟨s, hs, hst⟩ := ((h.node_of_mem hn).mem_inputs t).1 ht
  exact h.closed s t ⟨n, hn, hs⟩ hst

/-- A view with finitely many requirements has a graph just if they are satisfied and its calls do not
go round in a circle. -/
theorem compile_isOk_iff (hfinite : {s | Required r d.terminals s}.Finite) :
    (∃ g, compile r a d = .ok g) ↔ Satisfied r a d.terminals ∧ AcyclicCalls r d.terminals := by
  unfold compile
  rcases resolveAll_nil_cases a hfinite with ⟨nodes, hnodes, hsound, hprod⟩ | ⟨e, he, hcomplaint⟩
  · rw [hnodes]
    dsimp only
    rw [ofNodes_isOk_iff hsound.produced_of_mem_inputs, hsound.acyclic_iff hprod]
    exact ⟨fun h => ⟨hsound.satisfied hprod, h⟩, And.right⟩
  · rw [he]
    constructor
    · rintro ⟨g, hg⟩
      cases hg
    · rintro ⟨hsatisfied, hacyclic⟩
      cases hcomplaint with
      | cyclic hs => exact absurd hs (hacyclic.not_requires _)
      | unsatisfied hs hf hav => simpa [hf, hav] using hsatisfied _ hs

/-- A view without a graph has an unsatisfied requirement, of which the error is one, or its calls go
round in a circle, and the error says so. -/
theorem compile_eq_error (hfinite : {s | Required r d.terminals s}.Finite) {e : EngineError}
    (h : compile r a d = .error e) :
    (∃ s, e = .unsatisfiedDependency s ∧ Required r d.terminals s ∧ r.resolve? s = none ∧
      a.isAvailable s.marketDataKey = false) ∨
    (∃ path, e = .cyclicDependency path) ∧ ¬AcyclicCalls r d.terminals := by
  unfold compile at h
  rcases resolveAll_nil_cases a hfinite with ⟨nodes, hnodes, hsound, hprod⟩ | ⟨e', he, hcomplaint⟩
  · rw [hnodes] at h
    dsimp only at h
    have hinputs := hsound.produced_of_mem_inputs
    obtain ⟨i, he, -⟩ := ofNodes_eq_error hinputs h
    refine .inr ⟨⟨_, he⟩, fun hacyclic => ?_⟩
    obtain ⟨g, hg⟩ := (ofNodes_isOk_iff hinputs).2 ((hsound.acyclic_iff hprod).2 hacyclic)
    rw [hg] at h
    cases h
  · rw [he] at h
    cases h
    cases hcomplaint with
    | cyclic hs => exact .inr ⟨⟨_, rfl⟩, fun hacyclic => hacyclic.not_requires _ hs⟩
    | unsatisfied hs hf hav => exact .inl ⟨_, rfl, hs, hf, hav⟩

end Graph

end Valuation
