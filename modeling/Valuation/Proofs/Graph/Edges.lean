import Mathlib.Algebra.Order.Ring.Nat
import Valuation.Proofs.Graph.Nodes
import Valuation.Proofs.OrderedSet
import Valuation.Proofs.Result
import Valuation.Proofs.Search.TopologicalOrder

/-!
# The edges of a graph

What `ofNodes` makes of a list of nodes. The edges go from the producers of a node's inputs to the
node, once each, and are listed from both of their ends (`ofNodes_wellFormed`). The nodes can be put
in order unless they depend on each other in a circle (`ofNodes_isOk_iff`).
-/
namespace Valuation
namespace Graph

open Relation

/-! ## Producers of inputs -/

theorem requireProducer_eq_ok {nodes : List Node} {s : Specification} {i : Nat} :
    requireProducer nodes s = .ok i ↔ producer? nodes s = some i := by
  unfold requireProducer
  split
  · next h => simp [h]
  · next h => simp [h]

theorem producers_eq_ok {nodes : List Node} {n : Node} {ps : List Nat} (h : producers nodes n = .ok ps) :
    ps.Pairwise (· < ·) ∧ (∀ p, p ∈ ps ↔ ∃ s ∈ n.inputs, producer? nodes s = some p) ∧
      ∀ s ∈ n.inputs, ∃ p, producer? nodes s = some p := by
  obtain ⟨found, hfound, hps⟩ := bind_eq_ok.1 h
  cases hps
  refine ⟨OrderedSet.pairwise_lt_ofList found, fun p => ?_, fun s hs => ?_⟩
  · rw [OrderedSet.mem_toList, OrderedSet.mem_ofList, mem_of_mapM_eq_ok hfound]
    simp only [requireProducer_eq_ok]
  · obtain ⟨p, hp⟩ := isOk_of_mapM_eq_ok hfound s hs
    exact ⟨p, requireProducer_eq_ok.1 hp⟩

theorem producers_isOk {nodes : List Node} {n : Node} (h : ∀ s ∈ n.inputs, Produced nodes s) :
    ∃ ps, producers nodes n = .ok ps := by
  have hall : ∀ s ∈ n.inputs, ∃ i, requireProducer nodes s = .ok i := by
    intro s hs
    obtain ⟨i, hi⟩ := Option.isSome_iff_exists.1 (producer?_isSome_iff.2 (h s hs))
    exact ⟨i, requireProducer_eq_ok.2 hi⟩
  obtain ⟨found, hfound⟩ := mapM_isOk hall
  exact ⟨_, bind_eq_ok.2 ⟨found, hfound, rfl⟩⟩

/-! ## Both ends of an edge -/

theorem mem_edgesOf {dependencies : List (List Nat)} {p i : Nat} :
    (p, i) ∈ edgesOf dependencies ↔ p ∈ dependencies.getD i [] := by
  simp only [edgesOf, List.mem_flatMap, List.mem_map, Prod.exists, List.mem_zipIdx_iff_getElem?,
    Prod.mk.injEq]
  constructor
  · rintro ⟨ps, _, hps, _, hp, rfl, rfl⟩
    rw [List.getD_eq_getElem?_getD, hps]
    exact hp
  · intro hp
    cases hps : dependencies[i]? with
    | none => simp [hps] at hp
    | some ps => exact ⟨ps, i, hps, p, by simpa [hps] using hp, rfl, rfl⟩

theorem length_edgesOf (dependencies : List (List Nat)) :
    (edgesOf dependencies).length = (dependencies.map List.length).sum := by
  have hfst : dependencies.zipIdx.map Prod.fst = dependencies := List.zipIdx_map_fst ..
  conv_rhs => rw [← hfst, List.map_map]
  rw [edgesOf, List.length_flatMap]
  simp only [List.length_map, Function.comp_def]

/-- Edges are listed consumer by consumer, and for each by ascending producers. -/
theorem pairwise_edgesOf {dependencies : List (List Nat)}
    (h : ∀ ps ∈ dependencies, ps.Pairwise (· < ·)) :
    (edgesOf dependencies).Pairwise fun e e' => e.2 < e'.2 ∨ e.2 = e'.2 ∧ e.1 < e'.1 := by
  refine List.pairwise_flatMap.2 ⟨?_, ?_⟩
  · rintro ⟨ps, i⟩ hps
    have hsorted := h ps (List.fst_mem_of_mem_zipIdx hps)
    exact List.pairwise_map.2 (hsorted.imp fun hlt => .inr ⟨rfl, hlt⟩)
  · have hindex : dependencies.zipIdx.Pairwise fun a b => a.2 < b.2 := by
      rw [← List.pairwise_map, List.zipIdx_map_snd]
      exact List.pairwise_lt_range'
    refine hindex.imp fun hlt e he e' he' => .inl ?_
    obtain ⟨p, -, rfl⟩ := List.mem_map.1 he
    obtain ⟨p', -, rfl⟩ := List.mem_map.1 he'
    exact hlt

theorem mem_successors {edges : List (Nat × Nat)} {i j : Nat} : j ∈ successors edges i ↔ (i, j) ∈ edges := by
  simp [successors]

theorem pairwise_successors {edges : List (Nat × Nat)}
    (h : edges.Pairwise fun e e' => e.2 < e'.2 ∨ e.2 = e'.2 ∧ e.1 < e'.1) (i : Nat) :
    (successors edges i).Pairwise (· < ·) := by
  refine List.pairwise_map.2 (List.pairwise_filter.2 (h.imp ?_))
  rintro ⟨p, j⟩ ⟨p', j'⟩ hlt hp hp'
  simp only [decide_eq_true_eq] at hp hp' hlt ⊢
  omega

section
variable {nodes : List Node} {dependencies : List (List Nat)}
  (h : nodes.mapM (producers nodes) = .ok dependencies)
include h

theorem mem_dependencies {i j : Nat} :
    j ∈ dependencies.getD i [] ↔
      ∃ n, nodes[i]? = some n ∧ ∃ s ∈ n.inputs, producer? nodes s = some j := by
  have hi := getElem?_of_mapM_eq_ok h i
  rw [List.getD_eq_getElem?_getD]
  cases hn : nodes[i]? with
  | none =>
    rw [hn] at hi
    have hps := Option.map_eq_none_iff.1 hi.symm
    simp [hps]
  | some n =>
    rw [hn] at hi
    obtain ⟨ps, hps, hok⟩ := Option.map_eq_some_iff.1 hi.symm
    rw [hps, Option.getD_some, (producers_eq_ok hok.symm).2.1]
    simp

theorem sorted_of_mem_dependencies : ∀ ps ∈ dependencies, ps.Pairwise (· < ·) := by
  intro ps hps
  obtain ⟨n, -, hn⟩ := (mem_of_mapM_eq_ok h).1 hps
  exact (producers_eq_ok hn).1

theorem pairwise_dependencies (i : Nat) : (dependencies.getD i []).Pairwise (· < ·) := by
  rw [List.getD_eq_getElem?_getD]
  cases hps : dependencies[i]? with
  | none => exact List.Pairwise.nil
  | some ps => exact sorted_of_mem_dependencies h ps (List.mem_of_getElem? hps)

theorem lt_of_mem_dependencies {i j : Nat} (hj : j ∈ dependencies.getD i []) :
    j < nodes.length ∧ i < nodes.length := by
  obtain ⟨n, hn, s, -, hs⟩ := (mem_dependencies h).1 hj
  exact ⟨(List.findIdx?_eq_some_iff_getElem.1 hs).1, (List.getElem?_eq_some_iff.1 hn).1⟩

/-- The dependents are the converse of the dependencies. -/
theorem mem_dependents {i j : Nat} :
    j ∈ ((List.range nodes.length).map (successors (edgesOf dependencies))).getD i [] ↔
      i ∈ dependencies.getD j [] := by
  have hsucc : j ∈ successors (edgesOf dependencies) i ↔ i ∈ dependencies.getD j [] :=
    mem_successors.trans mem_edgesOf
  rw [← hsucc, List.getD_eq_getElem?_getD]
  by_cases hi : i < nodes.length
  · simp [hi]
  · have hno : j ∉ successors (edgesOf dependencies) i := fun hj =>
      hi (lt_of_mem_dependencies h (hsucc.1 hj)).1
    simp [hi, hno]

theorem pairwise_dependents (i : Nat) :
    (((List.range nodes.length).map (successors (edgesOf dependencies))).getD i []).Pairwise (· < ·) := by
  rw [List.getD_eq_getElem?_getD]
  by_cases hi : i < nodes.length
  · simpa [hi] using pairwise_successors (pairwise_edgesOf (sorted_of_mem_dependencies h)) i
  · simp [hi]

end

/-! ## Order -/

/-- One node has an input that another produces. -/
def DependsOn (nodes : List Node) (i j : Nat) : Prop :=
  ∃ n, nodes[i]? = some n ∧ ∃ s ∈ n.inputs, producer? nodes s = some j

theorem edge_eq_dependsOn {nodes : List Node} {dependencies : List (List Nat)}
    (h : nodes.mapM (producers nodes) = .ok dependencies) :
    Search.Edge (((List.range nodes.length).map (successors (edgesOf dependencies))).getD · []) =
      Function.swap (DependsOn nodes) := by
  funext i j
  exact propext ((mem_dependents h).trans (mem_dependencies h))

/-- The nodes cannot be ordered when one depends on itself in the end, and the error names the outputs of one that
does. -/
theorem ofNodes_eq_error {name : String} {terminals : List Specification} {nodes : List Node}
    (hinputs : ∀ n ∈ nodes, ∀ s ∈ n.inputs, Produced nodes s) {e : EngineError}
    (h : ofNodes name terminals nodes = .error e) :
    ∃ i, e = .cyclicDependency (closedOutputs nodes i) ∧ TransGen (DependsOn nodes) i i := by
  obtain ⟨dependencies, hdeps⟩ := mapM_isOk fun n hn => producers_isOk (hinputs n hn)
  rw [ofNodes, hdeps] at h
  dsimp only [bind, Except.bind] at h
  split at h
  · cases h
  · next i horder =>
    cases h
    have hcycle := Search.topologicalOrder_eq_error
      (fun u v hv => lt_of_mem_dependencies hdeps ((mem_dependents hdeps).1 hv))
      (fun u v => (mem_dependents hdeps).symm) horder
    rw [edge_eq_dependsOn hdeps, transGen_swap] at hcycle
    exact ⟨i, rfl, hcycle⟩

/-- Nodes can be ordered just if none depends on itself in the end. -/
theorem ofNodes_isOk_iff {name : String} {terminals : List Specification} {nodes : List Node}
    (hinputs : ∀ n ∈ nodes, ∀ s ∈ n.inputs, Produced nodes s) :
    (∃ g, ofNodes name terminals nodes = .ok g) ↔ ∀ i, ¬TransGen (DependsOn nodes) i i := by
  obtain ⟨dependencies, hdeps⟩ := mapM_isOk fun n hn => producers_isOk (hinputs n hn)
  have hiff := Search.topologicalOrder_isOk_iff
    (fun u v hv => lt_of_mem_dependencies hdeps ((mem_dependents hdeps).1 hv))
    (fun u v => (mem_dependents hdeps).symm)
  rw [Search.Acyclic, edge_eq_dependsOn hdeps] at hiff
  simp only [transGen_swap] at hiff
  rw [← hiff, ofNodes, hdeps]
  dsimp only [bind, Except.bind]
  split
  · next order horder => exact ⟨fun _ => ⟨order, horder⟩, fun _ => ⟨_, rfl⟩⟩
  · next i horder =>
    constructor
    · rintro ⟨g, hg⟩
      cases hg
    · rintro ⟨order, h⟩
      rw [h] at horder
      cases horder

/-! ## Well-formed graphs -/

/-- The nodes of a graph, its edges and its order fit each other. -/
structure WellFormed (g : Graph) : Prop where
  numbered : ∀ (i : Nat) n, g.node? i = some n → n.number = i
  dependencies_length : g.dependencies.length = g.size
  dependencies_sorted : ∀ i, (g.dependenciesOf i).Pairwise (· < ·)
  mem_dependenciesOf : ∀ i j, j ∈ g.dependenciesOf i ↔
    ∃ n, g.node? i = some n ∧ ∃ s ∈ n.inputs, g.producerOf? s = some j
  dependents_sorted : ∀ i, (g.dependentsOf i).Pairwise (· < ·)
  mem_dependentsOf : ∀ i j, j ∈ g.dependentsOf i ↔ i ∈ g.dependenciesOf j
  edgeCount_eq : g.edgeCount = ((List.range g.size).map fun i => (g.dependenciesOf i).length).sum
  order_perm : g.order.Perm (List.range g.size)
  producer_before : ∀ (i : Nat) n, g.node? i = some n → ∀ s ∈ n.inputs,
    ∃ p, g.producerOf? s = some p ∧ g.order.idxOf p < g.order.idxOf i

theorem ofNodes_of_order {name : String} {terminals : List Specification} {nodes : List Node}
    {dependencies : List (List Nat)} {order : List Nat} (hdeps : nodes.mapM (producers nodes) = .ok dependencies)
    (horder : Search.topologicalOrder nodes.length
      (((List.range nodes.length).map (successors (edgesOf dependencies))).getD · []) (dependencies.getD · []) =
        .ok order) :
    ofNodes name terminals nodes = .ok {
      name, nodes, dependencies, order, terminals
      edges := edgesOf dependencies
      dependents := (List.range nodes.length).map (successors (edgesOf dependencies)) } := by
  refine bind_eq_ok.2 ⟨dependencies, hdeps, ?_⟩
  dsimp only
  rw [horder]
  rfl

theorem ofNodes_eq_ok {name : String} {terminals : List Specification} {nodes : List Node} {g : Graph}
    (h : ofNodes name terminals nodes = .ok g) :
    g.name = name ∧ g.terminals = terminals ∧ g.nodes = nodes ∧
      nodes.mapM (producers nodes) = .ok g.dependencies ∧ g.edges = edgesOf g.dependencies ∧
      g.dependents = (List.range nodes.length).map (successors g.edges) ∧
      Search.topologicalOrder nodes.length g.dependentsOf g.dependenciesOf = .ok g.order := by
  obtain ⟨dependencies, hdeps, h⟩ := bind_eq_ok.1 h
  dsimp only at h
  split at h
  · next order horder =>
    cases h
    exact ⟨rfl, rfl, rfl, hdeps, rfl, rfl, horder⟩
  · cases h

theorem ofNodes_wellFormed {name : String} {terminals : List Specification} {nodes : List Node} {g : Graph}
    (hnumbered : ∀ (i : Nat) n, nodes[i]? = some n → n.number = i)
    (h : ofNodes name terminals nodes = .ok g) : g.WellFormed := by
  obtain ⟨-, -, rfl, hdeps, hedges, hdependents, horder⟩ := ofNodes_eq_ok h
  have hconv : ∀ i j, j ∈ g.dependentsOf i ↔ i ∈ g.dependenciesOf j := by
    intro i j
    rw [dependentsOf, hdependents, hedges]
    exact mem_dependents hdeps
  have hlength : g.dependencies.length = g.size := by
    have := congrArg List.length (mapM_eq_ok.1 hdeps)
    simpa [size, eq_comm] using this
  obtain ⟨hperm, hbefore⟩ := Search.topologicalOrder_spec
    (fun u v hv => lt_of_mem_dependencies hdeps ((hconv u v).1 hv)) (fun u v => (hconv u v).symm) horder
  refine ⟨hnumbered, hlength, pairwise_dependencies hdeps, fun i j => mem_dependencies hdeps, fun i => ?_, hconv, ?_,
    hperm, fun i n hn s hs => ?_⟩
  · rw [dependentsOf, hdependents, hedges]
    exact pairwise_dependents hdeps i
  · have hall : (List.range g.size).map g.dependenciesOf = g.dependencies := by
      refine List.ext_getElem (by simp [hlength]) fun i _ hi => ?_
      simp [dependenciesOf, hi]
    rw [edgeCount, hedges, length_edgesOf, ← hall, List.map_map]
    rfl
  · obtain ⟨ps, hps⟩ := isOk_of_mapM_eq_ok hdeps n (List.mem_of_getElem? hn)
    obtain ⟨p, hp⟩ := (producers_eq_ok hps).2.2 s hs
    exact ⟨p, hp, hbefore p i ((hconv p i).2 ((mem_dependencies hdeps).2 ⟨n, hn, s, hs, hp⟩))⟩

end Graph
end Valuation
