import Valuation.Proofs.Execution.Outcome
import Valuation.Proofs.Execution.Reading

/-!
# What a node depends on

A graph may be run with other snapshots, and its functions may do something else from run to run
(`Graph.behaving`). Whatever differs between two runs, an error, a missing value or another one, shows in the
nodes where it differs and behind them, and nowhere else: what becomes of every other node is the same in both
(`evaluate_eq_of_not_affected`), however far the strategies, the interleavings and the failures elsewhere are
apart (`runUnder_isolated`).
-/
namespace Valuation

open Relation

/-! ## Other behaviour -/

/-- What the functions of a graph do in a run, node by node. -/
abbrev Behaviour := Nat → Target → FunctionInputs → List Specification → Evaluation

/-- A call that does something else. -/
def NodeKind.behaving (execute : Target → FunctionInputs → List Specification → Evaluation) : NodeKind → NodeKind
  | .function f => .function { f with execute }
  | .marketData key => .marketData key

namespace Node

def behaving (n : Node) (execute : Target → FunctionInputs → List Specification → Evaluation) : Node :=
  { n with kind := n.kind.behaving execute }

/-- What the function of a node does. Market data does nothing. -/
def behaviour (n : Node) : Target → FunctionInputs → List Specification → Evaluation :=
  match n.kind with
  | .function f => f.execute
  | .marketData _ => fun _ _ _ => { result := .ok [] }

theorem behaving_behaviour (n : Node) : n.behaving n.behaviour = n := by
  obtain ⟨number, target, kind, inputs, outputs⟩ := n
  cases kind with
  | function f => rfl
  | marketData key => rfl

end Node

namespace Graph

/-- A graph whose functions do something else. -/
def behaving (g : Graph) (b : Behaviour) : Graph :=
  { g with nodes := g.nodes.map fun n => n.behaving (b n.number) }

/-- What the functions of a graph do by themselves. -/
def behaviour (g : Graph) : Behaviour := fun i t inputs outputs =>
  match g.node? i with
  | some n => n.behaviour t inputs outputs
  | none => { result := .ok [] }

section
variable {g : Graph} {b b' : Behaviour}

theorem node?_behaving (g : Graph) (b : Behaviour) (i : Nat) :
    (g.behaving b).node? i = (g.node? i).map fun n => n.behaving (b n.number) :=
  List.getElem?_map

@[simp] theorem size_behaving (g : Graph) (b : Behaviour) : (g.behaving b).size = g.size :=
  List.length_map _

@[simp] theorem producerOf?_behaving (g : Graph) (b : Behaviour) : (g.behaving b).producerOf? = g.producerOf? := by
  funext s
  exact List.findIdx?_map

/-- Left to themselves, functions do what they do. -/
theorem behaving_behaviour (hg : g.Runnable) : g.behaving g.behaviour = g := by
  have hnodes : (g.nodes.map fun n => n.behaving (g.behaviour n.number)) = g.nodes := by
    refine List.map_congr_left (fun n hn => ?_) |>.trans (List.map_id _)
    obtain ⟨i, hi⟩ := List.mem_iff_getElem?.1 hn
    have hnumber : g.node? n.number = some n := by rw [hg.numbered i n hi]; exact hi
    have hown : g.behaviour n.number = n.behaviour := by
      funext t inputs outputs
      rw [behaviour, hnumber]
    rw [hown, n.behaving_behaviour]
    rfl
  unfold behaving
  rw [hnodes]

/-- The nodes are where they were. -/
theorem exists_node?_behaving {i : Nat} {p : Node → Prop} (hp : ∀ n execute, p (n.behaving execute) ↔ p n) :
    (∃ n, (g.behaving b).node? i = some n ∧ p n) ↔ ∃ n, g.node? i = some n ∧ p n := by
  rw [node?_behaving]
  cases g.node? i with
  | none => simp
  | some n => simp [hp]

/-- What the functions do has no part in whether a graph can be run. -/
theorem Runnable.behaving (hg : g.Runnable) (b : Behaviour) : (g.behaving b).Runnable := by
  have hnode : ∀ {i : Nat} {n : Node}, (g.behaving b).node? i = some n →
      ∃ m, g.node? i = some m ∧ n = m.behaving (b m.number) := by
    intro i n hn
    obtain ⟨m, hm, rfl⟩ := Option.map_eq_some_iff.1 ((g.node?_behaving b i).symm.trans hn)
    exact ⟨m, hm, rfl⟩
  refine ⟨⟨?_, ?_, hg.dependencies_sorted, ?_, hg.dependents_sorted, hg.mem_dependentsOf, ?_, ?_, ?_⟩, ?_, ?_, ?_,
    ?_, ?_⟩
  · intro i n hn
    obtain ⟨m, hm, rfl⟩ := hnode hn
    exact hg.numbered i m hm
  · rw [size_behaving]
    exact hg.dependencies_length
  · intro i j
    rw [producerOf?_behaving, exists_node?_behaving fun _ _ => Iff.rfl]
    exact hg.mem_dependenciesOf i j
  · rw [size_behaving]
    exact hg.edgeCount_eq
  · rw [size_behaving]
    exact hg.order_perm
  · intro i n hn
    obtain ⟨m, hm, rfl⟩ := hnode hn
    rw [producerOf?_behaving]
    exact hg.producer_before i m hm
  · intro s i
    rw [producerOf?_behaving, exists_node?_behaving fun _ _ => Iff.rfl]
    exact hg.producerOf?_eq_some_iff s i
  · intro i n hn
    obtain ⟨m, hm, rfl⟩ := hnode hn
    exact hg.outputs_nodup i m hm
  · intro i n hn
    obtain ⟨m, hm, rfl⟩ := hnode hn
    exact hg.outputs_ne_nil i m hm
  · intro i n hn
    obtain ⟨m, hm, rfl⟩ := hnode hn
    exact hg.inputs_nodup i m hm
  · intro i n key hn hkey
    obtain ⟨m, hm, rfl⟩ := hnode hn
    refine hg.marketData_inputs i m key hm ?_
    cases hkind : m.kind with
    | function f => simp [Node.behaving, NodeKind.behaving, hkind] at hkey
    | marketData key' => simpa [Node.behaving, NodeKind.behaving, hkind] using hkey

@[simp] theorem marketDataKeys_behaving (g : Graph) (b : Behaviour) :
    (g.behaving b).marketDataKeys = g.marketDataKeys := by
  have hkey : ∀ n : Node, (n.behaving (b n.number)).marketDataKey? = n.marketDataKey? := by
    intro n
    obtain ⟨number, target, kind, inputs, outputs⟩ := n
    cases kind with
    | function f => rfl
    | marketData key => rfl
  have hkeys : (g.behaving b).nodes.filterMap (·.marketDataKey?) = g.nodes.filterMap (·.marketDataKey?) := by
    refine List.filterMap_map.trans (List.filterMap_congr fun n _ => ?_)
    exact hkey n
  unfold marketDataKeys
  rw [hkeys]

/-! ## Where runs differ -/

/-- The functions of two runs make the same of a node, whatever its inputs are. -/
def BehaveAlike (g : Graph) (b b' : Behaviour) (i : Nat) : Prop :=
  ∀ n, g.node? i = some n → ∀ inputs, b i n.target inputs n.outputs = b' i n.target inputs n.outputs

/-- Two snapshots say the same about all keys that a graph reads but some. -/
def AgreeOutside (g : Graph) (K : Set MarketDataKey) (s s' : Snapshot) : Prop :=
  ∀ key ∈ g.marketDataKeys, key ∉ K → s.get? key = s'.get? key

/-- A node is one of some, or reads one of some keys. -/
def Touched (g : Graph) (K : Set MarketDataKey) (F : Set Nat) (i : Nat) : Prop :=
  i ∈ F ∨ ∃ n key, g.node? i = some n ∧ n.kind = .marketData key ∧ key ∈ K

/-- A node is touched or lies behind one that is. -/
def Affected (g : Graph) (K : Set MarketDataKey) (F : Set Nat) (i : Nat) : Prop :=
  ∃ j, g.Touched K F j ∧ ReflTransGen g.Feeds j i

variable {K : Set MarketDataKey} {F : Set Nat} {s s' : Snapshot} {i : Nat}

theorem not_touched_of_not_affected (h : ¬g.Affected K F i) : ¬g.Touched K F i :=
  fun ht => h ⟨i, ht, .refl⟩

theorem not_affected_of_feeds (h : ¬g.Affected K F i) {j : Nat} (hj : j ∈ g.dependenciesOf i) :
    ¬g.Affected K F j :=
  fun ⟨k, hk, hkj⟩ => h ⟨k, hk, hkj.tail hj⟩

/-- What becomes of a node follows from what its function does, or what its key has, and from its inputs. -/
theorem verdict_behaving_congr {n : Node} {execute execute' : Target → FunctionInputs → List Specification → Evaluation}
    {value? value?' : Specification → Option DataValue} (hvalues : ∀ t ∈ n.inputs, value? t = value?' t)
    (hdata : ∀ key, n.kind = .marketData key → s.get? key = s'.get? key)
    (hcalls : ∀ inputs, execute n.target inputs n.outputs = execute' n.target inputs n.outputs) :
    (n.behaving execute).verdict s value? = (n.behaving execute').verdict s' value?' := by
  have hinputs : (n.behaving execute).verdict s value? = (n.behaving execute).verdict s value?' :=
    Node.verdict_congr hvalues
  rw [hinputs]
  cases hkind : n.kind with
  | marketData key =>
    have hread : (n.behaving execute').readMarketData key s' = (n.behaving execute).readMarketData key s :=
      Run.readMarketData_congr n (hdata key hkind)
    simp only [Node.verdict, Node.behaving, NodeKind.behaving, hkind] at hread ⊢
    rw [hread]
  | function f =>
    simp only [Node.verdict, Node.behaving, NodeKind.behaving, hkind, CalculationFunction.invoke, hcalls]
    rfl

/-- What becomes of a node that is not affected is the same in both runs. -/
theorem evaluate_eq_of_not_affected (hg : g.Runnable) (hdata : g.AgreeOutside K s s')
    (halike : ∀ i ∉ F, g.BehaveAlike b b' i) (hi : ¬g.Affected K F i) :
    (g.behaving b).evaluate s i = (g.behaving b').evaluate s' i := by
  induction hk : g.order.idxOf i using Nat.strong_induction_on generalizing i with
  | _ k ih =>
    subst hk
    cases hn : g.node? i with
    | none =>
      have hnone : ∀ b s, (g.behaving b).evaluate s i = .upstream := by
        intro b s
        rw [evaluate, node?_behaving, hn]
        rfl
      rw [hnone, hnone]
    | some n =>
      have hnode : ∀ b, (g.behaving b).node? i = some (n.behaving (b i)) := by
        intro b
        rw [node?_behaving, hn, Option.map_some, hg.numbered i n hn]
      have huntouched := not_touched_of_not_affected hi
      rw [evaluate_eq (hg.behaving b) (hnode b), evaluate_eq (hg.behaving b') (hnode b')]
      refine verdict_behaving_congr (fun t ht => ?_) (fun key hkey => ?_) fun inputs => ?_
      · obtain ⟨p, hp, hbefore⟩ := hg.producer_before i n hn t ht
        have hfeeds : p ∈ g.dependenciesOf i := (hg.mem_dependenciesOf i p).2 ⟨n, hn, t, ht, hp⟩
        rw [valueOf?, valueOf?, verdictOf?, verdictOf?, producerOf?_behaving, producerOf?_behaving, hp,
          Option.map_some, Option.map_some, ih _ hbefore (not_affected_of_feeds hi hfeeds) rfl]
      · exact hdata key (mem_marketDataKeys hn hkey) fun hK => huntouched (.inr ⟨n, key, hn, hkey, hK⟩)
      · exact halike i (fun hF => huntouched (.inl hF)) n hn inputs

end

end Graph

namespace Run

theorem statusOf_of_settled {g : Graph} {s : Snapshot} {r : Run} (h : Faithful g s r) (hsettled : Settled g r)
    {i : Nat} (hi : i < g.size) :
    r.statusOf i = if (g.evaluate s i).isOk then .executed else .failed := by
  split
  · next hok => exact (executed_iff_isOk h hsettled hi).2 hok
  · next hfails => exact (failed_iff_not_isOk h hsettled hi).2 (Bool.eq_false_iff.2 hfails)

end Run

/-- Two runs leave the same behind for a specification: a value, or a failure, and the same reason if that names
no other node. -/
structure ExecutionOutcome.SameAt (o o' : ExecutionOutcome) (t : Specification) : Prop where
  value : o.cache.get? t = o'.cache.get? t
  failed : (o.failures.get? t).isSome ↔ (o'.failures.get? t).isSome
  reason : ∀ reason, (∀ u, reason ≠ .dependencyFailure u) →
    (o.failures.get? t = some reason ↔ o'.failures.get? t = some reason)
  upstream : (∃ u, o.failures.get? t = some (.dependencyFailure u)) ↔
    ∃ u, o'.failures.get? t = some (.dependencyFailure u)

theorem ExecutionOutcome.Agrees.sameAt {o o' : ExecutionOutcome} {g g' : Graph} {s s' : Snapshot} {t : Specification}
    (h : o.Agrees g s) (h' : o'.Agrees g' s') (hverdict : g.verdictOf? s t = g'.verdictOf? s' t) : o.SameAt o' t where
  value := by rw [h.cached, h'.cached, Graph.valueOf?, Graph.valueOf?, hverdict]
  failed := by rw [h.failed, h'.failed, hverdict]
  reason reason hown := by rw [h.reason t reason hown, h'.reason t reason hown, hverdict]
  upstream := by rw [h.upstream, h'.upstream, hverdict]

namespace Executor

open Run

/-- Two runs of a graph, under any executors, interleavings and controls, come to the same for the nodes that are not
affected by where they differ. -/
structure Isolates (g : Graph) : Prop where
  outcome : ∀ {K : Set MarketDataKey} {F : Set Nat} {b b' : Behaviour} {s s' : Snapshot},
    g.AgreeOutside K s s' → (∀ i ∉ F, g.BehaveAlike b b' i) →
    ∀ {e e' : Executor} {x x' : Interleaving} {c c' : Control},
      (e.runUnder x (g.behaving b) s c).cancelled = false → (e'.runUnder x' (g.behaving b') s' c').cancelled = false →
      ∀ i, ¬g.Affected K F i → ∀ t ∈ g.outputsOf i,
        (e.drive x (g.behaving b) s c).1.statusOf i = (e'.drive x' (g.behaving b') s' c').1.statusOf i ∧
        (e.runUnder x (g.behaving b) s c).SameAt (e'.runUnder x' (g.behaving b') s' c') t
  /-- Keys that the graph does not read have no part in a run, cancelled or not. -/
  unread : ∀ {b : Behaviour} {s s' : Snapshot}, g.AgreeOn s s' → ∀ (e : Executor) (x : Interleaving) (c : Control),
    e.runUnder x (g.behaving b) s c = e.runUnder x (g.behaving b) s' c
  /-- The functions of the graph as they are count among the behaviours. -/
  itself : g.behaving g.behaviour = g

variable {compiler : GraphCompiler} {d : ViewDefinition} {a : Availability} {g : Graph}

/-- Whatever differs between two runs of a compiled graph stays where it differs and behind that. -/
theorem runUnder_isolated (hcompile : compiler.compileUncached d a = .ok g) : Isolates g := by
  have hg := Graph.runnable_of_compile hcompile
  refine ⟨?_, ?_, Graph.behaving_behaviour hg⟩
  · intro K F b b' s s' hdata halike e e' x x' c c' hgoes hgoes' i hi t ht
    have hverdict := Graph.evaluate_eq_of_not_affected hg hdata halike hi
    have hlt : i < g.size := Graph.lt_size_of_mem_outputsOf ht
    constructor
    · have hrest := drive_atRest (hg.behaving b) e x s c
      have hrest' := drive_atRest (hg.behaving b') e' x' s' c'
      rw [statusOf_of_settled hrest.toFaithful (hrest.settled hgoes) (by simpa using hlt),
        statusOf_of_settled hrest'.toFaithful (hrest'.settled hgoes') (by simpa using hlt), hverdict]
    · have hproducer : g.producerOf? t = some i :=
        (hg.producerOf?_eq_some_iff t i).2 (Graph.mem_outputsOf_iff.1 ht)
      refine (runUnder_agrees (hg.behaving b) e x s c hgoes).sameAt
        (runUnder_agrees (hg.behaving b') e' x' s' c' hgoes') ?_
      simp only [Graph.verdictOf?, Graph.producerOf?_behaving, hproducer, Option.map_some, hverdict]
  · intro b s s' hreads e x c
    refine runUnder_eq_of_agree (fun key hkey => ?_) e x c
    rw [Graph.marketDataKeys_behaving] at hkey
    exact hreads key hkey

theorem demo_isolated : ∃ r g, Demo.repository = .ok r ∧
    (GraphCompiler.ofRepository r 1).compileUncached (Demo.definition 2) Demo.everything = .ok g ∧ Isolates g ∧
    ∀ i, ¬g.Affected {key | (Demo.snapshot 2).get? key ≠ (Demo.snapshot 1).get? key} ∅ i → ∀ t ∈ g.outputsOf i,
      (singleThreaded.runUnder {} g (Demo.snapshot 2) {}).SameAt
        (jobDispatch.runUnder Demo.outOfOrder g (Demo.snapshot 1) {}) t := by
  obtain ⟨r, g, hr, hfunctions, hcompile⟩ := Demo.exists_graph 2
  have hg := Graph.runnable_of_compile hcompile
  have hquiet : g.NeverCancels := by
    intro n hn f hf
    exact Demo.cancels_eq_false (hfunctions ▸ Graph.function_mem_of_compile hcompile hn hf)
  have hisolates := runUnder_isolated hcompile
  refine ⟨r, g, hr, hcompile, hisolates, fun i hi t ht => ?_⟩
  have hdata : g.AgreeOutside {key | (Demo.snapshot 2).get? key ≠ (Demo.snapshot 1).get? key}
      (Demo.snapshot 2) (Demo.snapshot 1) := fun _ _ hsame => not_not.1 hsame
  have halike : ∀ i ∉ (∅ : Set Nat), g.BehaveAlike g.behaviour g.behaviour i := fun _ _ _ _ _ => rfl
  have hgoes : ∀ (e : Executor) (x : Interleaving) (s : Snapshot), (∀ k, x.raised k = false) →
      (e.runUnder x (g.behaving g.behaviour) s {}).cancelled = false := by
    intro e x s hraised
    rw [hisolates.itself]
    exact cancelled_eq_false hg s rfl (fun _ => hquiet) e hraised
  have hsame := (hisolates.outcome hdata halike (hgoes singleThreaded {} _ fun _ => rfl)
    (hgoes jobDispatch Demo.outOfOrder _ fun _ => rfl) i hi t ht).2
  rwa [hisolates.itself] at hsame

end Executor
end Valuation
