import Valuation.Proofs.Demo
import Valuation.Proofs.OrderedSet
import Valuation.Proofs.Table

/-!
# Kept graphs are as good as new

The fingerprint of a set of keys, or of a snapshot in any state, lists just the available keys
(`Listed.isAvailable_iff`), so equal fingerprints mean equal availability. A compiler therefore never keeps a
graph that compiling afresh would not give (`Current`), whatever has been compiled, kept, dropped and
forgotten before, and a call of `compile` answers as if nothing were kept (`compile_session`).
-/
namespace Valuation

/-! ## What a fingerprint stands for -/

/-- Availability that a set of keys or a snapshot gives. -/
inductive Availability.Listed : Availability → Prop
  | ofKeys (keys : List MarketDataKey) : Listed (.ofKeys keys)
  | snapshot (s : Snapshot) : Listed s.availability

theorem Snapshot.isAvailable_iff (s : Snapshot) (k : MarketDataKey) :
    s.isAvailable k = true ↔ k ∈ s.fingerprint := by
  unfold isAvailable fingerprint
  cases s.eligible with
  | none => simp [Table.contains_iff, OrderedSet.contains]
  | some eligible => simp [Table.contains_iff, OrderedSet.contains, or_assoc]

namespace Availability

/-- The available keys are those of the fingerprint. -/
theorem Listed.isAvailable_iff {a : Availability} (h : a.Listed) (k : MarketDataKey) :
    a.isAvailable k = true ↔ k ∈ a.fingerprint := by
  cases h with
  | ofKeys keys => simp [Availability.ofKeys, OrderedSet.contains]
  | snapshot s => exact s.isAvailable_iff k

/-- Equal fingerprints mean equal availability. -/
theorem Listed.eq_of_fingerprint {a b : Availability} (ha : a.Listed) (hb : b.Listed)
    (h : a.fingerprint = b.fingerprint) : a = b := by
  have hkeys : a.isAvailable = b.isAvailable := by
    funext k
    rw [Bool.eq_iff_iff, ha.isAvailable_iff, hb.isAvailable_iff, h]
  cases a
  cases b
  cases hkeys
  cases h
  rfl

end Availability

namespace GraphCompiler

/-! ## What is kept -/

/-- Every kept graph is the one that compiling afresh gives, under any availability of its fingerprint. -/
def Current (c : GraphCompiler) : Prop :=
  ∀ e ∈ c.entries, ∀ a : Availability, a.Listed → a.fingerprint = e.1.fingerprint →
    c.compileUncached e.1.definition a = .ok e.2.graph

section
variable {c : GraphCompiler} {d : ViewDefinition} {a : Availability}

theorem find?_mem {k : GraphKey} {g : CompiledGraph} (h : c.find? k = some g) : (k, g) ∈ c.entries := by
  obtain ⟨e, he, rfl⟩ := Option.map_eq_some_iff.1 h
  have hkey : e.1 = k := by simpa using List.find?_some he
  exact hkey ▸ List.mem_of_find?_eq_some he

/-- Dropping the oldest graphs adds none. -/
theorem evict_subset (capacity : Nat) (queue : List GraphKey) (entries : List (GraphKey × CompiledGraph)) :
    (evict capacity queue entries).2 ⊆ entries := by
  induction queue generalizing entries with
  | nil => exact List.Subset.refl entries
  | cons k rest ih =>
    unfold evict
    split
    · exact List.Subset.trans (ih _) List.filter_sublist.subset
    · exact List.Subset.refl entries

/-- A new graph is kept, perhaps in place of older ones. -/
theorem insert_cases {k : GraphKey} (h : c.find? k = none) (g : Graph) :
    ∃ queue entries, entries ⊆ c.entries ++ [(k, ⟨c.nextSerial, g⟩)] ∧
      c.insert k g = (⟨c.nextSerial, g⟩, { c with queue, entries, nextSerial := c.nextSerial + 1 }) := by
  let kept := evict c.capacity (c.queue ++ [k]) (c.entries ++ [(k, ⟨c.nextSerial, g⟩)])
  refine ⟨kept.1, kept.2, evict_subset _ _ _, ?_⟩
  unfold insert
  rw [h]

/-- What a call of `compile` does: it answers with the graph that is kept, or compiles, and keeps the graph
if there is one. -/
theorem compile_cases (c : GraphCompiler) (d : ViewDefinition) (a : Availability) :
    (∃ g, c.find? (key d a) = some g ∧ c.compile d a = (.ok g, { c with hits := c.hits + 1 })) ∨
    (∃ e, c.compileUncached d a = .error e ∧ c.compile d a = (.error e, { c with misses := c.misses + 1 })) ∨
    ∃ g queue entries, c.compileUncached d a = .ok g ∧ entries ⊆ c.entries ++ [(key d a, ⟨c.nextSerial, g⟩)] ∧
      c.compile d a = (.ok ⟨c.nextSerial, g⟩,
        { c with queue, entries, misses := c.misses + 1, nextSerial := c.nextSerial + 1 }) := by
  cases hfind : c.find? (key d a) with
  | some g => exact .inl ⟨g, rfl, by simp [compile, lookup, hfind]⟩
  | none =>
    refine .inr ?_
    -- Counting the miss changes neither the repository nor what is kept.
    have hcounted : ({ c with misses := c.misses + 1 } : GraphCompiler).compileUncached d a =
        c.compileUncached d a := rfl
    have hmiss : ({ c with misses := c.misses + 1 } : GraphCompiler).find? (key d a) = none := hfind
    cases hcompile : c.compileUncached d a with
    | error e => exact .inl ⟨e, rfl, by simp [compile, lookup, hfind, hcounted, hcompile]⟩
    | ok g =>
      obtain ⟨queue, entries, hentries, hinsert⟩ := insert_cases hmiss g
      exact .inr ⟨g, queue, entries, rfl, hentries,
        by simp [compile, lookup, hfind, hcounted, hcompile, hinsert]⟩

theorem compile_repository (c : GraphCompiler) (d : ViewDefinition) (a : Availability) :
    (c.compile d a).2.repository = c.repository := by
  obtain ⟨_, _, h⟩ | ⟨_, _, h⟩ | ⟨_, _, _, _, _, h⟩ := compile_cases c d a <;> rw [h]

theorem compileUncached_congr {c' : GraphCompiler} (h : c'.repository = c.repository) (d : ViewDefinition)
    (a : Availability) : c'.compileUncached d a = c.compileUncached d a := by
  unfold compileUncached
  rw [h]

/-- Keeping fewer graphs, or one more that compiling afresh gives, leaves all of them current. -/
theorem Current.of_entries {c' : GraphCompiler} (h : c.Current) (hrepository : c'.repository = c.repository)
    (hentries : ∀ e ∈ c'.entries, e ∈ c.entries ∨
      ∃ d a, a.Listed ∧ e.1 = key d a ∧ c.compileUncached d a = .ok e.2.graph) : c'.Current := by
  intro e he b hb hfingerprint
  rw [compileUncached_congr hrepository]
  obtain hold | ⟨d, a, ha, hkey, hcompile⟩ := hentries e he
  · exact h e hold b hb hfingerprint
  · rw [hkey] at hfingerprint ⊢
    rw [hb.eq_of_fingerprint ha hfingerprint]
    exact hcompile

theorem Current.compile (h : c.Current) (d : ViewDefinition) (ha : a.Listed) : (c.compile d a).2.Current := by
  refine h.of_entries (compile_repository c d a) fun e he => ?_
  obtain ⟨_, _, hcall⟩ | ⟨_, _, hcall⟩ | ⟨g, _, _, hcompile, hentries, hcall⟩ := compile_cases c d a <;>
    rw [hcall] at he
  · exact .inl he
  · exact .inl he
  · obtain hold | hnew := List.mem_append.1 (hentries he)
    · exact .inl hold
    · obtain rfl := List.mem_singleton.1 hnew
      exact .inr ⟨d, a, ha, rfl, hcompile⟩

theorem Current.invalidate (h : c.Current) : c.invalidate.Current :=
  h.of_entries rfl fun _ he => absurd he List.not_mem_nil

theorem current_ofRepository (r : FunctionRepository) (cacheSize : Nat) : (ofRepository r cacheSize).Current :=
  fun _ he => absurd he List.not_mem_nil

/-- A call answers as if nothing were kept. -/
theorem Current.answer (h : c.Current) (d : ViewDefinition) (ha : a.Listed) :
    (c.compile d a).1.map (·.graph) = c.compileUncached d a := by
  obtain ⟨g, hfind, hcall⟩ | ⟨e, hcompile, hcall⟩ | ⟨g, _, _, hcompile, _, hcall⟩ := compile_cases c d a <;>
    rw [hcall]
  · exact (h _ (find?_mem hfind) a ha rfl).symm
  · exact hcompile.symm
  · exact hcompile.symm

end

/-! ## Sessions -/

/-- A call to a compiler. -/
inductive Call where
  | compile (definition : ViewDefinition) (availability : Availability)
  | compileUncached (definition : ViewDefinition) (availability : Availability)
  | invalidate

namespace Call

/-- The compiler after a call. -/
def apply (c : GraphCompiler) : Call → GraphCompiler
  | .compile d a => (c.compile d a).2
  | .compileUncached _ _ => c
  | .invalidate => c.invalidate

/-- The availability that a call gives, if any, is that of a set of keys or of a snapshot. -/
def Listed : Call → Prop
  | .compile _ a | .compileUncached _ a => a.Listed
  | .invalidate => True

theorem apply_repository (c : GraphCompiler) (call : Call) : (call.apply c).repository = c.repository := by
  cases call with
  | compile d a => exact compile_repository c d a
  | compileUncached d a => rfl
  | invalidate => rfl

theorem current_apply {c : GraphCompiler} {call : Call} (h : c.Current) (hcall : call.Listed) :
    (call.apply c).Current := by
  cases call with
  | compile d a => exact h.compile d hcall
  | compileUncached d a => exact h
  | invalidate => exact h.invalidate

end Call

/-- The compiler after a session of calls. -/
def after (c : GraphCompiler) (calls : List Call) : GraphCompiler := calls.foldl Call.apply c

theorem after_repository (c : GraphCompiler) (calls : List Call) : (c.after calls).repository = c.repository := by
  induction calls generalizing c with
  | nil => rfl
  | cons call rest ih => exact (ih (call.apply c)).trans (call.apply_repository c)

theorem Current.after {c : GraphCompiler} {calls : List Call} (h : c.Current)
    (hcalls : ∀ call ∈ calls, call.Listed) : (c.after calls).Current := by
  induction calls generalizing c with
  | nil => exact h
  | cons call rest ih =>
    obtain ⟨hcall, hrest⟩ := List.forall_mem_cons.1 hcalls
    exact ih (Call.current_apply h hcall) hrest

/-- Whatever calls a compiler has had, the next call of `compile` gives the graph or the error that compiling
without the kept graphs gives, and that depends on the functions alone. -/
theorem compile_session (r : FunctionRepository) (cacheSize : Nat) (calls : List Call)
    (hcalls : ∀ call ∈ calls, call.Listed) (d : ViewDefinition) {a : Availability} (ha : a.Listed) :
    (((ofRepository r cacheSize).after calls).compile d a).1.map (·.graph) =
        ((ofRepository r cacheSize).after calls).compileUncached d a ∧
      ((ofRepository r cacheSize).after calls).compileUncached d a = Graph.compile r a d :=
  ⟨((current_ofRepository r cacheSize).after hcalls).answer d ha,
    compileUncached_congr (c := ofRepository r cacheSize) (after_repository _ calls) d a⟩

/-- One graph is kept at a time. It is asked for twice, gives way to another one, and all are forgotten
before the last one. -/
def demoCalls : List Call :=
  [.compile (Demo.definition 1) (Demo.snapshot 1).availability,
    .compile (Demo.definition 1) (Demo.snapshot 1).availability,
    .compile (Demo.definition 2) (.ofKeys []),
    .compileUncached (Demo.definition 2) (Demo.snapshot 1).availability,
    .invalidate,
    .compile (Demo.definition 1) (Demo.snapshot 1).availability]

theorem demo_session : ∃ r, Demo.repository = .ok r ∧ (∀ call ∈ demoCalls, call.Listed) ∧
    (Demo.snapshot 2).availability.Listed ∧
    (((ofRepository r 1).after demoCalls).compile (Demo.definition 1) (Demo.snapshot 2).availability).1.map
        (·.graph) =
      Graph.compile r (Demo.snapshot 2).availability (Demo.definition 1) := by
  obtain ⟨r, hr, -⟩ := Demo.repository_eq_ok
  have hcalls : ∀ call ∈ demoCalls, call.Listed := by
    simp only [demoCalls, List.forall_mem_cons, Call.Listed]
    exact ⟨.snapshot _, .snapshot _, .ofKeys _, .snapshot _, trivial, .snapshot _,
      fun _ h => absurd h List.not_mem_nil⟩
  obtain ⟨hanswer, hfresh⟩ :=
    compile_session r 1 demoCalls hcalls (Demo.definition 1) (.snapshot (Demo.snapshot 2))
  exact ⟨r, hr, hcalls, .snapshot _, hanswer.trans hfresh⟩

end GraphCompiler
end Valuation
