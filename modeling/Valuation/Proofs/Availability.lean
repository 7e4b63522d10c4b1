import Valuation.Proofs.Execution.Outcome
import Valuation.Proofs.Graph.Reuse
import Valuation.Proofs.Snapshot

/-!
# Market data that a graph was compiled against

A key that a snapshot has available at one moment is available from then on, and once the eligible keys are fixed
it is among them (`Foreseeing`), whether it had a value by then or was only expected. When the snapshot is
complete it has a value (`isSome_of_available`). So a graph that was compiled with the snapshot, at whatever moment
of its life, finds a value for each of its market data nodes, and a run misses only what is recorded as missing
(`runUnder_misses`).
-/
namespace Valuation

namespace Snapshot

section
variable {s s' : Snapshot} {k : MarketDataKey}

/-! ## What is available -/

theorem available_iff : s.isAvailable k = true ↔
    (s.get? k).isSome ∨ k ∈ s.expected ∨ ∃ keys, s.eligible = some keys ∧ k ∈ keys := by
  unfold isAvailable
  cases s.eligible with
  | none => simp [Table.contains, OrderedSet.contains, get?]
  | some keys => simp [Table.contains, OrderedSet.contains, get?, or_assoc]

/-- Settling has no part in what is expected or eligible. -/
theorem expected_eligible_settle (s : Snapshot) :
    s.settle.expected = s.expected ∧ s.settle.eligible = s.eligible := by
  obtain ⟨-, -, h⟩ | ⟨-, h⟩ := settle_cases s
  · rw [h]
    exact ⟨rfl, rfl⟩
  · rw [h]
    exact ⟨rfl, rfl⟩

/-- A snapshot whose eligible keys are fixed expects no others. -/
structure Foreseeing (s : Snapshot) : Prop extends s.WellFormed where
  eligible_of_expected : ∀ keys, s.eligible = some keys → ∀ k ∈ s.expected, k ∈ keys

theorem foreseeing_new (id : SnapshotId) : (new id).Foreseeing :=
  ⟨wellFormed_new id, nofun⟩

/-- Once the eligible keys are fixed, no others are available. -/
theorem Foreseeing.eligible_of_available (h : s.Foreseeing) {keys : OrderedSet MarketDataKey}
    (hkeys : s.eligible = some keys) (hk : s.isAvailable k = true) : k ∈ keys := by
  obtain hvalued | hexpected | ⟨keys', hkeys', hk⟩ := available_iff.1 hk
  · exact h.eligible_of_valued keys hkeys k hvalued
  · exact h.eligible_of_expected keys hkeys k hexpected
  · cases hkeys.symm.trans hkeys'
    exact hk

/-- An accepted call leaves the expected keys among the eligible ones, and what is available stays so. -/
theorem Foreseeing.apply (h : s.Foreseeing) {c : Call} (hc : c.apply s = .ok s') :
    s'.Foreseeing ∧ ∀ k, s.isAvailable k = true → s'.isAvailable k = true := by
  obtain ⟨hwell, hlater⟩ := h.toWellFormed.apply hc
  have hkept : ∀ k, (s.get? k).isSome → (s'.get? k).isSome := by
    intro k hk
    obtain ⟨v, hv⟩ := Option.isSome_iff_exists.1 hk
    rw [hlater.get?_eq k v hv]
    rfl
  -- it is left to say what becomes of the expected keys and of the eligible ones
  have hgoes : (∀ keys, s'.eligible = some keys → ∀ k ∈ s'.expected, k ∈ keys) →
      (∀ k ∈ s.expected, k ∈ s'.expected) →
      s'.Foreseeing ∧ ∀ k, s.isAvailable k = true → s'.isAvailable k = true := by
    intro heligible hexpected
    refine ⟨⟨hwell, heligible⟩, fun k hk => available_iff.2 ?_⟩
    refine (available_iff.1 hk).imp (hkept k) (Or.imp (hexpected k) ?_)
    rintro ⟨keys, hkeys, hk⟩
    exact ⟨keys, hlater.eligible_eq keys hkeys, hk⟩
  cases c with
  | expectKeys keys =>
    obtain ⟨hstate, rfl⟩ := expectKeys_eq_ok hc
    refine hgoes (fun keys hkeys => ?_) fun k hk => (OrderedSet.mem_insertAll ..).2 (.inl hk)
    cases (h.opened hstate).symm.trans hkeys
  | addValues values =>
    obtain ⟨-, -, -, rfl⟩ := addValues_eq_ok.1 hc
    obtain ⟨hexpected, heligible⟩ := expected_eligible_settle (s.withValues values)
    rw [hexpected, heligible] at hgoes
    exact hgoes h.eligible_of_expected fun _ hk => hk
  | fixTime asOf =>
    obtain ⟨-, rfl⟩ := fixTime_eq_ok hc
    obtain ⟨hexpected, heligible⟩ := expected_eligible_settle (s.withTime asOf)
    rw [hexpected, heligible] at hgoes
    refine hgoes (fun keys hkeys k hk => ?_) fun _ hk => hk
    cases hkeys
    exact (OrderedSet.mem_insertAll ..).2 (.inr hk)
  | markComplete =>
    obtain ⟨-, rfl⟩ := markComplete_eq_ok hc
    exact hgoes h.eligible_of_expected fun _ hk => hk

theorem Foreseeing.after (h : s.Foreseeing) (calls : List Call) :
    (s.after calls).Foreseeing ∧ ∀ k, s.isAvailable k = true → (s.after calls).isAvailable k = true := by
  induction calls generalizing s with
  | nil => exact ⟨h, fun _ hk => hk⟩
  | cons c calls ih =>
    obtain ⟨hnext, havailable⟩ : (s.call c).Foreseeing ∧
        ∀ k, s.isAvailable k = true → (s.call c).isAvailable k = true := by
      obtain ⟨_, -, heq⟩ | hok := call_cases s c
      · rw [heq]
        exact ⟨h, fun _ hk => hk⟩
      · exact h.apply hok
    obtain ⟨hlast, hrest⟩ := ih hnext
    exact ⟨hlast, fun k hk => hrest k (havailable k hk)⟩

/-- What is available at any moment, earlier or later, has a value when the snapshot is complete. -/
theorem isSome_of_available (id : SnapshotId) {calls before reached : List Call} (hbefore : before <+: calls)
    (hreached : reached <+: calls) (hcomplete : ((new id).after reached).state = .complete)
    (hk : ((new id).after before).isAvailable k = true) : (((new id).after reached).get? k).isSome := by
  have h := ((foreseeing_new id).after reached).1
  obtain ⟨keys, hkeys, hvalued, -⟩ := h.complete hcomplete
  refine hvalued k ?_
  obtain ⟨rest, rfl⟩ | ⟨rest, rfl⟩ := List.prefix_or_prefix_of_prefix hbefore hreached
  · rw [after_append] at h hkeys
    have havailable := (((foreseeing_new id).after before).1.after rest).2 k hk
    exact h.eligible_of_available hkeys havailable
  · rw [after_append] at hk
    have hlater := (h.toWellFormed.after rest).2
    exact (h.after rest).1.eligible_of_available (hlater.eligible_eq keys hkeys) hk

end

end Snapshot

namespace Graph

/-! ## Market data nodes -/

/-- The market data that a compiled graph reads was available. -/
theorem available_of_compile {r : FunctionRepository} {a : Availability} {d : ViewDefinition} {g : Graph}
    (h : compile r a d = .ok g) {i : Nat} {n : Node} (hn : g.node? i = some n) {key : MarketDataKey}
    (hkey : n.kind = .marketData key) : a.isAvailable key = true := by
  obtain ⟨nodes, hsound, -, hg⟩ := compile_eq_ok h
  obtain ⟨-, -, rfl, -⟩ := ofNodes_eq_ok hg
  have hnode := hsound.node i n hn
  obtain ⟨s, hs⟩ := List.exists_mem_of_ne_nil _ hnode.outputs_ne_nil
  have hserves := (hnode.serves s hs).2
  rw [hnode.resolve?_eq_none hkey hs] at hserves
  cases hkey.symm.trans hserves.1
  exact hserves.2

theorem outcomeOf_ne_missingMarketData (id : String) (outputs : List Specification) (e : Evaluation)
    (key : MarketDataKey) : outcomeOf id outputs e ≠ .error (.missingMarketData key) := by
  intro h
  unfold outcomeOf at h
  split at h
  · cases h
  · obtain ⟨s, hs⟩ := declaredOutputs_eq_error h
    cases hs

/-- Only a node for market data misses some, and what it misses has no value, or one that says so. -/
theorem evaluate_missing {g : Graph} (hg : g.Runnable) {s : Snapshot} {i : Nat} {key : MarketDataKey}
    (h : g.evaluate s i = .failed (.missingMarketData key)) :
    (∃ n, g.node? i = some n ∧ n.kind = .marketData key) ∧ ∀ v, s.get? key = some v → v.isMissing = true := by
  cases hn : g.node? i with
  | none =>
    rw [evaluate, hn] at h
    cases h
  | some n =>
    rw [evaluate_eq hg hn, Node.verdict] at h
    split at h
    · next key' hkey =>
      have hread := Verdict.ofExcept_eq_failed.1 h
      cases Node.readMarketData_eq_error hread
      refine ⟨⟨n, rfl, hkey⟩, fun v hv => ?_⟩
      unfold Node.readMarketData at hread
      rw [hv] at hread
      dsimp only at hread
      split at hread
      · next hmissing => exact hmissing
      · cases hread
    · split at h
      · exact absurd (Verdict.ofExcept_eq_failed.1 h) (outcomeOf_ne_missingMarketData _ _ _ key)
      · cases h

end Graph

namespace GraphCompiler

/-- A compiler gives a graph for a view, one that it has kept perhaps. -/
def Gives (c : GraphCompiler) (d : ViewDefinition) (a : Availability) (g : Graph) : Prop :=
  (c.compile d a).1.map (·.graph) = .ok g ∨ c.compileUncached d a = .ok g

/-- Whatever has been asked of a compiler, what it gives is what compiling afresh gives. -/
theorem compile_of_gives {r : FunctionRepository} {cacheSize : Nat} {session : List Call}
    (hsession : ∀ call ∈ session, call.Listed) {d : ViewDefinition} {a : Availability} (ha : a.Listed) {g : Graph}
    (h : ((ofRepository r cacheSize).after session).Gives d a g) : Graph.compile r a d = .ok g := by
  have hfresh : ((ofRepository r cacheSize).after session).compileUncached d a = Graph.compile r a d :=
    compileUncached_congr (c := ofRepository r cacheSize) (after_repository _ session) d a
  have hanswer := ((current_ofRepository r cacheSize).after hsession).answer d ha
  rw [← hfresh]
  exact h.elim hanswer.symm.trans id

end GraphCompiler

namespace Executor

open Run Snapshot

/-- A snapshot has some calls, and after some of them it is complete. A graph is compiled with it at any moment,
open, fixed, complete or sealed, by a compiler that may have kept others. No run of the graph against the snapshot
from then on misses market data, but for keys whose value says that it is missing. -/
theorem runUnder_misses {id : SnapshotId} {calls before reached upto : List Snapshot.Call} (hbefore : before <+: calls)
    (hupto : upto <+: calls) (hreached : reached <+: upto)
    (hcomplete : ((Snapshot.new id).after reached).state = .complete) {r : FunctionRepository} {cacheSize : Nat}
    {session : List GraphCompiler.Call} (hsession : ∀ call ∈ session, call.Listed) {d : ViewDefinition} {g : Graph}
    (hgives : ((GraphCompiler.ofRepository r cacheSize).after session).Gives d
      ((Snapshot.new id).after before).availability g) {strategy : Strategy} (hworkers : 0 < strategy.workers) :
    ∃ e, ofStrategy strategy = .ok e ∧ ∀ (x : Interleaving) (c : Control) (t : Specification) (key : MarketDataKey),
      (e.runUnder x g ((Snapshot.new id).after upto) c).failures.get? t = some (.missingMarketData key) →
        ((Snapshot.new id).after upto).get? key = some .missing := by
  have hcompile := GraphCompiler.compile_of_gives hsession (.snapshot _) hgives
  have hg := Graph.runnable_of_compile hcompile
  obtain ⟨e, he⟩ := ofStrategy_isOk hworkers
  refine ⟨e, he, fun x c t key hfails => ?_⟩
  have hrest := drive_atRest hg e x ((Snapshot.new id).after upto) c
  obtain ⟨i, -, -, hallows⟩ := hrest.failure_sound t _ hfails
  have hverdict := eq_failed_of_allows hallows nofun
  obtain ⟨⟨n, hn, hkey⟩, hmissing⟩ := Graph.evaluate_missing hg hverdict
  have havailable : ((Snapshot.new id).after before).isAvailable key = true :=
    Graph.available_of_compile hcompile hn hkey
  have hvalued := isSome_of_available id hbefore (hreached.trans hupto) hcomplete havailable
  obtain ⟨v, hv⟩ := Option.isSome_iff_exists.1 hvalued
  have hlast : ((Snapshot.new id).after upto).get? key = some v := by
    obtain ⟨rest, rfl⟩ := hreached
    rw [after_append]
    exact (((wellFormed_new id).after reached).1.after rest).2.get?_eq key v hv
  have hmissed := hmissing v hlast
  cases v with
  | missing => exact hlast
  | _ => cases hmissed

/-! ### A value that is recorded as missing -/

/-- The key is expected when the graph is compiled, and then comes in as missing. -/
def quotedCalls : List Snapshot.Call :=
  [.expectKeys [Demo.quoted.marketDataKey], .fixTime default, .addValues [(Demo.quoted.marketDataKey, .missing)]]

theorem demo_misses : ∃ e, ofStrategy (.jobDispatch 2) = .ok e ∧
    ((Snapshot.new default).after quotedCalls).state = .complete ∧
    ∀ t key, (e.runUnder {} Demo.quotedGraph ((Snapshot.new default).after quotedCalls) {}).failures.get? t =
        some (.missingMarketData key) →
      ((Snapshot.new default).after quotedCalls).get? key = some .missing := by
  have hcomplete : ((Snapshot.new default).after quotedCalls).state = .complete := rfl
  have havailable :
      ((Snapshot.new default).after (quotedCalls.take 1)).isAvailable Demo.quoted.marketDataKey = true := rfl
  have hsession : ∀ call ∈ ([] : List GraphCompiler.Call), call.Listed := fun _ h => absurd h List.not_mem_nil
  have hgives : ((GraphCompiler.ofRepository .empty 1).after []).Gives Demo.singleView
      ((Snapshot.new default).after (quotedCalls.take 1)).availability Demo.quotedGraph :=
    .inr (Demo.compile_quoted havailable)
  have hworkers : 0 < (Strategy.jobDispatch 2).workers := by decide
  obtain ⟨e, he, hmisses⟩ := runUnder_misses (List.take_prefix 1 quotedCalls) (List.prefix_refl quotedCalls)
    (List.prefix_refl quotedCalls) hcomplete hsession hgives hworkers
  exact ⟨e, he, hcomplete, hmisses {} {}⟩

end Executor
end Valuation
