import Valuation.Proofs.Snapshot
import Valuation.Proofs.Stepwise

/-!
# Additions to a snapshot

An addition is accepted in full or has no effect (`addValues_all_or_none`). The check goes through the list before
anything is written, with the keys that it has passed, and stops at the first one that may not be added
(`firstRefusal_eq_some`). A key that has a value or came earlier in the list is a duplicate, whether it is eligible or
not. What holds of additions alone is said of lists of any length and of every state, so also of an empty list, which
is accepted even by a complete snapshot and only refused by a sealed one.
-/
namespace Valuation
namespace Snapshot

/-! ## Calls, write by write -/

/-- Lets a key pass, unless it may not be added after some others. -/
def letPass (earlier : List MarketDataKey) (k : MarketDataKey) : Stepwise Snapshot (List MarketDataKey) := do
  let s ← get
  if s.values.contains k ∨ k ∈ earlier then throw (.duplicateSnapshotValue s.id k)
  if let some keys := s.eligible then
    if ¬keys.contains k then throw (.unknownSnapshotKey s.id k)
  return k :: earlier

/-- A call, with its checks and writes in their order. -/
def Call.steps : Call → Stepwise Snapshot Unit
  | .expectKeys keys => do
    let s ← get
    if s.state ≠ .opened then throw (s.invalidState "expect keys after fixing")
    modify fun s => { s with expected := s.expected.insertAll keys }
  | .addValues values => do
    let s ← get
    if s.state = .sealed then throw (.snapshotSealed s.id)
    let _ ← (values.map (·.1)).foldlM letPass []
    modify (·.withValues values)
    modify settle
  | .fixTime asOf => do
    let s ← get
    if s.state ≠ .opened then throw (s.invalidState "fix time twice")
    modify (·.withTime asOf)
    modify settle
  | .markComplete => do
    let s ← get
    if s.state = .sealed then throw (s.invalidState "mark complete twice")
    modify (·.transition .sealed)

theorem outcome_letPass (s : Snapshot) (earlier keys : List MarketDataKey) :
    (keys.foldlM letPass earlier).outcome s =
      match s.firstRefusal earlier keys with
      | some e => (.error e, s)
      | none => (.ok (keys.reverse ++ earlier), s) := by
  induction keys generalizing earlier with
  | nil => rfl
  | cons k keys ih =>
    rw [List.foldlM_cons, Stepwise.outcome_bind, letPass, firstRefusal]
    by_cases hdup : s.values.contains k ∨ k ∈ earlier
    · simp [hdup]
    · cases heligible : s.eligible with
      | none => simp [hdup, heligible, ih]
      | some eligible => by_cases hk : eligible.contains k <;> simp [hdup, heligible, hk, ih]

/-- Write by write a call comes to the same, and where it is refused, nothing has been written. -/
theorem outcome_steps (c : Call) (s : Snapshot) : c.steps.outcome s = settled s (c.apply s) := by
  cases c with
  | expectKeys keys =>
    by_cases h : s.state = .opened <;> simp [Call.steps, Call.apply, expectKeys, settled, h]
  | addValues values =>
    by_cases h : s.state = .sealed
    · simp [Call.steps, Call.apply, addValues, settled, h]
    · cases hrefusal : s.firstRefusal [] (values.map (·.1)) with
      | some e => simp [Call.steps, Call.apply, addValues, settled, h, outcome_letPass, hrefusal]
      | none =>
        simp only [Call.steps, Call.apply, addValues, settled, h, hrefusal, if_false, Stepwise.outcome_bind,
          Stepwise.outcome_get, Stepwise.outcome_modify, outcome_letPass]
        rfl
  | fixTime asOf =>
    by_cases h : s.state = .opened
    · have hfixed : (s.withTime asOf).state = .fixed := rfl
      simp only [Call.steps, Call.apply, fixTime, settled, h, ne_eq, not_true_eq_false, if_false,
        Stepwise.outcome_bind, Stepwise.outcome_get, Stepwise.outcome_modify, settle, hfixed, true_and]
      rfl
    · simp [Call.steps, Call.apply, fixTime, settled, h]
  | markComplete =>
    by_cases h : s.state = .sealed <;> simp [Call.steps, Call.apply, markComplete, settled, h]

/-! ## What is accepted and what is refused -/

/-- Why a key may not be added after some others. -/
inductive Offends (s : Snapshot) (earlier : List MarketDataKey) (k : MarketDataKey) : EngineError → Prop
  | duplicate : s.values.contains k = true ∨ k ∈ earlier → Offends s earlier k (.duplicateSnapshotValue s.id k)
  | unknown {keys : OrderedSet MarketDataKey} : s.values.contains k = false → k ∉ earlier → s.eligible = some keys →
    k ∉ keys → Offends s earlier k (.unknownSnapshotKey s.id k)

/-- Whether all values of a list may be added. -/
structure Admits (s : Snapshot) (values : List (MarketDataKey × DataValue)) : Prop where
  state_ne : s.state ≠ .sealed
  nodup : (values.map (·.1)).Nodup
  mayAdd : ∀ k ∈ values.map (·.1), s.MayAdd k

/-- Why the values of a list may not be added: the snapshot is sealed, or something is wrong with one of them, the
first one with which something is wrong. -/
inductive Refuses (s : Snapshot) (values : List (MarketDataKey × DataValue)) : EngineError → Prop
  | sealed : s.state = .sealed → Refuses s values (.snapshotSealed s.id)
  | offence {before rest : List (MarketDataKey × DataValue)} {k : MarketDataKey} {v : DataValue} {e : EngineError} :
    values = before ++ (k, v) :: rest → s.Admits before → s.Offends (before.map (·.1)) k e → Refuses s values e

section
variable {s : Snapshot} {e : EngineError} {k : MarketDataKey}

theorem Offends.congr {earlier earlier' : List MarketDataKey} (h : s.Offends earlier k e)
    (hmem : k ∈ earlier ↔ k ∈ earlier') : s.Offends earlier' k e := by
  cases h with
  | duplicate hdup => exact .duplicate (hdup.imp_right hmem.1)
  | unknown hvalue hearlier hkeys hk => exact .unknown hvalue (fun h => hearlier (hmem.2 h)) hkeys hk

/-- A key offends, or the check goes on behind it. -/
theorem firstRefusal_cons (s : Snapshot) (earlier : List MarketDataKey) (k : MarketDataKey) :
    (∃ e, s.Offends earlier k e ∧ ∀ rest, s.firstRefusal earlier (k :: rest) = some e) ∨
      (∀ e, ¬s.Offends earlier k e) ∧ ∀ rest, s.firstRefusal earlier (k :: rest) = s.firstRefusal (k :: earlier) rest := by
  by_cases hdup : s.values.contains k = true ∨ k ∈ earlier
  · exact .inl ⟨_, .duplicate hdup, fun rest => by simp [firstRefusal, hdup]⟩
  obtain ⟨hvalue, hearlier⟩ := not_or.1 hdup
  cases heligible : s.eligible with
  | none =>
    refine .inr ⟨fun e he => ?_, fun rest => by simp [firstRefusal, hdup, heligible]⟩
    cases he with
    | duplicate h => exact hdup h
    | unknown _ _ hkeys => cases heligible.symm.trans hkeys
  | some keys =>
    by_cases hk : k ∈ keys
    · refine .inr ⟨fun e he => ?_, fun rest => by simp [firstRefusal, hdup, heligible, OrderedSet.contains, hk]⟩
      cases he with
      | duplicate h => exact hdup h
      | unknown _ _ hkeys hnot =>
        cases heligible.symm.trans hkeys
        exact hnot hk
    · refine .inl ⟨_, .unknown (Bool.eq_false_iff.2 hvalue) hearlier heligible hk, fun rest => ?_⟩
      simp [firstRefusal, hdup, heligible, OrderedSet.contains, hk]

/-- The check stops at the first key that offends. -/
theorem firstRefusal_eq_some {earlier keys : List MarketDataKey} :
    s.firstRefusal earlier keys = some e ↔ ∃ before k rest, keys = before ++ k :: rest ∧
      s.firstRefusal earlier before = none ∧ s.Offends (before ++ earlier) k e := by
  induction keys generalizing earlier with
  | nil => simp [firstRefusal]
  | cons k keys ih =>
    have hmem : ∀ before l, l ∈ before ++ k :: earlier ↔ l ∈ k :: before ++ earlier := by simp [or_left_comm]
    obtain ⟨e', hoffends, hstops⟩ | ⟨hpasses, hgoes⟩ := firstRefusal_cons s earlier k
    · constructor
      · intro h
        cases (hstops keys).symm.trans h
        exact ⟨[], k, keys, rfl, rfl, hoffends⟩
      · rintro ⟨before, l, rest, hkeys, hnone, hl⟩
        cases before with
        | nil =>
          cases hkeys
          rw [hstops]
          cases hl <;> cases hoffends <;> simp_all
        | cons l' before =>
          cases hkeys
          cases (hstops before).symm.trans hnone
    · rw [hgoes, ih]
      constructor
      · rintro ⟨before, l, rest, rfl, hnone, hl⟩
        exact ⟨k :: before, l, rest, rfl, (hgoes before).trans hnone, hl.congr (hmem before l)⟩
      · rintro ⟨before, l, rest, hkeys, hnone, hl⟩
        cases before with
        | nil =>
          cases hkeys
          exact absurd hl (hpasses e)
        | cons l' before =>
          cases hkeys
          exact ⟨before, l, rest, rfl, (hgoes before).symm.trans hnone, hl.congr (hmem before l).symm⟩

variable {values : List (MarketDataKey × DataValue)}

theorem addValues_isOk_iff : (∃ s', s.addValues values = .ok s') ↔ s.Admits values := by
  constructor
  · rintro ⟨s', h⟩
    obtain ⟨hstate, hnodup, hmay, -⟩ := addValues_eq_ok.1 h
    exact ⟨hstate, hnodup, hmay⟩
  · intro h
    exact ⟨_, addValues_eq_ok.2 ⟨h.state_ne, h.nodup, h.mayAdd, rfl⟩⟩

theorem admits_iff : s.Admits values ↔ s.state ≠ .sealed ∧ s.firstRefusal [] (values.map (·.1)) = none := by
  rw [firstRefusal_eq_none]
  constructor
  · intro h
    exact ⟨h.state_ne, h.nodup, fun k hk => ⟨List.not_mem_nil, h.mayAdd k hk⟩⟩
  · rintro ⟨hstate, hnodup, hmay⟩
    exact ⟨hstate, hnodup, fun k hk => (hmay k hk).2⟩

theorem addValues_eq_error : s.addValues values = .error e ↔ s.Refuses values e := by
  by_cases hstate : s.state = .sealed
  · have hsealed : s.addValues values = .error (.snapshotSealed s.id) := by simp [addValues, hstate]
    rw [hsealed]
    constructor
    · intro h
      cases h
      exact .sealed hstate
    · intro h
      cases h with
      | sealed => rfl
      | offence _ hbefore => exact absurd hstate hbefore.state_ne
  have hrefusal : s.addValues values = .error e ↔ s.firstRefusal [] (values.map (·.1)) = some e := by
    rw [addValues, if_neg hstate]
    cases s.firstRefusal [] (values.map (·.1)) <;> simp
  rw [hrefusal, firstRefusal_eq_some]
  constructor
  · rintro ⟨before, k, rest, hkeys, hnone, hoffends⟩
    obtain ⟨before, _, rfl, rfl, hrest⟩ := List.map_eq_append_iff.1 hkeys
    obtain ⟨⟨k, v⟩, rest, rfl, rfl, rfl⟩ := List.map_eq_cons_iff.1 hrest
    exact .offence rfl (admits_iff.2 ⟨hstate, hnone⟩) (by simpa using hoffends)
  · intro h
    cases h with
    | sealed h => exact absurd h hstate
    | @offence before rest k v _ hvalues hbefore hoffends =>
      refine ⟨before.map (·.1), k, rest.map (·.1), by simp [hvalues], (admits_iff.1 hbefore).2, ?_⟩
      simpa using hoffends

end

/-! ## What an addition does -/

/-- Whether the time was fixed, and every eligible key has a value now. -/
def CompletedBy (s s' : Snapshot) : Prop :=
  s.state = .fixed ∧ ∃ keys, s.eligible = some keys ∧ ∀ k ∈ keys, (s'.get? k).isSome = true

/-- What becomes of a snapshot to which some values are added. -/
structure Gains (s : Snapshot) (values : List (MarketDataKey × DataValue)) (s' : Snapshot) : Prop where
  entries : s'.values.toList.Perm (s.values.toList ++ values)
  get?_iff : ∀ k v, s'.get? k = some v ↔ s.get? k = some v ∨ (k, v) ∈ values
  rest_eq : s' = { s with values := s'.values, state := s'.state, transitions := s'.transitions }
  completes : s.CompletedBy s' → s'.state = .complete ∧ s'.transitions = s.transitions + 1
  stays : ¬s.CompletedBy s' → s'.state = s.state ∧ s'.transitions = s.transitions

theorem completedBy_withValues (s : Snapshot) (values : List (MarketDataKey × DataValue)) :
    s.CompletedBy (s.withValues values).settle ↔
      (s.withValues values).state = .fixed ∧ (s.withValues values).allEligibleValued = true := by
  rw [allEligibleValued_iff, CompletedBy]
  simp only [get?, values_settle]
  rfl

theorem Consistent.gains {s s' : Snapshot} {values : List (MarketDataKey × DataValue)} (h : s.Consistent)
    (hadd : s.addValues values = .ok s') : s.Gains values s' := by
  obtain ⟨-, hnodup, hmay, rfl⟩ := addValues_eq_ok.1 hadd
  have hnew : ∀ k ∈ values.map (·.1), s.values.contains k = false := fun k hk => (hmay k hk).1
  have hcompleted := completedBy_withValues s values
  obtain ⟨hfixed, hall, heq⟩ | ⟨hnot, heq⟩ := settle_cases (s.withValues values)
  · rw [heq] at hcompleted ⊢
    refine ⟨Table.toList_insertAll_perm h.sorted hnodup hnew, fun k v => Table.get?_insertAll_new hnodup hnew, rfl,
      fun _ => ⟨rfl, rfl⟩, fun hopen => absurd (hcompleted.2 ⟨hfixed, hall⟩) hopen⟩
  · rw [heq] at hcompleted ⊢
    refine ⟨Table.toList_insertAll_perm h.sorted hnodup hnew, fun k v => Table.get?_insertAll_new hnodup hnew, rfl,
      fun hdone => ?_, fun _ => ⟨rfl, rfl⟩⟩
    obtain ⟨hfixed, hall⟩ := hcompleted.1 hdone
    cases (hnot hfixed).symm.trans hall

/-- Whatever calls a new snapshot has had: values are added just if the snapshot is not sealed, their keys differ, and
each of them may be added. Then they are added all, to what was there, and the snapshot is complete once every eligible
key has a value. Otherwise the error says that the snapshot is sealed, or which pair is the first that may not be added,
and nothing has been written. -/
theorem addValues_all_or_none (id : SnapshotId) (calls : List Call) (values : List (MarketDataKey × DataValue)) :
    let s := (new id).after calls
    ((∃ s', s.addValues values = .ok s') ↔ s.Admits values) ∧
      (∀ s', s.addValues values = .ok s' → s.Gains values s') ∧
      (∀ e, s.addValues values = .error e ↔ s.Refuses values e) ∧
      (Call.addValues values).steps.outcome s = settled s (s.addValues values) := by
  intro s
  have h : s.WellFormed := ((wellFormed_new id).after calls).1
  exact ⟨addValues_isOk_iff, fun s' hadd => h.gains hadd, fun e => addValues_eq_error, outcome_steps _ s⟩

end Snapshot
end Valuation
