import Mathlib.Data.List.Induction
import Valuation.Proofs.Result
import Valuation.Proofs.Specification
import Valuation.Proofs.Table
import Valuation.Snapshot

/-!
# The life of a snapshot

A snapshot is changed by four calls. Whatever calls it has had, accepted or refused, its state, its eligible
keys and its values fit together (`WellFormed`), and every further call only takes it on (`Later`): values stay
for good, and from `complete` on no value is added either (`after_lifecycle`). Nothing checks the latter as such.
In `complete` every eligible key has a value, so an addition is refused as a duplicate or as unknown, unless it
adds nothing.
-/
namespace Valuation
namespace Snapshot

/-! ## Calls -/

/-- A call that may change a snapshot. -/
inductive Call where
  | expectKeys (keys : List MarketDataKey)
  | addValues (values : List (MarketDataKey × DataValue))
  | fixTime (asOf : Instant)
  | markComplete

/-- What a call comes to. -/
def Call.apply (s : Snapshot) : Call → Except EngineError Snapshot
  | .expectKeys keys => s.expectKeys keys
  | .addValues values => s.addValues values
  | .fixTime asOf => s.fixTime asOf
  | .markComplete => s.markComplete

/-- The snapshot after a call. A call that is refused leaves it as it was. -/
def call (s : Snapshot) (c : Call) : Snapshot :=
  match c.apply s with
  | .ok s' => s'
  | .error _ => s

/-- The snapshot after some calls. -/
def after (s : Snapshot) (calls : List Call) : Snapshot := calls.foldl call s

/-- Whether a call, as one of some, was accepted when its turn came. -/
def Accepted (s : Snapshot) (calls : List Call) (c : Call) : Prop :=
  ∃ before, before ++ [c] <+: calls ∧ ∃ s', c.apply (s.after before) = .ok s'

section
variable {s s' : Snapshot}

theorem call_of_ok {c : Call} (h : c.apply s = .ok s') : s.call c = s' := by
  simp [call, h]

/-- A call is refused, or the snapshot after it is what the call comes to. -/
theorem call_cases (s : Snapshot) (c : Call) :
    (∃ e, c.apply s = .error e ∧ s.call c = s) ∨ c.apply s = .ok (s.call c) := by
  unfold call
  cases c.apply s with
  | error e => exact .inl ⟨e, rfl, rfl⟩
  | ok s' => exact .inr rfl

theorem after_append (s : Snapshot) (calls more : List Call) :
    s.after (calls ++ more) = (s.after calls).after more :=
  List.foldl_append

theorem accepted_concat {calls : List Call} {c d : Call} :
    s.Accepted (calls ++ [d]) c ↔ s.Accepted calls c ∨ c = d ∧ ∃ s', c.apply (s.after calls) = .ok s' := by
  simp only [Accepted, List.prefix_concat_iff]
  constructor
  · rintro ⟨before, hlast | hbefore, hok⟩
    · obtain ⟨rfl, hcd⟩ := List.append_inj' hlast rfl
      exact .inr ⟨List.singleton_inj.1 hcd, hok⟩
    · exact .inl ⟨before, hbefore, hok⟩
  · rintro (⟨before, hbefore, hok⟩ | ⟨rfl, hok⟩)
    · exact ⟨before, .inr hbefore, hok⟩
    · exact ⟨calls, .inl rfl, hok⟩

/-! ## What accepted calls do -/

/-- Whether a value may be added under a key: it has none, and is eligible once the eligible keys are fixed. -/
def MayAdd (s : Snapshot) (k : MarketDataKey) : Prop :=
  s.values.contains k = false ∧ ∀ keys, s.eligible = some keys → k ∈ keys

theorem firstRefusal_eq_none {seen keys : List MarketDataKey} :
    s.firstRefusal seen keys = none ↔ keys.Nodup ∧ ∀ k ∈ keys, k ∉ seen ∧ s.MayAdd k := by
  induction keys generalizing seen with
  | nil => simp [firstRefusal]
  | cons k rest ih =>
    have hrest : (rest.Nodup ∧ ∀ l ∈ rest, l ∉ k :: seen ∧ s.MayAdd l) ↔
        (k :: rest).Nodup ∧ ∀ l ∈ rest, l ∉ seen ∧ s.MayAdd l := by
      simp only [List.nodup_cons, List.mem_cons, not_or]
      constructor
      · rintro ⟨hnodup, hall⟩
        exact ⟨⟨fun hk => (hall k hk).1.1 rfl, hnodup⟩, fun l hl => ⟨(hall l hl).1.2, (hall l hl).2⟩⟩
      · rintro ⟨⟨hk, hnodup⟩, hall⟩
        exact ⟨hnodup, fun l hl => ⟨⟨fun h => hk (h ▸ hl), (hall l hl).1⟩, (hall l hl).2⟩⟩
    have hsplit : ((k :: rest).Nodup ∧ ∀ l ∈ k :: rest, l ∉ seen ∧ s.MayAdd l) ↔
        (k ∉ seen ∧ s.MayAdd k) ∧ rest.Nodup ∧ ∀ l ∈ rest, l ∉ k :: seen ∧ s.MayAdd l := by
      rw [hrest, List.forall_mem_cons]
      exact and_left_comm
    rw [hsplit, firstRefusal]
    by_cases hdup : s.values.contains k = true ∨ k ∈ seen
    · rw [if_pos hdup]
      refine iff_of_false nofun fun h => hdup.elim (fun hk => ?_) h.1.1
      rw [h.1.2.1] at hk
      cases hk
    · obtain ⟨hvalue, hseen⟩ := not_or.1 hdup
      rw [if_neg hdup]
      cases heligible : s.eligible with
      | none => simp [ih, MayAdd, hseen, heligible, Bool.eq_false_iff.2 hvalue]
      | some keys =>
        by_cases hk : k ∈ keys
        · simp [ih, MayAdd, hseen, heligible, Bool.eq_false_iff.2 hvalue, OrderedSet.contains, hk]
        · simp [MayAdd, heligible, OrderedSet.contains, hk]

theorem allEligibleValued_iff :
    s.allEligibleValued = true ↔ ∃ keys, s.eligible = some keys ∧ ∀ k ∈ keys, s.values.contains k = true := by
  unfold allEligibleValued
  cases s.eligible with
  | none => simp
  | some keys => simp

theorem expectKeys_eq_ok {keys : List MarketDataKey} (h : s.expectKeys keys = .ok s') :
    s.state = .opened ∧ s' = { s with expected := s.expected.insertAll keys } := by
  unfold expectKeys at h
  split at h
  · cases h
  · next hstate =>
    cases h
    exact ⟨not_not.1 hstate, rfl⟩

/-- The snapshot with values added. -/
def withValues (s : Snapshot) (values : List (MarketDataKey × DataValue)) : Snapshot :=
  { s with values := s.values.insertAll values }

/-- The snapshot with its time and its eligible keys fixed. -/
def withTime (s : Snapshot) (asOf : Instant) : Snapshot :=
  { s with
    eligible := some ((OrderedSet.ofList s.values.keys).insertAll s.expected.toList)
    asOf := some asOf }.transition .fixed

/-- A fixed snapshot is complete once it waits for no value. -/
def settle (s : Snapshot) : Snapshot :=
  if s.state = .fixed ∧ s.allEligibleValued then s.transition .complete else s

theorem addValues_eq_ok {values : List (MarketDataKey × DataValue)} :
    s.addValues values = .ok s' ↔ s.state ≠ .sealed ∧ (values.map (·.1)).Nodup ∧
      (∀ k ∈ values.map (·.1), s.MayAdd k) ∧ s' = (s.withValues values).settle := by
  have hnone : s.firstRefusal [] (values.map (·.1)) = none ↔
      (values.map (·.1)).Nodup ∧ ∀ k ∈ values.map (·.1), s.MayAdd k := by
    simp [firstRefusal_eq_none]
  unfold addValues
  by_cases hstate : s.state = .sealed
  · simp [hstate]
  rw [if_neg hstate]
  cases hrefusal : s.firstRefusal [] (values.map (·.1)) with
  | some e =>
    refine iff_of_false nofun fun h => ?_
    rw [hnone.2 ⟨h.2.1, h.2.2.1⟩] at hrefusal
    cases hrefusal
  | none =>
    obtain ⟨hnodup, hmay⟩ := hnone.1 hrefusal
    exact ⟨fun h => ⟨hstate, hnodup, hmay, (Except.ok.inj h).symm⟩, fun h => congrArg _ h.2.2.2.symm⟩

theorem fixTime_eq_ok {asOf : Instant} (h : s.fixTime asOf = .ok s') :
    s.state = .opened ∧ s' = (s.withTime asOf).settle := by
  unfold fixTime at h
  split at h
  · cases h
  next hstate =>
  refine ⟨not_not.1 hstate, ?_⟩
  have hfixed : (s.withTime asOf).state = .fixed := rfl
  simp only [settle, hfixed, true_and]
  exact (Except.ok.inj h).symm

theorem markComplete_eq_ok (h : s.markComplete = .ok s') :
    s.state ≠ .sealed ∧ s' = s.transition .sealed := by
  unfold markComplete at h
  split at h
  · cases h
  · next hstate => exact ⟨hstate, (Except.ok.inj h).symm⟩

/-- A sealed snapshot accepts no call. -/
theorem not_ok_of_isSealed (h : s.isSealed = true) (c : Call) : c.apply s ≠ .ok s' := by
  have hsealed : s.state = .sealed := of_decide_eq_true h
  intro hok
  cases c with
  | expectKeys keys => cases hsealed.symm.trans (expectKeys_eq_ok hok).1
  | addValues values => exact (addValues_eq_ok.1 hok).1 hsealed
  | fixTime asOf => cases hsealed.symm.trans (fixTime_eq_ok hok).1
  | markComplete => exact (markComplete_eq_ok hok).1 hsealed

theorem settle_cases (s : Snapshot) :
    (s.state = .fixed ∧ s.allEligibleValued = true ∧ s.settle = s.transition .complete) ∨
      ((s.state = .fixed → s.allEligibleValued = false) ∧ s.settle = s) := by
  unfold settle
  split
  · next h => exact .inl ⟨h.1, h.2, rfl⟩
  · next h => exact .inr ⟨fun hfixed => Bool.eq_false_iff.2 fun hall => h ⟨hfixed, hall⟩, rfl⟩

theorem state_settle (s : Snapshot) : s.settle.state = .complete ∨ s.settle.state = s.state := by
  obtain ⟨-, -, h⟩ | ⟨-, h⟩ := settle_cases s
  · exact .inl (by rw [h]; rfl)
  · exact .inr (by rw [h])

/-- Only marking it complete seals a snapshot. -/
theorem eq_markComplete_of_isSealed {c : Call} (hc : c.apply s = .ok s') (h : s'.isSealed = true) :
    c = .markComplete := by
  have hsealed : s'.state = .sealed := of_decide_eq_true h
  cases c with
  | expectKeys keys =>
    obtain ⟨hstate, rfl⟩ := expectKeys_eq_ok hc
    cases hstate.symm.trans hsealed
  | addValues values =>
    obtain ⟨hstate, -, -, rfl⟩ := addValues_eq_ok.1 hc
    obtain hsettle | hsettle := state_settle (s.withValues values)
    · cases hsettle.symm.trans hsealed
    · exact absurd (hsettle.symm.trans hsealed) hstate
  | fixTime asOf =>
    obtain ⟨-, rfl⟩ := fixTime_eq_ok hc
    obtain hsettle | hsettle := state_settle (s.withTime asOf) <;> cases hsettle.symm.trans hsealed
  | markComplete => rfl

@[simp] theorem asOf_settle (s : Snapshot) : s.settle.asOf = s.asOf := by
  obtain ⟨-, -, h⟩ | ⟨-, h⟩ := settle_cases s
  · rw [h]
    rfl
  · rw [h]

@[simp] theorem values_settle (s : Snapshot) : s.settle.values = s.values := by
  obtain ⟨-, -, h⟩ | ⟨-, h⟩ := settle_cases s
  · rw [h]
    rfl
  · rw [h]

theorem ofValues_of_nodup (id : SnapshotId) {values : List (MarketDataKey × DataValue)}
    (h : (values.map (·.1)).Nodup) : ofValues id values = .ok (((new id).withValues values).transition .sealed) := by
  have hadd : (new id).addValues values = .ok ((new id).withValues values).settle :=
    addValues_eq_ok.2 ⟨nofun, h, fun _ _ => ⟨rfl, nofun⟩, rfl⟩
  have hopen : ((new id).withValues values).settle = (new id).withValues values := if_neg nofun
  have hseal : ((new id).withValues values).markComplete =
      .ok (((new id).withValues values).transition .sealed) := if_neg nofun
  exact bind_eq_ok.2 ⟨_, hadd, hopen ▸ hseal⟩

/-- A sealed snapshot can be made of any values under different keys. -/
theorem ofValues_eq_ok (id : SnapshotId) {values : List (MarketDataKey × DataValue)}
    (h : (values.map (·.1)).Nodup) :
    ∃ s, ofValues id values = .ok s ∧ s.values = .ofList values ∧ s.isSealed = true :=
  ⟨_, ofValues_of_nodup id h, rfl, rfl⟩

/-- The order in which values are given does not matter. -/
theorem ofValues_perm (id : SnapshotId) {values values' : List (MarketDataKey × DataValue)}
    (h : (values.map (·.1)).Nodup) (hperm : values.Perm values') : ofValues id values = ofValues id values' := by
  have h' : (values'.map (·.1)).Nodup := (hperm.map _).nodup_iff.1 h
  have htable : Table.ofList values = .ofList values' := by
    refine (Table.sorted_ofList values).ext (Table.sorted_ofList values') fun key => Option.ext fun value => ?_
    rw [Table.get?_ofList h, Table.get?_ofList h', hperm.mem_iff]
  have hvalues : (new id).values.insertAll values = (new id).values.insertAll values' := htable
  rw [ofValues_of_nodup id h, ofValues_of_nodup id h', withValues, withValues, hvalues]

/-! ## What fits together -/

/-- How state, eligible keys and values of a snapshot fit together, but for the values that a fixed snapshot
waits for. -/
structure Consistent (s : Snapshot) : Prop where
  sorted : s.values.Sorted
  asOf_isSome : s.asOf.isSome = s.eligible.isSome
  opened : s.state = .opened → s.eligible = none
  fixed : s.state = .fixed → s.eligible.isSome
  eligible_of_valued : ∀ keys, s.eligible = some keys → ∀ k, (s.get? k).isSome → k ∈ keys
  complete : s.state = .complete →
    ∃ keys, s.eligible = some keys ∧ (∀ k ∈ keys, (s.get? k).isSome) ∧ s.missingKeys = []

/-- How state, eligible keys and values of a snapshot fit together. -/
structure WellFormed (s : Snapshot) : Prop extends s.Consistent where
  waiting : s.state = .fixed → ∃ keys, s.eligible = some keys ∧ ∃ k ∈ keys, s.get? k = none

/-- What becomes of a snapshot: it only goes on. -/
structure Later (s s' : Snapshot) : Prop where
  id_eq : s'.id = s.id
  rank_le : s.state.rank ≤ s'.state.rank
  eligible_eq : ∀ keys, s.eligible = some keys → s'.eligible = some keys
  asOf_eq : ∀ t, s.asOf = some t → s'.asOf = some t
  get?_eq : ∀ k v, s.get? k = some v → s'.get? k = some v
  values_eq : s.state.reaches .complete = true → s'.values = s.values

theorem Later.refl (s : Snapshot) : s.Later s :=
  ⟨rfl, Nat.le_refl _, fun _ h => h, fun _ h => h, fun _ _ h => h, fun _ => rfl⟩

theorem Later.trans {s'' : Snapshot} (h : s.Later s') (h' : s'.Later s'') : s.Later s'' where
  id_eq := h'.id_eq.trans h.id_eq
  rank_le := Nat.le_trans h.rank_le h'.rank_le
  eligible_eq keys hkeys := h'.eligible_eq keys (h.eligible_eq keys hkeys)
  asOf_eq t ht := h'.asOf_eq t (h.asOf_eq t ht)
  get?_eq k v hv := h'.get?_eq k v (h.get?_eq k v hv)
  values_eq hs := by
    have hs' : s'.state.reaches .complete = true := by
      simp only [SnapshotState.reaches, decide_eq_true_eq] at hs ⊢
      exact Nat.le_trans hs h.rank_le
    rw [h'.values_eq hs', h.values_eq hs]

theorem missingKeys_eq_nil {keys : OrderedSet MarketDataKey} (heligible : s.eligible = some keys)
    (h : ∀ k ∈ keys, (s.get? k).isSome) : s.missingKeys = [] := by
  simp only [missingKeys, heligible, Option.getD_some, List.filter_eq_nil_iff]
  intro k hk
  simp [Table.contains, show (s.values.get? k).isSome from h k hk]

theorem wellFormed_new (id : SnapshotId) : (new id).WellFormed where
  sorted := Table.sorted_empty
  asOf_isSome := rfl
  opened _ := rfl
  fixed h := nomatch h
  eligible_of_valued _ h := nomatch h
  complete h := nomatch h
  waiting h := nomatch h

/-! ### A step -/

theorem Consistent.settle (h : s.Consistent) : s.settle.WellFormed := by
  obtain ⟨-, hall, heq⟩ | ⟨hnot, heq⟩ := settle_cases s
  · obtain ⟨keys, hkeys, hvalued⟩ := allEligibleValued_iff.1 hall
    rw [heq]
    exact ⟨⟨h.sorted, h.asOf_isSome, nofun, nofun, h.eligible_of_valued,
      fun _ => ⟨keys, hkeys, hvalued, missingKeys_eq_nil hkeys hvalued⟩⟩, nofun⟩
  · rw [heq]
    refine ⟨h, fun hfixed => ?_⟩
    obtain ⟨keys, hkeys⟩ := Option.isSome_iff_exists.1 (h.fixed hfixed)
    refine ⟨keys, hkeys, ?_⟩
    by_contra hnone
    refine Bool.false_ne_true ((hnot hfixed).symm.trans (allEligibleValued_iff.2 ⟨keys, hkeys, fun k hk => ?_⟩))
    exact Option.isSome_iff_ne_none.2 fun hmissing => hnone ⟨k, hk, hmissing⟩

theorem later_settle (s : Snapshot) : s.Later s.settle := by
  obtain ⟨hfixed, -, heq⟩ | ⟨-, heq⟩ := settle_cases s
  · have hrank : s.state.rank ≤ SnapshotState.complete.rank := by rw [hfixed]; decide
    rw [heq]
    exact ⟨rfl, hrank, fun _ h => h, fun _ h => h, fun _ _ h => h, fun _ => rfl⟩
  · rw [heq]
    exact .refl s

/-- In `complete` no value may be added: eligible keys have one, and other keys are not eligible. -/
theorem Consistent.not_mayAdd (h : s.Consistent) (hstate : s.state = .complete) (k : MarketDataKey) :
    ¬s.MayAdd k := by
  obtain ⟨keys, hkeys, hall, -⟩ := h.complete hstate
  intro hmay
  have hvalued : s.values.contains k = true := hall k (hmay.2 keys hkeys)
  rw [hmay.1] at hvalued
  cases hvalued

section
variable {values : List (MarketDataKey × DataValue)} (h : s.Consistent)
  (hmay : ∀ k ∈ values.map (·.1), s.MayAdd k)
include h hmay

theorem Consistent.withValues : (s.withValues values).Consistent where
  sorted := Table.sorted_insertAll h.sorted values
  asOf_isSome := h.asOf_isSome
  opened := h.opened
  fixed := h.fixed
  eligible_of_valued keys hkeys k hk := by
    obtain hold | hnew := (Table.contains_insertAll s.values values k).1 hk
    · exact h.eligible_of_valued keys hkeys k hold
    · exact (hmay k hnew).2 keys hkeys
  complete hcomplete := by
    obtain ⟨keys, hkeys, hall, -⟩ := h.complete hcomplete
    have hvalued : ∀ k ∈ keys, ((s.withValues values).get? k).isSome := fun k hk =>
      (Table.contains_insertAll s.values values k).2 (.inl (hall k hk))
    exact ⟨keys, hkeys, hvalued, missingKeys_eq_nil hkeys hvalued⟩

theorem later_withValues (hstate : s.state ≠ .sealed) : s.Later (s.withValues values) where
  id_eq := rfl
  rank_le := Nat.le_refl _
  eligible_eq _ hkeys := hkeys
  asOf_eq _ ht := ht
  get?_eq k v hv := by
    have hnot : k ∉ values.map (·.1) := fun hk => by
      have hnone : (s.get? k).isSome = false := (hmay k hk).1
      rw [hv] at hnone
      cases hnone
    exact (Table.get?_insertAll_of_notMem hnot s.values).trans hv
  values_eq hs := by
    have hcomplete : s.state = .complete := by
      cases hcase : s.state <;> simp_all [SnapshotState.reaches, SnapshotState.rank]
    cases values with
    | nil => rfl
    | cons e rest => exact absurd (hmay e.1 (List.mem_cons_self ..)) (h.not_mayAdd hcomplete e.1)

end

section
variable (h : s.Consistent) (hstate : s.state = .opened) (asOf : Instant)
include h

theorem Consistent.withTime : (s.withTime asOf).Consistent where
  sorted := h.sorted
  asOf_isSome := rfl
  opened := nofun
  fixed _ := rfl
  eligible_of_valued keys hkeys k hk := by
    cases hkeys
    have hvalued : k ∈ s.values.keys := (Table.contains_iff s.values k).1 hk
    simp [hvalued]
  complete := nofun

include hstate

theorem later_withTime : s.Later (s.withTime asOf) where
  id_eq := rfl
  rank_le := by rw [hstate]; exact Nat.zero_le _
  eligible_eq keys hkeys := by cases (h.opened hstate).symm.trans hkeys
  asOf_eq t ht := by
    have hnone := h.asOf_isSome
    rw [h.opened hstate, ht] at hnone
    cases hnone
  get?_eq _ _ hv := hv
  values_eq _ := rfl

end

/-- An accepted call leaves a snapshot well formed and takes it on. -/
theorem WellFormed.apply (h : s.WellFormed) {c : Call} (hc : c.apply s = .ok s') : s'.WellFormed ∧ s.Later s' := by
  cases c with
  | expectKeys keys =>
    obtain ⟨hstate, rfl⟩ := expectKeys_eq_ok hc
    refine ⟨⟨⟨h.sorted, h.asOf_isSome, h.opened, h.fixed, h.eligible_of_valued, fun hcomplete => ?_⟩, h.waiting⟩,
      ⟨rfl, Nat.le_refl _, fun _ h => h, fun _ h => h, fun _ _ h => h, fun _ => rfl⟩⟩
    cases hstate.symm.trans hcomplete
  | addValues values =>
    obtain ⟨hstate, -, hmay, rfl⟩ := addValues_eq_ok.1 hc
    exact ⟨(h.toConsistent.withValues hmay).settle,
      (later_withValues h.toConsistent hmay hstate).trans (later_settle _)⟩
  | fixTime asOf =>
    obtain ⟨hstate, rfl⟩ := fixTime_eq_ok hc
    exact ⟨(h.toConsistent.withTime asOf).settle,
      (later_withTime h.toConsistent hstate asOf).trans (later_settle _)⟩
  | markComplete =>
    obtain ⟨hstate, rfl⟩ := markComplete_eq_ok hc
    refine ⟨⟨⟨h.sorted, h.asOf_isSome, nofun, nofun, h.eligible_of_valued, nofun⟩, nofun⟩,
      ⟨rfl, ?_, fun _ h => h, fun _ h => h, fun _ _ h => h, fun _ => rfl⟩⟩
    cases hcase : s.state <;> simp [transition, SnapshotState.rank]

theorem WellFormed.call (h : s.WellFormed) (c : Call) : (s.call c).WellFormed ∧ s.Later (s.call c) := by
  obtain ⟨_, -, heq⟩ | hok := call_cases s c
  · rw [heq]
    exact ⟨h, .refl s⟩
  · exact h.apply hok

/-! ### A run -/

theorem WellFormed.after (h : s.WellFormed) (calls : List Call) :
    (s.after calls).WellFormed ∧ s.Later (s.after calls) := by
  induction calls generalizing s with
  | nil => exact ⟨h, .refl s⟩
  | cons c calls ih =>
    obtain ⟨hc, hlater⟩ := h.call c
    exact ⟨(ih hc).1, hlater.trans (ih hc).2⟩

/-- The time is set by a call that fixes it, when that is accepted, and by no other call. -/
theorem WellFormed.asOf_call (h : s.WellFormed) (c : Call) (t : Instant) :
    (s.call c).asOf = some t ↔ s.asOf = some t ∨ Call.fixTime t = c ∧ ∃ s', c.apply s = .ok s' := by
  constructor
  · intro ht
    obtain ⟨_, -, heq⟩ | hok := call_cases s c
    · exact .inl (heq ▸ ht)
    generalize s.call c = s' at ht hok
    cases c with
    | expectKeys keys =>
      obtain ⟨-, rfl⟩ := expectKeys_eq_ok hok
      exact .inl ht
    | addValues values =>
      obtain ⟨-, -, -, rfl⟩ := addValues_eq_ok.1 hok
      exact .inl (asOf_settle (s.withValues values) ▸ ht)
    | fixTime u =>
      refine .inr ⟨?_, s', hok⟩
      obtain ⟨-, rfl⟩ := fixTime_eq_ok hok
      rw [asOf_settle] at ht
      cases ht
      rfl
    | markComplete =>
      obtain ⟨-, rfl⟩ := markComplete_eq_ok hok
      exact .inl ht
  · rintro (ht | ⟨rfl, s', hok⟩)
    · exact (h.call c).2.asOf_eq t ht
    · rw [call_of_ok hok]
      obtain ⟨-, rfl⟩ := fixTime_eq_ok hok
      exact asOf_settle (s.withTime t)

end

theorem asOf_after (id : SnapshotId) (calls : List Call) (t : Instant) :
    ((new id).after calls).asOf = some t ↔ (new id).Accepted calls (.fixTime t) := by
  induction calls using List.reverseRecOn with
  | nil => simp [Accepted, after, new]
  | append_singleton calls c ih =>
    have h := ((wellFormed_new id).after calls).1
    rw [after_append, accepted_concat, ← ih]
    refine (h.asOf_call c t).trans (or_congr_right ?_)
    exact ⟨fun ⟨hc, hok⟩ => ⟨hc, hc ▸ hok⟩, fun ⟨hc, hok⟩ => ⟨hc, hc ▸ hok⟩⟩

/-- Whatever calls a new snapshot has had, accepted or not: it is well formed, more calls only take it on, and
its time and eligible keys are set just when a call that fixes the time was accepted. -/
theorem after_lifecycle (id : SnapshotId) (calls more : List Call) :
    ((new id).after calls).WellFormed ∧
      ((new id).after calls).Later ((new id).after (calls ++ more)) ∧
      (∀ t, ((new id).after calls).asOf = some t ↔ (new id).Accepted calls (.fixTime t)) ∧
      (((new id).after calls).eligible.isSome = true ↔ ∃ t, (new id).Accepted calls (.fixTime t)) := by
  have h := ((wellFormed_new id).after calls).1
  refine ⟨h, ?_, asOf_after id calls, ?_⟩
  · rw [after_append]
    exact (h.after more).2
  · rw [← h.asOf_isSome, Option.isSome_iff_exists]
    exact exists_congr (asOf_after id calls)

end Snapshot
end Valuation
