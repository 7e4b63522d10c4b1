import Valuation.Proofs.Availability

/-!
# What a fingerprint keeps track of

The keys that a snapshot has available are those that accepted calls have named, as expected ones or with a value
(`available_after`), and its fingerprint lists just these, in order. So the fingerprint is the one of the set of these
keys (`Listed.ext`). No key is lost, and none comes in once the snapshot is no longer open (`available_of_closed`):
where the eligible keys are fixed, a value is only added under one of them, and a snapshot that was sealed before that
accepts nothing.
-/
namespace Valuation

namespace Availability

/-! ## Fingerprints are sorted -/

theorem Listed.sorted {a : Availability} (h : a.Listed) : OrderedSet.Sorted a.fingerprint := by
  cases h with
  | ofKeys keys => exact OrderedSet.sorted_ofList keys
  | snapshot s =>
    have hkeys := OrderedSet.sorted_insertAll (OrderedSet.sorted_ofList s.values.keys) s.expected.toList
    change OrderedSet.Sorted s.fingerprint
    unfold Snapshot.fingerprint
    cases s.eligible with
    | none => exact hkeys
    | some eligible => exact OrderedSet.sorted_insertAll hkeys eligible.toList

/-- Where the same keys are available, the fingerprints are equal too. -/
theorem Listed.ext {a b : Availability} (ha : a.Listed) (hb : b.Listed)
    (h : ∀ k, a.isAvailable k = true ↔ b.isAvailable k = true) : a = b := by
  refine ha.eq_of_fingerprint hb (ha.sorted.eq_of_mem_iff hb.sorted fun k => ?_)
  rw [← ha.isAvailable_iff, ← hb.isAvailable_iff, h]

end Availability

namespace Snapshot

/-! ## Keys that calls name -/

/-- The keys that a call expects, or gives values. -/
def Call.keys : Call → List MarketDataKey
  | .expectKeys keys => keys
  | .addValues values => values.map (·.1)
  | .fixTime _ => []
  | .markComplete => []

section
variable {s s' : Snapshot} {k : MarketDataKey}

/-- An accepted call makes the keys available that it names. -/
theorem WellFormed.available_apply (h : s.WellFormed) {c : Call} (hc : c.apply s = .ok s') :
    s'.isAvailable k = true ↔ s.isAvailable k = true ∨ k ∈ c.keys := by
  rw [available_iff, available_iff]
  cases c with
  | expectKeys keys =>
    obtain ⟨-, rfl⟩ := expectKeys_eq_ok hc
    simp only [OrderedSet.mem_insertAll, Call.keys, get?]
    grind
  | addValues values =>
    obtain ⟨-, -, -, rfl⟩ := addValues_eq_ok.1 hc
    obtain ⟨hexpected, heligible⟩ := expected_eligible_settle (s.withValues values)
    have hvalued : ((s.withValues values).settle.get? k).isSome ↔ (s.get? k).isSome ∨ k ∈ values.map (·.1) := by
      rw [get?, values_settle]
      exact Table.contains_insertAll s.values values k
    rw [hexpected, heligible, hvalued]
    simp only [withValues, Call.keys]
    grind
  | fixTime asOf =>
    obtain ⟨hstate, rfl⟩ := fixTime_eq_ok hc
    obtain ⟨hexpected, heligible⟩ := expected_eligible_settle (s.withTime asOf)
    rw [get?, values_settle, hexpected, heligible]
    -- no keys were eligible, and those that are now were available
    have hvalued : k ∈ s.values.keys ↔ (s.get? k).isSome := (Table.contains_iff s.values k).symm
    simp only [get?] at hvalued
    simp only [withTime, transition, h.opened hstate, Call.keys, get?, OrderedSet.mem_insertAll, OrderedSet.mem_ofList,
      OrderedSet.mem_toList, hvalued, Option.some.injEq, exists_eq_left', List.not_mem_nil, reduceCtorEq, false_and]
    grind
  | markComplete =>
    obtain ⟨-, rfl⟩ := markComplete_eq_ok hc
    simp [transition, Call.keys, get?]

/-- What is available are the keys that accepted calls have named. -/
theorem available_after (id : SnapshotId) (calls : List Call) :
    ((new id).after calls).isAvailable k = true ↔ ∃ c, (new id).Accepted calls c ∧ k ∈ c.keys := by
  induction calls using List.reverseRecOn with
  | nil =>
    have hempty : k ∉ (∅ : OrderedSet MarketDataKey) := List.not_mem_nil
    simp [available_iff, Accepted, after, new, get?, hempty]
  | append_singleton calls c ih =>
    have h := ((wellFormed_new id).after calls).1
    have hcall : ((new id).after (calls ++ [c])) = ((new id).after calls).call c := after_append ..
    rw [hcall]
    simp only [accepted_concat]
    obtain ⟨e, hrefused, heq⟩ | hok := call_cases ((new id).after calls) c
    · have hnot : ∀ d, ¬(d = c ∧ ∃ s', d.apply ((new id).after calls) = .ok s') := by
        rintro d ⟨rfl, s', hs'⟩
        cases hrefused.symm.trans hs'
      simp only [heq, ih, hnot, or_false]
    · rw [h.available_apply hok, ih]
      constructor
      · rintro (⟨d, hd, hk⟩ | hk)
        · exact ⟨d, .inl hd, hk⟩
        · exact ⟨c, .inr ⟨rfl, _, hok⟩, hk⟩
      · rintro ⟨d, hd | ⟨rfl, -⟩, hk⟩
        · exact .inl ⟨d, hd, hk⟩
        · exact .inr hk

/-! ## Keys are fixed -/

/-- Once a snapshot is no longer open, an accepted call names only available keys. -/
theorem Foreseeing.available_of_closed (h : s.Foreseeing) (hstate : s.state ≠ .opened) {c : Call}
    (hc : c.apply s = .ok s') (hk : k ∈ c.keys) : s.isAvailable k = true := by
  cases c with
  | expectKeys keys => exact absurd (expectKeys_eq_ok hc).1 hstate
  | addValues values =>
    obtain ⟨hsealed, -, hmay, -⟩ := addValues_eq_ok.1 hc
    have heligible : ∃ keys, s.eligible = some keys := by
      cases hcase : s.state with
      | opened => exact absurd hcase hstate
      | fixed => exact Option.isSome_iff_exists.1 (h.fixed hcase)
      | complete => exact (h.complete hcase).imp fun keys hkeys => hkeys.1
      | sealed => exact absurd hcase hsealed
    obtain ⟨keys, hkeys⟩ := heligible
    exact available_iff.2 (.inr (.inr ⟨keys, hkeys, (hmay k hk).2 keys hkeys⟩))
  | fixTime asOf => cases hk
  | markComplete => cases hk

/-- Once a snapshot is no longer open, the same keys stay available, whatever calls it has. -/
theorem Foreseeing.availability_of_closed (h : s.Foreseeing) (hstate : s.state ≠ .opened) (calls : List Call) :
    (s.after calls).availability = s.availability := by
  induction calls generalizing s with
  | nil => rfl
  | cons c calls ih =>
    obtain ⟨e, hrefused, heq⟩ | hok := call_cases s c
    · change ((s.call c).after calls).availability = s.availability
      rw [heq]
      exact ih h hstate
    · have hclosed : (s.call c).state ≠ .opened := by
        intro hopened
        have hrank := (h.toWellFormed.apply hok).2.rank_le
        rw [hopened] at hrank
        cases hcase : s.state <;> simp [hcase, SnapshotState.rank] at hrank hstate
      have hcall : (s.call c).availability = s.availability := by
        refine Availability.Listed.ext (.snapshot _) (.snapshot _) fun k => (h.toWellFormed.available_apply hok).trans ?_
        exact or_iff_left_of_imp (h.available_of_closed hstate hok)
      exact (ih (h.apply hok).1 hclosed).trans hcall

end

/-- Whatever calls a new snapshot has had: what is available are the keys that its fingerprint lists, which are those
that accepted calls have named, and a set of just these keys has the same fingerprint. They stay available whatever
further calls come, and no others become so once the snapshot is no longer open. -/
theorem after_available (id : SnapshotId) (calls more : List Call) :
    let s := (new id).after calls
    let s' := (new id).after (calls ++ more)
    (∀ k, s.isAvailable k = true ↔ k ∈ s.fingerprint) ∧
      (∀ k, s.isAvailable k = true ↔ ∃ c, (new id).Accepted calls c ∧ k ∈ c.keys) ∧
      (∀ keys, (∀ k, k ∈ keys ↔ s.isAvailable k = true) → (Availability.ofKeys keys).fingerprint = s.fingerprint) ∧
      (∀ k, s.isAvailable k = true → s'.isAvailable k = true) ∧
      (s.state ≠ .opened → s'.availability = s.availability) := by
  intro s s'
  have h : s.Foreseeing := ((foreseeing_new id).after calls).1
  have hafter : s' = s.after more := after_append ..
  refine ⟨s.isAvailable_iff, fun k => available_after id calls, fun keys hkeys => ?_, ?_, fun hstate => ?_⟩
  · have hext : Availability.ofKeys keys = s.availability := by
      refine Availability.Listed.ext (.ofKeys keys) (.snapshot s) fun k => ?_
      rw [← show k ∈ keys ↔ s.availability.isAvailable k = true from hkeys k]
      simp [Availability.ofKeys, OrderedSet.contains]
    exact congrArg Availability.fingerprint hext
  · rw [hafter]
    exact (h.after more).2
  · rw [hafter]
    exact h.availability_of_closed hstate more

end Snapshot
end Valuation
