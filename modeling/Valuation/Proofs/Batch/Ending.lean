import Valuation.Proofs.Batch.Invariant

/-!
# Ends of batches

An end takes a record of the batch, waits until it is saved, and is over. Meanwhile the batch goes on running in
the same attempt, and nobody else can end it. So the ends of a batch do not overlap, and a batch that has ended
has the record of its attempt in the store (`Endings`).
-/
namespace Valuation
namespace BatchManager

theorem load?_save (s : BatchStore) (r : BatchRecord) (b : BatchId) :
    (s.save r).load? b = if r.batch = b then some r else s.load? b := by
  rw [BatchStore.load?, BatchStore.save, Table.get?_insert]
  rfl

namespace Session

/-! ## Ends that are not over -/

/-- The end of a place has taken its record and is not over. -/
def Pending (ends : List EndCall) (k : Nat) (e : EndCall) : Prop := ends[k]? = some e ∧ e.finished = false

section
variable {ends : List EndCall} {k j : Nat} {e e' : EndCall}

theorem pending_append (h : Pending (ends ++ [e]) k e') : Pending ends k e' ∨ k = ends.length ∧ e' = e := by
  obtain ⟨hk, hunfinished⟩ := h
  by_cases hlt : k < ends.length
  · rw [List.getElem?_append_left hlt] at hk
    exact .inl ⟨hk, hunfinished⟩
  · rw [List.getElem?_append_right (Nat.le_of_not_lt hlt)] at hk
    obtain ⟨hone, rfl⟩ := List.getElem?_eq_some_iff.1 hk
    rw [List.length_singleton] at hone
    exact .inr ⟨by omega, List.getElem_singleton _⟩

theorem pending_set (h : Pending (ends.set k e) j e') : j ≠ k ∧ Pending ends j e' ∨ j = k ∧ e' = e := by
  obtain ⟨hj, hunfinished⟩ := h
  by_cases hjk : k = j
  · subst hjk
    rw [List.getElem?_set_self'] at hj
    obtain ⟨-, -, rfl⟩ := Option.map_eq_some_iff.1 hj
    exact .inr ⟨rfl, rfl⟩
  · rw [List.getElem?_set_ne hjk] at hj
    exact .inl ⟨Ne.symm hjk, hj, hunfinished⟩

theorem pending_set_finished (h : Pending (ends.set k { e with finished := true }) j e') :
    j ≠ k ∧ Pending ends j e' := by
  obtain hold | ⟨rfl, rfl⟩ := pending_set h
  · exact hold
  · cases h.2

end

/-- How the ends of a session stand to its batches and its store. -/
structure Endings (s : Session) : Prop where
  /-- An end is not over before the store has answered. -/
  answered : ∀ e ∈ s.ends, e.finished = true → e.saved ≠ none
  alone : ∀ k k' e e', Pending s.ends k e → Pending s.ends k' e' → e.batch = e'.batch → k = k'
  held : ∀ k e, Pending s.ends k e → ∃ run, s.manager.batches.get? e.batch = some run ∧
    run.status = .running ∧ run.ending = true ∧ run.attempt = e.record.attempt
  stored : ∀ k e, Pending s.ends k e → e.saved = some (.ok ()) → s.store.load? e.batch = some e.record
  ended : ∀ b run, s.manager.batches.get? b = some run → run.status = .ended →
    ∃ record, s.store.load? b = some record ∧ record.attempt = run.attempt

/-- An end for which the store has not answered is pending. -/
theorem Endings.pending {s : Session} (h : s.Endings) {k : Nat} {e : EndCall} (he : s.ends[k]? = some e)
    (hnone : e.saved = none) : Pending s.ends k e :=
  ⟨he, Bool.eq_false_iff.2 fun hfinished => h.answered e (List.mem_of_getElem? he) hfinished hnone⟩

theorem EndValid.record_batch {s : Session} {e : EndCall} (h : s.EndValid e) : e.record.batch = e.batch := by
  obtain ⟨run, x, now, hrecord, -, hbatch, -⟩ := h.taken
  rw [hrecord]
  exact hbatch

/-! ## A move -/

/-- Ends stay as they are while a batch that is being ended goes on, and no batch ends. -/
theorem Endings.of_eq {s s' : Session} (h : s.Endings) (hends : s'.ends = s.ends) (hstore : s'.store = s.store)
    (hheld : ∀ b run, s.manager.batches.get? b = some run → run.status = .running → run.ending = true →
      ∃ run', s'.manager.batches.get? b = some run' ∧ run'.status = .running ∧ run'.ending = true ∧
        run'.attempt = run.attempt)
    (hended : ∀ b run', s'.manager.batches.get? b = some run' → run'.status = .ended →
      ∃ run, s.manager.batches.get? b = some run ∧ run.status = .ended ∧ run.attempt = run'.attempt) :
    s'.Endings where
  answered := by
    rw [hends]
    exact h.answered
  alone := by
    rw [hends]
    exact h.alone
  held k e he := by
    rw [hends] at he
    obtain ⟨run, hrun, hrunning, hending, hattempt⟩ := h.held k e he
    obtain ⟨run', hrun', hrunning', hending', hattempt'⟩ := hheld _ run hrun hrunning hending
    exact ⟨run', hrun', hrunning', hending', hattempt'.trans hattempt⟩
  stored := by
    rw [hends, hstore]
    exact h.stored
  ended b run' hrun' hended' := by
    obtain ⟨run, hrun, hstatus, hattempt⟩ := hended b run' hrun' hended'
    rw [hstore, ← hattempt]
    exact h.ended b run hrun hstatus

section
variable {s : Session} (h : s.Endings)
include h

/-- Starting a batch that is new or has ended does nothing to ends: none of this batch is pending. -/
theorem Endings.start {job : BatchJob} {run : BatchRun} (hrunning : run.status = .running)
    (hidle : ∀ old, s.manager.batches.get? job.batch = some old → old.status = .ended)
    (starts : List (Nat × BatchJob)) :
    Endings { s with
      manager := { s.manager with batches := s.manager.batches.insert job.batch run }, starts } := by
  refine h.of_eq rfl rfl (fun b old hold hstatus hending => ?_) fun b run' hrun' hended => ?_
  · refine ⟨old, ?_, hstatus, hending, rfl⟩
    rw [Table.get?_insert, if_neg]
    · exact hold
    · rintro rfl
      cases hstatus.symm.trans (hidle old hold)
  · rw [Table.get?_insert] at hrun'
    split at hrun'
    · cases hrun'
      cases hrunning.symm.trans hended
    · exact ⟨run', hrun', hended, rfl⟩

theorem Endings.beginEnd {b : BatchId} {run : BatchRun} (hrun : s.manager.batches.get? b = some run)
    (hrunning : run.status = .running) (hfree : run.ending = false) {record : BatchRecord}
    (hattempt : record.attempt = run.attempt) (cycle : Option Cycle) :
    Endings { s with
      manager := { s.manager with batches := s.manager.batches.insert b { run with ending := true } }
      ends := s.ends ++ [{ batch := b, record, cycle }] } := by
  have hnone : ∀ k e, Pending s.ends k e → e.batch ≠ b := by
    rintro k e he rfl
    obtain ⟨run', hrun', -, hending, -⟩ := h.held k e he
    obtain rfl := Option.some.inj (hrun.symm.trans hrun')
    cases hfree.symm.trans hending
  constructor
  case answered =>
    intro e he hfinished
    obtain he | he := List.mem_append.1 he
    · exact h.answered e he hfinished
    · obtain rfl := List.mem_singleton.1 he
      cases hfinished
  case alone =>
    intro k k' e e' he he' hbatch
    obtain he | ⟨rfl, rfl⟩ := pending_append he <;> obtain he' | ⟨rfl, rfl⟩ := pending_append he'
    · exact h.alone k k' e e' he he' hbatch
    · exact absurd hbatch (hnone k e he)
    · exact absurd hbatch.symm (hnone k' e' he')
    · rfl
  case held =>
    intro k e he
    rw [Table.get?_insert]
    obtain he | ⟨-, rfl⟩ := pending_append he
    · rw [if_neg (hnone k e he).symm]
      exact h.held k e he
    · exact ⟨_, if_pos rfl, hrunning, rfl, hattempt.symm⟩
  case stored =>
    intro k e he hsaved
    obtain he | ⟨-, rfl⟩ := pending_append he
    · exact h.stored k e he hsaved
    · cases hsaved
  case ended =>
    intro b' run' hrun' hended
    rw [Table.get?_insert] at hrun'
    split at hrun'
    · cases hrun'
      cases hrunning.symm.trans hended
    · exact h.ended b' run' hrun' hended

theorem Endings.save {k : Nat} {e : EndCall} (he : s.ends[k]? = some e) (hnone : e.saved = none)
    (hbatch : e.record.batch = e.batch) (result : Except ServiceError Unit) :
    Endings { s with
      ends := s.ends.set k { e with saved := some result }
      store := if result.isOk then s.store.save e.record else s.store } := by
  have hpending := h.pending he hnone
  have hother : ∀ b, b ≠ e.batch →
      (if result.isOk then s.store.save e.record else s.store).load? b = s.store.load? b := by
    intro b hb
    split
    · rw [load?_save, if_neg (hbatch ▸ hb.symm)]
    · rfl
  -- What is pending was pending before, with the same record.
  have hbefore : ∀ j e', Pending (s.ends.set k { e with saved := some result }) j e' →
      ∃ old, Pending s.ends j old ∧ old.batch = e'.batch ∧ old.record = e'.record := by
    intro j e' he'
    obtain ⟨-, he'⟩ | ⟨rfl, rfl⟩ := pending_set he'
    · exact ⟨e', he', rfl, rfl⟩
    · exact ⟨e, hpending, rfl, rfl⟩
  constructor
  case answered =>
    intro e' he' hfinished
    obtain he' | rfl := List.mem_or_eq_of_mem_set he'
    · exact h.answered e' he' hfinished
    · exact Option.some_ne_none result
  case alone =>
    intro j j' e₁ e₂ h₁ h₂ hsame
    obtain ⟨old₁, hold₁, hbatch₁, -⟩ := hbefore j e₁ h₁
    obtain ⟨old₂, hold₂, hbatch₂, -⟩ := hbefore j' e₂ h₂
    exact h.alone j j' old₁ old₂ hold₁ hold₂ (hbatch₁.trans (hsame.trans hbatch₂.symm))
  case held =>
    intro j e' he'
    obtain ⟨old, hold, hbatch', hrecord⟩ := hbefore j e' he'
    rw [← hbatch', ← hrecord]
    exact h.held j old hold
  case stored =>
    intro j e' he' hsaved
    obtain ⟨hjk, he'⟩ | ⟨rfl, rfl⟩ := pending_set he'
    · have hb : e'.batch ≠ e.batch := fun hb => hjk (h.alone j k e' e he' hpending hb)
      exact (hother _ hb).trans (h.stored j e' he' hsaved)
    · obtain rfl := Option.some.inj hsaved
      exact (load?_save s.store e.record e.batch).trans (if_pos hbatch)
  case ended =>
    intro b run hrun hended
    obtain ⟨run', hrun', hrunning, -⟩ := h.held k e hpending
    have hb : b ≠ e.batch := by
      rintro rfl
      obtain rfl := Option.some.inj (hrun.symm.trans hrun')
      cases hrunning.symm.trans hended
    exact hother b hb ▸ h.ended b run hrun hended

theorem Endings.finishEnd {k : Nat} {e : EndCall} {result : Except ServiceError Unit} (hpending : Pending s.ends k e)
    (hsaved : e.saved = some result) :
    Endings { s with
      manager := { s.manager with
        batches := s.manager.batches.modify e.batch fun run => { run with
          ending := false, status := if result.isOk then .ended else run.status } }
      ends := s.ends.set k { e with finished := true } } := by
  obtain ⟨run, hrun, hrunning, hending, hattempt⟩ := h.held k e hpending
  -- Whatever is pending now belongs to another batch.
  have hbefore : ∀ j e', Pending (s.ends.set k { e with finished := true }) j e' →
      Pending s.ends j e' ∧ e'.batch ≠ e.batch := by
    intro j e' he'
    obtain ⟨hjk, he'⟩ := pending_set_finished he'
    exact ⟨he', fun hb => hjk (h.alone j k e' e he' hpending hb)⟩
  constructor
  case answered =>
    intro e' he' hfinished
    obtain he' | rfl := List.mem_or_eq_of_mem_set he'
    · exact h.answered e' he' hfinished
    · exact hsaved ▸ Option.some_ne_none result
  case alone =>
    intro j j' e₁ e₂ h₁ h₂ hsame
    exact h.alone j j' e₁ e₂ (hbefore j e₁ h₁).1 (hbefore j' e₂ h₂).1 hsame
  case held =>
    intro j e' he'
    obtain ⟨he', hb⟩ := hbefore j e' he'
    rw [Table.get?_modify, if_neg hb.symm]
    exact h.held j e' he'
  case stored => exact fun j e' he' => h.stored j e' (hbefore j e' he').1
  case ended =>
    intro b run' hrun' hended
    rw [Table.get?_modify] at hrun'
    split at hrun'
    · next hb =>
      subst hb
      rw [hrun] at hrun'
      obtain rfl := Option.some.inj hrun'
      cases result with
      | ok _ => exact ⟨e.record, h.stored k e hpending hsaved, hattempt.symm⟩
      | error _ => cases hrunning.symm.trans hended
    · exact h.ended b run' hrun' hended

end

theorem Takes.endings {s s' : Session} {m : Move} (hwell : s.WellFormed) (h : s.Endings) (htakes : s.Takes m s') :
    s'.Endings := by
  cases htakes with
  | first hnone => exact h.start rfl (fun old hold => nomatch hnone.symm.trans hold) _
  | again hrun hended =>
    refine h.start rfl (fun old hold => ?_) _
    obtain rfl := Option.some.inj (hrun.symm.trans hold)
    exact hended
  | @record k r c =>
    refine h.of_eq rfl rfl (fun b run hrun hrunning hending => ?_) fun b run' hrun' hended => ?_
    · rw [Table.get?_modify, hrun]
      split
      · exact ⟨_, rfl, hrunning, hending, rfl⟩
      · exact ⟨run, rfl, hrunning, hending, rfl⟩
    · rw [Table.get?_modify] at hrun'
      split at hrun'
      · obtain ⟨run, hrun, rfl⟩ := Option.map_eq_some_iff.1 hrun'
        exact ⟨run, hrun, hended, rfl⟩
      · exact ⟨run', hrun', hended, rfl⟩
  | beginEnd hrun hrunning hending => exact h.beginEnd hrun hrunning hending rfl _
  | save he hnone => exact h.save he hnone (hwell.ends _ (List.mem_of_getElem? he)).record_batch _
  | finishEnd he hsaved hunfinished => exact h.finishEnd ⟨he, hunfinished⟩ hsaved
  | create | change | read | perform | compile | wait =>
    exact h.of_eq rfl rfl (fun _ run hrun hrunning hending => ⟨run, hrun, hrunning, hending, rfl⟩)
      fun _ run hrun hended => ⟨run, hrun, hended, rfl⟩

/-! ## A session -/

theorem endings_start (e : Engine) : Endings { engine := e } where
  answered _ he := nomatch he
  alone _ _ _ _ he := nomatch he.1
  held _ _ he := nomatch he.1
  stored _ _ he := nomatch he.1
  ended _ _ hrun := nomatch hrun

theorem Endings.after {s : Session} (hwell : s.WellFormed) (h : s.Endings) (moves : List Move) :
    (s.after moves).Endings := by
  induction moves generalizing s with
  | nil => exact h
  | cons m moves ih =>
    refine ih (hwell.step m).1 ?_
    obtain heq | htakes := s.step_cases m
    · rwa [heq]
    · exact htakes.endings hwell h

end Session
end BatchManager
end Valuation
