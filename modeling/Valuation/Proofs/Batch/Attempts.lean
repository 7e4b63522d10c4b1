import Valuation.Proofs.Batch.Ending

/-!
# Attempts of batches

A batch goes through its attempts one after the other. Each start that is accepted begins the next one, and is
accepted only when the last one has ended; an attempt ends when its record is saved, which happens once at most. In
between the flag of the batch says whether an end is in progress, and a save that fails leaves the attempt to be
ended again. `Advances` is what every move keeps of this, and `after_settles` what it comes to for a batch, however
starts, runs and the halves of ends follow each other.
-/
namespace Valuation
namespace BatchManager

theorem mem_of_load?_foldl_save {saved : List BatchRecord} {store : BatchStore} {b : BatchId} {record : BatchRecord}
    (h : (saved.foldl BatchStore.save store).load? b = some record) :
    record ∈ saved ∧ record.batch = b ∨ store.load? b = some record := by
  induction saved generalizing store with
  | nil => exact .inr h
  | cons r saved ih =>
    rcases ih h with ⟨hmem, hbatch⟩ | hload
    · exact .inl ⟨List.mem_cons_of_mem _ hmem, hbatch⟩
    · rw [load?_save] at hload
      split at hload
      · next hb =>
        cases hload
        exact .inl ⟨List.mem_cons_self .., hb⟩
      · exact .inr hload

namespace Session

/-! ## What the store has taken -/

/-- The record that a move saves. -/
def savedBy (s : Session) : Move → Option BatchRecord
  | .save k (.ok ()) => (s.ends[k]?.filter fun e => e.saved.isNone).map (·.record)
  | _ => none

/-- The records that are saved in the course of some moves, in turn. -/
def saves (s : Session) : List Move → List BatchRecord
  | [] => []
  | m :: moves => (s.savedBy m).toList ++ (s.step m).saves moves

/-- A move saves nothing, or the record of an end for which the store has not answered yet. -/
theorem savedBy_cases (s : Session) (m : Move) :
    s.savedBy m = none ∨ ∃ k e, m = .save k (.ok ()) ∧ s.ends[k]? = some e ∧ e.saved = none ∧
      s.savedBy m = some e.record := by
  unfold savedBy
  split
  · next k =>
    cases he : s.ends[k]? with
    | none => exact .inl rfl
    | some e =>
      cases hsaved : e.saved with
      | none => exact .inr ⟨k, e, rfl, he, hsaved, by simp [hsaved]⟩
      | some result => exact .inl (by simp [hsaved])
  · exact .inl rfl

theorem step_save {s : Session} {k : Nat} {e : EndCall} (he : s.ends[k]? = some e) (hnone : e.saved = none)
    (result : Except ServiceError Unit) : s.step (.save k result) = { s with
      ends := s.ends.set k { e with saved := some result }
      store := if result.isOk then s.store.save e.record else s.store } := by
  simp [step, save, he, hnone]

theorem store_step (s : Session) (m : Move) :
    (s.step m).store = (s.savedBy m).toList.foldl BatchStore.save s.store := by
  obtain hnone | ⟨k, e, rfl, he, hnone, heq⟩ := s.savedBy_cases m
  · rw [hnone]
    obtain heq | htakes := s.step_cases m
    · rw [heq]
      rfl
    · generalize s.step m = s' at htakes
      cases htakes with
      | @save k result e he hsaved =>
        cases result with
        | ok _ => simp [savedBy, he, hsaved] at hnone
        | error _ => rfl
      | create | change | first | again | read | perform | record | beginEnd | finishEnd | compile | wait => rfl
  · rw [heq, step_save he hnone]
    rfl

/-! ## Ends that stay pending -/

section
variable {ends : List EndCall} {k j : Nat} {e e' : EndCall}

theorem Pending.append (h : Pending ends k e) (e' : EndCall) : Pending (ends ++ [e']) k e :=
  ⟨by rw [List.getElem?_append_left (List.getElem?_eq_some_iff.1 h.1).1, h.1], h.2⟩

theorem Pending.set_ne (h : Pending ends j e') (hjk : j ≠ k) (e : EndCall) : Pending (ends.set k e) j e' :=
  ⟨by rw [List.getElem?_set_ne (Ne.symm hjk), h.1], h.2⟩

theorem Pending.set_self (h : Pending ends k e) (he : e'.finished = false) : Pending (ends.set k e') k e' :=
  ⟨by rw [List.getElem?_set_self (List.getElem?_eq_some_iff.1 h.1).1], he⟩

end

/-! ## Starts -/

/-- The starts of a batch that were accepted were answered with the numbers of its attempts. -/
def Numbered (batches : Table BatchId BatchRun) (starts : List (Nat × BatchJob)) : Prop :=
  ∀ b, (starts.filter fun p => p.2.batch = b).map (·.1) =
    List.range' 1 (((batches.get? b).map (·.attempt)).getD 0)

theorem Numbered.of_eq {batches batches' : Table BatchId BatchRun} {starts : List (Nat × BatchJob)}
    (h : Numbered batches starts)
    (heq : ∀ b, (batches'.get? b).map (·.attempt) = (batches.get? b).map (·.attempt)) :
    Numbered batches' starts := fun b => (h b).trans (by rw [heq])

theorem Numbered.start {batches : Table BatchId BatchRun} {starts : List (Nat × BatchJob)}
    (h : Numbered batches starts) {job : BatchJob} {run : BatchRun}
    (hnext : run.attempt = ((batches.get? job.batch).map (·.attempt)).getD 0 + 1) :
    Numbered (batches.insert job.batch run) (starts ++ [(run.attempt, job)]) := by
  intro b
  rw [List.filter_append, List.map_append, h, Table.get?_insert]
  by_cases hb : job.batch = b
  · subst hb
    simp only [hnext, if_pos, Option.map_some, Option.getD_some, List.range'_concat]
    simp [Nat.add_comm]
  · simp [hb]

theorem Takes.numbered {s s' : Session} {m : Move} (h : Numbered s.manager.batches s.starts) (htakes : s.Takes m s') :
    Numbered s'.manager.batches s'.starts := by
  cases htakes with
  | first hnone => exact h.start (by simp [hnone])
  | again hrun _ => exact h.start (by simp [hrun])
  | @record k r c | @finishEnd k e result =>
    refine h.of_eq fun b => ?_
    rw [Table.get?_modify]
    split
    · exact Option.map_map ..
    · rfl
  | @beginEnd b run x hrun =>
    refine h.of_eq fun b' => ?_
    rw [Table.get?_insert]
    split
    · next hb => rw [← hb, hrun]; rfl
    · rfl
  | create | change | read | perform | save | compile | wait => exact h

/-! ## Flags and saved records -/

/-- An end of a batch waits for its second half, with its record saved. -/
def Closing (ends : List EndCall) (b : BatchId) : Prop :=
  ∃ k e, Pending ends k e ∧ e.batch = b ∧ e.saved = some (.ok ())

/-- How the batches of a session stand to its ends and to the records saved so far. -/
structure Advances (s : Session) (saved : List BatchRecord) : Prop where
  flagged : ∀ b run, s.manager.batches.get? b = some run → run.ending = true →
    ∃ k e, Pending s.ends k e ∧ e.batch = b
  /-- A saved record is of an earlier attempt, or of the one that has ended or is about to. -/
  current : ∀ r ∈ saved, ∃ run, s.manager.batches.get? r.batch = some run ∧ r.attempt ≤ run.attempt ∧
    (r.attempt = run.attempt → run.status = .ended ∨ Closing s.ends r.batch)
  ascending : saved.Pairwise fun r r' => r.batch = r'.batch → r.attempt < r'.attempt

/-- What is kept while batches keep their attempts and do not end, and pending ends stay pending. -/
theorem Advances.of_eq {s s' : Session} {saved : List BatchRecord} (h : s.Advances saved)
    (hruns : ∀ b, (s'.manager.batches.get? b).map (fun run => (run.attempt, run.status)) =
      (s.manager.batches.get? b).map fun run => (run.attempt, run.status))
    (hflags : ∀ b run', s'.manager.batches.get? b = some run' → run'.ending = true →
      (∃ k e, Pending s'.ends k e ∧ e.batch = b) ∨
        ∃ run, s.manager.batches.get? b = some run ∧ run.ending = true)
    (hends : ∀ k e, Pending s.ends k e → ∃ e', Pending s'.ends k e' ∧ e'.batch = e.batch ∧
      (e.saved = some (.ok ()) → e'.saved = some (.ok ()))) : s'.Advances saved where
  flagged b run' hrun' hending := by
    obtain hpending | ⟨run, hrun, hending⟩ := hflags b run' hrun' hending
    · exact hpending
    · obtain ⟨k, e, he, hb⟩ := h.flagged b run hrun hending
      obtain ⟨e', he', hb', -⟩ := hends k e he
      exact ⟨k, e', he', hb'.trans hb⟩
  current r hr := by
    obtain ⟨run, hrun, hle, hcurrent⟩ := h.current r hr
    obtain ⟨run', hrun', hsame⟩ := Option.map_eq_some_iff.1 ((hruns r.batch).trans (by rw [hrun]; rfl))
    obtain ⟨hattempt, hstatus⟩ := Prod.mk.inj hsame
    refine ⟨run', hrun', hattempt ▸ hle, fun hr => (hcurrent (hattempt ▸ hr)).imp (hstatus ▸ ·) ?_⟩
    rintro ⟨k, e, he, hb, hsaved⟩
    obtain ⟨e', he', hb', hsaved'⟩ := hends k e he
    exact ⟨k, e', he', hb'.trans hb, hsaved' hsaved⟩
  ascending := h.ascending

theorem pending_keep {ends : List EndCall} (k : Nat) (e : EndCall) (he : Pending ends k e) :
    ∃ e', Pending ends k e' ∧ e'.batch = e.batch ∧ (e.saved = some (.ok ()) → e'.saved = some (.ok ())) :=
  ⟨e, he, rfl, id⟩

section
variable {s : Session} {saved : List BatchRecord} (h : s.Advances saved)
include h

/-- A batch that starts has no saved record of the attempt that begins. -/
theorem Advances.start {job : BatchJob} {run : BatchRun} (hending : run.ending = true →
      ∃ old, s.manager.batches.get? job.batch = some old ∧ old.ending = true)
    (hnext : ∀ old, s.manager.batches.get? job.batch = some old → old.attempt < run.attempt)
    (starts : List (Nat × BatchJob)) :
    Advances { s with
      manager := { s.manager with batches := s.manager.batches.insert job.batch run }, starts } saved where
  flagged b run' hrun' hflag := by
    rw [Table.get?_insert] at hrun'
    split at hrun'
    · next hb =>
      cases hrun'
      obtain ⟨old, hold, hflag⟩ := hending hflag
      exact h.flagged b old (hb ▸ hold) hflag
    · exact h.flagged b run' hrun' hflag
  current r hr := by
    obtain ⟨old, hold, hle, hcurrent⟩ := h.current r hr
    rw [Table.get?_insert]
    split
    · next hb =>
      have hlt := hnext old (hb ▸ hold)
      exact ⟨run, rfl, by omega, fun heq => by omega⟩
    · exact ⟨old, hold, hle, hcurrent⟩
  ascending := h.ascending

/-- The record that an end saves is of a later attempt than those saved before. -/
theorem Advances.save (hends : s.Endings) {k : Nat} {e : EndCall} (he : s.ends[k]? = some e) (hnone : e.saved = none)
    (hbatch : e.record.batch = e.batch) :
    Advances { s with
      ends := s.ends.set k { e with saved := some (.ok ()) }
      store := s.store.save e.record } (saved ++ [e.record]) := by
  have hpending := hends.pending he hnone
  obtain ⟨run, hrun, hrunning, -, hattempt⟩ := hends.held k e hpending
  have hkept : ∀ j e', Pending s.ends j e' → ∃ e'', Pending (s.ends.set k { e with saved := some (.ok ()) }) j e'' ∧
      e''.batch = e'.batch ∧ (e'.saved = some (.ok ()) → e''.saved = some (.ok ())) := by
    intro j e' he'
    by_cases hjk : j = k
    · subst hjk
      obtain rfl : e' = e := Option.some.inj (he'.1.symm.trans he)
      exact ⟨_, hpending.set_self hpending.2, rfl, fun _ => rfl⟩
    · exact ⟨e', he'.set_ne hjk _, rfl, id⟩
  -- Another record of this attempt would be that of an end that is pending as well.
  have hlater : ∀ r ∈ saved, r.batch = e.record.batch → r.attempt < e.record.attempt := by
    intro r hr hb
    obtain ⟨run', hrun', hle, hcurrent⟩ := h.current r hr
    obtain rfl : run = run' := Option.some.inj (hrun.symm.trans (hbatch ▸ hb ▸ hrun'))
    refine hattempt ▸ Nat.lt_of_le_of_ne hle fun heq => ?_
    obtain hended | ⟨j, e', he', hb', hsaved'⟩ := hcurrent heq
    · cases hrunning.symm.trans hended
    · obtain rfl := hends.alone j k e' e he' hpending (hb'.trans (hb.trans hbatch))
      obtain rfl : e' = e := Option.some.inj (he'.1.symm.trans he)
      cases hnone.symm.trans hsaved'
  have hold : Advances { s with
      ends := s.ends.set k { e with saved := some (.ok ()) }
      store := s.store.save e.record } saved :=
    h.of_eq (fun _ => rfl) (fun _ run hrun hflag => .inr ⟨run, hrun, hflag⟩) hkept
  refine ⟨hold.flagged, fun r hr => ?_, List.pairwise_append.2 ⟨h.ascending, List.pairwise_singleton .., ?_⟩⟩
  · obtain hr | hr := List.mem_append.1 hr
    · exact hold.current r hr
    · obtain rfl := List.mem_singleton.1 hr
      refine ⟨run, hbatch ▸ hrun, hattempt.ge, fun _ => .inr ⟨k, _, hpending.set_self hpending.2, hbatch.symm, rfl⟩⟩
  · intro r hr r' hr' hb
    obtain rfl := List.mem_singleton.1 hr'
    exact hlater r hr hb

theorem Advances.finishEnd (hends : s.Endings) {k : Nat} {e : EndCall} {result : Except ServiceError Unit}
    (hpending : Pending s.ends k e) (hsaved : e.saved = some result) :
    Advances { s with
      manager := { s.manager with
        batches := s.manager.batches.modify e.batch fun run => { run with
          ending := false, status := if result.isOk then .ended else run.status } }
      ends := s.ends.set k { e with finished := true } } saved := by
  obtain ⟨run, hrun, hrunning, -, -⟩ := hends.held k e hpending
  have hother : ∀ j e', Pending s.ends j e' → e'.batch ≠ e.batch →
      Pending (s.ends.set k { e with finished := true }) j e' := by
    intro j e' he' hb
    refine he'.set_ne (fun hjk => hb ?_) _
    subst hjk
    rw [Option.some.inj (he'.1.symm.trans hpending.1)]
  constructor
  case flagged =>
    intro b run' hrun' hflag
    rw [Table.get?_modify] at hrun'
    split at hrun'
    · obtain ⟨old, -, rfl⟩ := Option.map_eq_some_iff.1 hrun'
      cases hflag
    · next hb =>
      obtain ⟨j, e', he', rfl⟩ := h.flagged b run' hrun' hflag
      exact ⟨j, e', hother j e' he' (Ne.symm hb), rfl⟩
  case current =>
    intro r hr
    obtain ⟨run', hrun', hle, hcurrent⟩ := h.current r hr
    rw [Table.get?_modify, hrun']
    split
    · next hb =>
      refine ⟨_, rfl, hle, fun heq => .inl ?_⟩
      obtain rfl : run = run' := Option.some.inj (hrun.symm.trans (hb ▸ hrun'))
      obtain hended | ⟨j, e', he', hb', hsaved'⟩ := hcurrent heq
      · cases hrunning.symm.trans hended
      · obtain rfl := hends.alone j k e' e he' hpending (hb'.trans hb.symm)
        obtain rfl : e' = e := Option.some.inj (he'.1.symm.trans hpending.1)
        obtain rfl := Option.some.inj (hsaved.symm.trans hsaved')
        rfl
    · next hb =>
      refine ⟨run', rfl, hle, fun heq => (hcurrent heq).imp_right ?_⟩
      rintro ⟨j, e', he', hb', hsaved'⟩
      exact ⟨j, e', hother j e' he' fun hsame => hb (hsame.symm.trans hb'), hb', hsaved'⟩
  case ascending => exact h.ascending

end

theorem Advances.step {s : Session} {saved : List BatchRecord} (hwell : s.WellFormed) (hends : s.Endings)
    (h : s.Advances saved) (m : Move) : (s.step m).Advances (saved ++ (s.savedBy m).toList) := by
  obtain hnone | ⟨k, e, rfl, he, hnone, heq⟩ := s.savedBy_cases m
  · rw [hnone, Option.toList_none, List.append_nil]
    obtain heq | htakes := s.step_cases m
    · rwa [heq]
    generalize s.step m = s' at htakes
    cases htakes with
    | first hunknown =>
      refine h.start ?_ ?_ _
      · intro hflag
        cases hflag
      · intro old hold
        cases hunknown.symm.trans hold
    | @again job run hrun _ =>
      refine h.start ?_ ?_ _
      · exact fun hflag => ⟨run, hrun, hflag⟩
      · intro old hold
        obtain rfl := Option.some.inj (hrun.symm.trans hold)
        exact Nat.lt_succ_self _
    | @record k r c =>
      refine h.of_eq (fun b => ?_) (fun b run' hrun' hflag => .inr ?_) pending_keep
      · rw [Table.get?_modify]
        split
        · exact Option.map_map ..
        · rfl
      · rw [Table.get?_modify] at hrun'
        split at hrun'
        · obtain ⟨run, hrun, rfl⟩ := Option.map_eq_some_iff.1 hrun'
          exact ⟨run, hrun, hflag⟩
        · exact ⟨run', hrun', hflag⟩
    | @beginEnd b run x hrun =>
      refine h.of_eq (fun b' => ?_) (fun b' run' hrun' hflag => ?_) fun k e he => ⟨e, he.append _, rfl, id⟩
      · rw [Table.get?_insert]
        split
        · next hb => rw [← hb, hrun]; rfl
        · rfl
      · rw [Table.get?_insert] at hrun'
        split at hrun'
        · next hb => exact .inl ⟨s.ends.length, _, ⟨List.getElem?_concat_length, rfl⟩, hb⟩
        · exact .inr ⟨run', hrun', hflag⟩
    | @save k result e he hsaved =>
      have hpending := hends.pending he hsaved
      refine h.of_eq (fun _ => rfl) (fun _ run hrun hflag => .inr ⟨run, hrun, hflag⟩) fun j e' he' => ?_
      by_cases hjk : j = k
      · subst hjk
        obtain rfl : e' = e := Option.some.inj (he'.1.symm.trans he)
        exact ⟨_, hpending.set_self hpending.2, rfl, fun hok => by cases hsaved.symm.trans hok⟩
      · exact ⟨e', he'.set_ne hjk _, rfl, id⟩
    | finishEnd he hsaved hunfinished => exact h.finishEnd hends ⟨he, hunfinished⟩ hsaved
    | create | change | read | perform | compile | wait =>
      exact h.of_eq (fun _ => rfl) (fun _ run hrun hflag => .inr ⟨run, hrun, hflag⟩) pending_keep
  · rw [heq, step_save he hnone]
    exact h.save hends he hnone (hwell.ends _ (List.mem_of_getElem? he)).record_batch

/-! ## A session -/

/-- What is known of a session that has saved some records. -/
structure Accounted (s : Session) (saved : List BatchRecord) : Prop where
  wellFormed : s.WellFormed
  endings : s.Endings
  numbered : Numbered s.manager.batches s.starts
  advances : s.Advances saved
  store : s.store = saved.foldl BatchStore.save {}

theorem accounted_start (e : Engine) : Accounted { engine := e } [] where
  wellFormed := wellFormed_start e
  endings := endings_start e
  numbered _ := rfl
  advances :=
    { flagged := fun _ _ hrun => nomatch hrun
      current := fun _ hr => nomatch hr
      ascending := .nil }
  store := rfl

theorem Accounted.after {s : Session} {saved : List BatchRecord} (h : s.Accounted saved) (moves : List Move) :
    (s.after moves).Accounted (saved ++ s.saves moves) := by
  induction moves generalizing s saved with
  | nil =>
    rw [saves, List.append_nil]
    exact h
  | cons m moves ih =>
    rw [saves, ← List.append_assoc]
    refine ih ⟨(h.wellFormed.step m).1, h.endings.after h.wellFormed [m], ?_,
      h.advances.step h.wellFormed h.endings m, ?_⟩
    · obtain heq | htakes := s.step_cases m
      · rw [heq]
        exact h.numbered
      · exact htakes.numbered h.numbered
    · rw [store_step, h.store, List.foldl_append]

/-! ## A batch -/

/-- What an attempt of a batch goes through, with the records saved so far. -/
structure Settles (s : Session) (saved : List BatchRecord) (b : BatchId) : Prop where
  /-- One end is in progress at most. -/
  alone : ∀ k k' e e', Pending s.ends k e → Pending s.ends k' e' → e.batch = b → e'.batch = b → k = k'
  ending_iff : ∀ run, s.manager.batches.get? b = some run →
    (run.ending = true ↔ ∃ k e, Pending s.ends k e ∧ e.batch = b)
  /-- The batch has ended just if its attempt is saved and no end waits for its second half. -/
  ended_iff : ∀ run, s.manager.batches.get? b = some run →
    (run.status = .ended ↔ (∃ r ∈ saved, r.batch = b ∧ r.attempt = run.attempt) ∧
      ∀ k e, Pending s.ends k e → e.batch ≠ b)
  attempt_eq : ∀ run, s.manager.batches.get? b = some run →
    run.attempt = (s.starts.filter fun p => p.2.batch = b).length
  answers : (s.starts.filter fun p => p.2.batch = b).map (·.1) =
    List.range' 1 (s.starts.filter fun p => p.2.batch = b).length
  start_iff : ∀ job now, job.batch = b → ((∃ answer, s.manager.start job now = .ok answer) ↔
    ∀ run, s.manager.batches.get? b = some run → run.status = .ended)
  beginEnd_iff : ∀ now, (∃ answer, s.manager.beginEnd b now = .ok answer) ↔
    ∃ run x, s.manager.batches.get? b = some run ∧ run.status = .running ∧
      (∀ k e, Pending s.ends k e → e.batch ≠ b) ∧ s.manager.snapshots.get? run.job.snapshot = some x ∧
      x.isSealed = true
  /-- Saved records are of ever later attempts. -/
  ascending : ((saved.filter fun r => r.batch = b).map (·.attempt)).Pairwise (· < ·)
  store : s.store = saved.foldl BatchStore.save {}
  /-- An end that has not reached the store is in progress. -/
  unanswered : ∀ k e, s.ends[k]? = some e → e.batch = b → e.saved = none → Pending s.ends k e
  /-- What an end in progress saves is of the current attempt, whose snapshot is sealed. -/
  sealed : ∀ k e, Pending s.ends k e → e.batch = b → ∃ run x, s.manager.batches.get? b = some run ∧
    e.record.attempt = run.attempt ∧ e.record.snapshot = run.job.snapshot ∧
    s.manager.snapshots.get? run.job.snapshot = some x ∧ x.isSealed = true
  start_refused : ∀ job err, s.manager.start job s.engine.now = .error err → s.step (.start job) = s
  run_refused : ∀ d err, (s.manager.run s.engine b d).1 = .error err → (s.manager.run s.engine b d).2.1 = s.manager
  beginEnd_refused : ∀ err, s.manager.beginEnd b s.engine.now = .error err → s.step (.beginEnd b) = s
  save_manager : ∀ k result, (s.step (.save k result)).manager = s.manager
  /-- After a save that failed, the batch is as before, and can be ended again. -/
  failed_save : ∀ k e err, Pending s.ends k e → e.batch = b → e.saved = some (.error err) →
    ∃ run answer, s.manager.batches.get? b = some run ∧
      (s.step (.finishEnd k)).manager.batches.get? b = some { run with ending := false } ∧
      (s.step (.finishEnd k)).manager.beginEnd b s.engine.now = .ok answer

theorem start_eq_ok_iff {m : BatchManager} {job : BatchJob} {now : Instant} :
    (∃ answer, m.start job now = .ok answer) ↔ ∀ run, m.batches.get? job.batch = some run → run.status = .ended := by
  unfold BatchManager.start
  cases hrun : m.batches.get? job.batch with
  | none => exact ⟨fun _ _ hrun => (nomatch hrun), fun _ => ⟨_, rfl⟩⟩
  | some run =>
    cases hstatus : run.status with
    | running =>
      refine ⟨fun ⟨_, h⟩ => ?_, fun h => ?_⟩
      · simp [hstatus] at h
      · cases hstatus.symm.trans (h run rfl)
    | ended =>
      refine ⟨fun _ run' h => ?_, fun _ => ?_⟩
      · cases h
        exact hstatus
      · simp [hstatus]

theorem beginEnd_ok {m : BatchManager} {b : BatchId} {run : BatchRun} {x : Snapshot} (now : Instant)
    (hrun : m.batches.get? b = some run) (hrunning : run.status = .running) (hfree : run.ending = false)
    (hx : m.snapshots.get? run.job.snapshot = some x) (hsealed : x.isSealed = true) :
    m.beginEnd b now =
      .ok (recordOf run x now, { m with batches := m.batches.insert b { run with ending := true } }) := by
  refine bind_eq_ok.2 ⟨run, batch_eq_ok.2 hrun, ?_⟩
  rw [if_neg (by simp [hrunning, hfree])]
  refine bind_eq_ok.2 ⟨x, snapshot_eq_ok.2 hx, ?_⟩
  rw [hsealed]
  rfl

section
variable {s : Session} {saved : List BatchRecord} (h : s.Accounted saved)
include h

theorem Accounted.ending_iff {b : BatchId} {run : BatchRun} (hrun : s.manager.batches.get? b = some run) :
    run.ending = true ↔ ∃ k e, Pending s.ends k e ∧ e.batch = b := by
  refine ⟨h.advances.flagged b run hrun, ?_⟩
  rintro ⟨k, e, he, rfl⟩
  obtain ⟨run', hrun', -, hending, -⟩ := h.endings.held k e he
  obtain rfl := Option.some.inj (hrun.symm.trans hrun')
  exact hending

theorem Accounted.ended_iff {b : BatchId} {run : BatchRun} (hrun : s.manager.batches.get? b = some run) :
    run.status = .ended ↔ (∃ r ∈ saved, r.batch = b ∧ r.attempt = run.attempt) ∧
      ∀ k e, Pending s.ends k e → e.batch ≠ b := by
  constructor
  · intro hended
    refine ⟨?_, ?_⟩
    · obtain ⟨r, hr, hattempt⟩ := h.endings.ended b run hrun hended
      rw [h.store] at hr
      obtain ⟨hmem, hb⟩ | hnone := mem_of_load?_foldl_save hr
      · exact ⟨r, hmem, hb, hattempt⟩
      · cases hnone
    · rintro k e he rfl
      obtain ⟨run', hrun', hrunning, -⟩ := h.endings.held k e he
      obtain rfl := Option.some.inj (hrun.symm.trans hrun')
      cases hrunning.symm.trans hended
  · rintro ⟨⟨r, hr, rfl, hattempt⟩, hnone⟩
    obtain ⟨run', hrun', -, hcurrent⟩ := h.advances.current r hr
    obtain rfl := Option.some.inj (hrun.symm.trans hrun')
    obtain hended | ⟨k, e, he, hb, -⟩ := hcurrent hattempt
    · exact hended
    · exact absurd hb (hnone k e he)

/-- What an end in progress saves is of the current attempt, whose snapshot is sealed. -/
theorem Accounted.sealed {k : Nat} {e : EndCall} (he : Pending s.ends k e) :
    ∃ run x, s.manager.batches.get? e.batch = some run ∧ run.status = .running ∧ e.record.attempt = run.attempt ∧
      e.record.snapshot = run.job.snapshot ∧ s.manager.snapshots.get? run.job.snapshot = some x ∧
      x.isSealed = true := by
  obtain ⟨run, hrun, hrunning, -, hattempt⟩ := h.endings.held k e he
  obtain ⟨old, x, now, hrecord, -, hbatch, hstarted, hx, hsealed⟩ :=
    (h.wellFormed.ends e (List.mem_of_getElem? he.1)).taken
  obtain ⟨hb, hcurrent⟩ := h.wellFormed.attempts.current e.batch run hrun
  have hjob : old.job = run.job := by
    refine h.wellFormed.attempts.unique old.attempt _ _ hstarted ?_ (hbatch.trans hb.symm)
    have hsame : run.attempt = old.attempt := hattempt.trans (congrArg BatchRecord.attempt hrecord)
    exact hsame ▸ hcurrent
  refine ⟨run, x, hrun, hrunning, hattempt.symm, ?_, hjob ▸ hx, hsealed⟩
  rw [hrecord, ← hjob]
  rfl

/-- After a save that failed, a batch is as before, and can be ended again. -/
theorem Accounted.failed_save {k : Nat} {e : EndCall} {err : ServiceError} (he : Pending s.ends k e)
    (hsaved : e.saved = some (.error err)) :
    ∃ run answer, s.manager.batches.get? e.batch = some run ∧
      (s.step (.finishEnd k)).manager.batches.get? e.batch = some { run with ending := false } ∧
      (s.step (.finishEnd k)).manager.beginEnd e.batch s.engine.now = .ok answer := by
  obtain ⟨run, x, hrun, hrunning, -, -, hx, hsealed⟩ := h.sealed he
  have hstep : (s.step (.finishEnd k)).manager = { s.manager with
      batches := s.manager.batches.modify e.batch fun run => { run with ending := false } } := by
    simp [step, finishEnd, he.1, he.2, hsaved, BatchManager.finishEnd]
  have hrun' : (s.step (.finishEnd k)).manager.batches.get? e.batch = some { run with ending := false } := by
    rw [hstep, Table.get?_modify, if_pos rfl, hrun]
    rfl
  refine ⟨run, _, hrun, hrun', beginEnd_ok _ hrun' hrunning rfl ?_ hsealed⟩
  rw [hstep]
  exact hx

theorem Accounted.settles (b : BatchId) : s.Settles saved b where
  alone k k' e e' he he' hb hb' := h.endings.alone k k' e e' he he' (hb.trans hb'.symm)
  ending_iff _ := h.ending_iff
  ended_iff _ := h.ended_iff
  attempt_eq run hrun := by
    have hlength := congrArg List.length (h.numbered b)
    rw [List.length_map, List.length_range', hrun] at hlength
    exact hlength.symm
  answers := by
    have hlength := congrArg List.length (h.numbered b)
    rw [List.length_map, List.length_range'] at hlength
    rw [hlength]
    exact h.numbered b
  start_iff job now hb := hb ▸ start_eq_ok_iff
  beginEnd_iff now := by
    constructor
    · rintro ⟨⟨record, m⟩, hend⟩
      obtain ⟨run, x, hrun, hrunning, hfree, hx, hsealed, -, -⟩ := beginEnd_eq_ok hend
      refine ⟨run, x, hrun, hrunning, fun k e he hb => ?_, hx, hsealed⟩
      cases hfree.symm.trans ((h.ending_iff hrun).2 ⟨k, e, he, hb⟩)
    · rintro ⟨run, x, hrun, hrunning, hnone, hx, hsealed⟩
      refine ⟨_, beginEnd_ok now hrun hrunning (Bool.eq_false_iff.2 fun hending => ?_) hx hsealed⟩
      obtain ⟨k, e, he, hb⟩ := (h.ending_iff hrun).1 hending
      exact hnone k e he hb
  ascending := by
    rw [List.pairwise_map, List.pairwise_filter]
    refine h.advances.ascending.imp fun hlt hb hb' => ?_
    exact hlt ((of_decide_eq_true hb).trans (of_decide_eq_true hb').symm)
  store := h.store
  unanswered _ _ he _ hnone := h.endings.pending he hnone
  sealed k e he hb := by
    subst hb
    obtain ⟨run, x, hrun, -, hattempt, hsnapshot, hx, hsealed⟩ := h.sealed he
    exact ⟨run, x, hrun, hattempt, hsnapshot, hx, hsealed⟩
  start_refused job err herr := by simp [step, start, herr]
  run_refused d err herr := by
    simp only [BatchManager.run] at herr ⊢
    cases hread : s.manager.readRun b with
    | error _ => rfl
    | ok answer =>
      obtain ⟨herror, -⟩ := performJob_spec s.engine answer.1 answer.2 d
      simp [hread, herror] at herr
  beginEnd_refused err herr := by
    cases hrun : s.manager.batch b <;> simp [step, beginEnd, hrun, herr]
  save_manager k result := by
    simp only [step, save]
    split
    · rfl
    · split <;> rfl
  failed_save k e err he hb hsaved := hb ▸ h.failed_save he hsaved

end

/-- However starts, runs and the halves of ends follow each other, each attempt of a batch is begun after the last one
has ended, is ended by one end at a time, and has ended once its record is saved. -/
theorem after_settles (e : Engine) (moves : List Move) (b : BatchId) :
    (Session.after { engine := e } moves).Settles (Session.saves { engine := e } moves) b :=
  ((accounted_start e).after moves).settles b

end Session
end BatchManager
end Valuation
