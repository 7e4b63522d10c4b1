import Valuation.Proofs.Latest
import Valuation.Proofs.Processor.Runs

/-!
# Processes that share a table

A `Group` is any number of processes with one table of cycles between them. They run cycles and release them, in any
order, each with an engine of its own but for the table. As long as no two cycles have one identifier, every process
retains the latest of the cycles that it has run since it released them last, and the table is made up of what the
processes retain (`after_retains`): nothing is left of the cycles that had to make room or were released.
-/
namespace Valuation

namespace Process

/-! ## What running a cycle does to the table -/

/-- A cycle was run for a process: the process retains it as the latest one, and those that make room for it leave the
table. -/
structure Retains (p : Process) (e : Engine) (r : CycleRun) (c : Cycle) : Prop where
  result : r.result = .ok c
  owner : c.process = p.id
  id_eq : r.process.id = p.id
  cyclesRun : r.process.cyclesRun = p.cyclesRun + 1
  retained : r.process.retained = (p.retained ++ [c.id]).rtake e.cycleRetention
  filed : ∀ id, r.engine.cycles.get? id =
    if id ∈ (p.retained ++ [c.id]).rdrop e.cycleRetention then none
    else if c.id = id then some c else e.cycles.get? id

theorem runCycle_retains (p : Process) (e : Engine) (stops : Stops) (trigger : CycleTrigger) :
    ∃ c, Retains p e (p.runCycle e stops trigger) c := by
  obtain ⟨c, hran⟩ := runCycle_ran p e stops trigger
  have hresult := hran.result
  have hcyclesRun := hran.cyclesRun
  rw [runCycle_eq_finish] at hresult hcyclesRun ⊢
  dsimp only at hresult hcyclesRun ⊢
  generalize hkept : p.keep ((p.newCycle e).2.file (p.newCycle e).1) (p.newCycle e).1.id = kept at hresult hcyclesRun ⊢
  obtain ⟨hid, hretained⟩ := kept.1.finish_keeps kept.2 stops trigger (p.newCycle e).1
  obtain ⟨c', compiler, feeds, hsame, hgiven, hengine⟩ := kept.1.finish_engine kept.2 stops trigger (p.newCycle e).1
  obtain rfl := hgiven c hresult
  have hnew : c.id = (p.newCycle e).1.id := hsame.id
  refine ⟨c, hresult, hsame.process, hid.trans (by rw [← hkept]; rfl), hcyclesRun, ?_, fun id => ?_⟩
  · rw [hretained, ← hkept, hnew]
    rfl
  · have hcycles : kept.2.cycles = ((p.retained ++ [c.id]).rdrop e.cycleRetention).foldl Table.erase
        (e.cycles.insert c.id (p.newCycle e).1) := by
      rw [← hkept, hnew]
      rfl
    rw [hengine, Engine.updateCycle, Table.get?_modify]
    dsimp only
    rw [hcycles, Table.get?_foldl_erase, Table.get?_insert]
    by_cases hout : id ∈ (p.retained ++ [c.id]).rdrop e.cycleRetention
    · simp [hout]
    by_cases hnow : c.id = id
    · subst hnow
      simp [hout]
    · simp [hnow]

theorem release_spec (p : Process) (e : Engine) : (p.release e).1 = { p with retained := [] } ∧
    ∀ id, (p.release e).2.cycles.get? id = if id ∈ p.retained then none else e.cycles.get? id :=
  ⟨rfl, fun id => Table.get?_foldl_erase p.retained e.cycles id⟩

/-! ## Groups -/

/-- One of the processes that share a table. -/
structure Member where
  process : Process
  /-- How many cycles it retains. -/
  retention : Nat
  /-- The cycles that it has run since it released them last, in turn. -/
  ran : List Cycle := []
  /-- How many cycles it has run at all. -/
  total : Nat := 0

/-- The latest of the cycles that a process has run since it released them. -/
def Member.kept (m : Member) : List Cycle := m.ran.rtake m.retention

structure Group where
  table : Table CycleId Cycle := ∅
  members : List Member := []
  /-- The identifiers of all cycles that were run, in turn. -/
  issued : List CycleId := []

/-- What can come next. Processes are taken by their place in the group. Each call comes with an engine, of which only
the table is shared. -/
inductive Move where
  | create (id : ProcessId) (definition : ViewDefinition) (source : SnapshotSource) (options : ProcessOptions)
    (noticeCapacity retention : Nat)
  | run (k : Nat) (e : Engine) (stops : Stops) (trigger : CycleTrigger)
  | release (k : Nat) (e : Engine)

namespace Group

section
variable (g : Group)

/-- An engine as a process of the group sees it. -/
def engineOf (m : Member) (e : Engine) : Engine := { e with cycles := g.table, cycleRetention := m.retention }

def run (k : Nat) (e : Engine) (stops : Stops) (trigger : CycleTrigger) : Group :=
  match g.members[k]? with
  | none => g
  | some m =>
    let r := m.process.runCycle (g.engineOf m e) stops trigger
    { table := r.engine.cycles
      members := g.members.set k { m with
        process := r.process, ran := m.ran ++ r.result.toOption.toList, total := m.total + 1 }
      issued := g.issued ++ r.result.toOption.toList.map (·.id) }

def release (k : Nat) (e : Engine) : Group :=
  match g.members[k]? with
  | none => g
  | some m =>
    let (process, engine) := m.process.release (g.engineOf m e)
    { g with table := engine.cycles, members := g.members.set k { m with process, ran := [] } }

/-- The group after a move. -/
def step : Move → Group
  | .create id definition source options noticeCapacity retention =>
    { g with members := g.members ++ [{ process := .new id definition source options noticeCapacity, retention }] }
  | .run k e stops trigger => g.run k e stops trigger
  | .release k e => g.release k e

/-- The group after some moves. -/
def after (moves : List Move) : Group := moves.foldl step g

/-- All cycles that were run since they were released last. -/
def ran : List Cycle := g.members.flatMap (·.ran)

end

/-! ## What is kept -/

/-- What can be found is just what is kept, each cycle under its own identifier. -/
def Filed (found : CycleId → Option Cycle) (kept : Cycle → Prop) : Prop :=
  ∀ id c, found id = some c ↔ c.id = id ∧ kept c

section
variable {found found' : CycleId → Option Cycle} {other : Cycle → Prop} {kept : List Cycle}

theorem Filed.append (h : Filed found fun x => other x ∨ x ∈ kept) {c : Cycle}
    (hnew : ∀ x, other x ∨ x ∈ kept → x.id ≠ c.id)
    (hfound : ∀ id, found' id = if c.id = id then some c else found id) :
    Filed found' fun x => other x ∨ x ∈ kept ++ [c] := by
  intro id x
  rw [hfound]
  dsimp only
  rw [List.mem_append, List.mem_singleton, ← or_assoc]
  split
  · next hid =>
    subst hid
    rw [Option.some.injEq]
    constructor
    · rintro rfl
      exact ⟨rfl, .inr rfl⟩
    · rintro ⟨hid, hx | rfl⟩
      · exact absurd hid (hnew x hx)
      · rfl
  · next hid =>
    rw [h]
    exact and_congr_right fun hx => (or_iff_left fun heq : x = c => hid (heq ▸ hx)).symm

/-- The oldest of the cycles make room. -/
theorem Filed.rtake (h : Filed found fun x => other x ∨ x ∈ kept) {n : Nat} (hnodup : (kept.map (·.id)).Nodup)
    (hother : ∀ x, other x → x.id ∉ kept.map (·.id))
    (hfound : ∀ id, found' id = if id ∈ (kept.map (·.id)).rdrop n then none else found id) :
    Filed found' fun x => other x ∨ x ∈ kept.rtake n := by
  have hsplit : kept.rdrop n ++ kept.rtake n = kept := by
    rw [List.rdrop, List.rtake, List.take_append_drop]
  have hdropped : (kept.map (·.id)).rdrop n = (kept.rdrop n).map (·.id) := by
    rw [List.rdrop, List.rdrop, List.map_take, List.length_map]
  intro id x
  rw [hfound, hdropped]
  split
  · next hgone =>
    refine iff_of_false nofun ?_
    obtain ⟨y, hy, rfl⟩ := List.mem_map.1 hgone
    rintro ⟨hid, hx | hx⟩
    · exact hother x hx (hid ▸ List.mem_map_of_mem (hsplit ▸ List.mem_append_left _ hy))
    · rw [← hsplit, List.map_append] at hnodup
      exact List.disjoint_of_nodup_append hnodup (List.mem_map_of_mem hy) (List.mem_map.2 ⟨x, hx, hid⟩)
  · next hstays =>
    rw [h]
    refine and_congr_right fun hid => or_congr_right ?_
    conv_lhs => rw [← hsplit, List.mem_append]
    exact or_iff_right fun hx => hstays (List.mem_map.2 ⟨x, hx, hid⟩)

end

/-- One element of a list changes, and the others stay. -/
theorem exists_others {α : Type} {xs : List α} {k : Nat} {x : α} (h : xs[k]? = some x) :
    ∃ others, xs.Perm (x :: others) ∧ ∀ y, (xs.set k y).Perm (y :: others) := by
  obtain ⟨hlt, rfl⟩ := List.getElem?_eq_some_iff.1 h
  refine ⟨xs.take k ++ xs.drop (k + 1), ?_, fun y => ?_⟩
  · have hsplit : xs = xs.take k ++ xs[k] :: xs.drop (k + 1) := by
      rw [List.getElem_cons_drop, List.take_append_drop]
    exact (List.Perm.of_eq hsplit).trans List.perm_middle
  · rw [List.set_eq_take_append_cons_drop, if_pos hlt]
    exact List.perm_middle

/-- What each process of a group retains, and what all of them have in the table. -/
structure Settled (g : Group) : Prop where
  retained : ∀ m ∈ g.members, m.process.retained = m.kept.map (·.id)
  counted : ∀ m ∈ g.members, m.process.cyclesRun = m.total
  owned : ∀ m ∈ g.members, ∀ c ∈ m.ran, c.process = m.process.id
  filed : Filed g.table.get? fun c => ∃ m ∈ g.members, c ∈ m.kept

/-- In addition, the cycles that were run have identifiers of their own. -/
structure Sound (g : Group) : Prop extends g.Settled where
  distinct : (g.ran.map (·.id)).Nodup
  issued : g.ran.map (·.id) ⊆ g.issued

section
variable {g : Group} {m : Member} {others : List Member}

theorem perm_ran (h : g.members.Perm (m :: others)) : g.ran.Perm (m.ran ++ others.flatMap (·.ran)) :=
  h.flatMap_right _

/-- The cycles of one process differ from each other and from those of all others. -/
theorem apart_of_distinct (h : g.members.Perm (m :: others)) (hdistinct : (g.ran.map (·.id)).Nodup) :
    (m.ran.map (·.id)).Nodup ∧ ∀ x, (∃ m' ∈ others, x ∈ m'.kept) → x.id ∉ m.ran.map (·.id) := by
  have hnodup := ((perm_ran h).map (·.id)).nodup_iff.1 hdistinct
  rw [List.map_append, List.nodup_append'] at hnodup
  refine ⟨hnodup.1, ?_⟩
  rintro x ⟨m', hm', hx⟩ hmem
  exact hnodup.2.2 hmem (List.mem_map_of_mem (List.mem_flatMap.2 ⟨m', hm', List.mem_of_mem_drop hx⟩))

/-- The table, with one process set apart. -/
theorem filed_iff_others {found : CycleId → Option Cycle} {members : List Member} (h : members.Perm (m :: others)) :
    (Filed found fun c => ∃ m ∈ members, c ∈ m.kept) ↔
      Filed found fun c => (∃ m ∈ others, c ∈ m.kept) ∨ c ∈ m.kept := by
  simp only [Filed, h.mem_iff, List.mem_cons, exists_eq_or_imp, or_comm]

theorem forall_mem_set {P : Member → Prop} (h : ∀ m ∈ g.members, P m) {k : Nat} (hm : P m) :
    ∀ m' ∈ g.members.set k m, P m' := by
  intro m' hm'
  obtain hold | rfl := List.mem_or_eq_of_mem_set hm'
  · exact h m' hold
  · exact hm

/-! ### Running a cycle -/

/-- A process of a group has run a cycle. -/
structure RunBy (g : Group) (k : Nat) (m m' : Member) (c : Cycle) (g' : Group) : Prop where
  was : g.members[k]? = some m
  members : g'.members = g.members.set k m'
  issued : g'.issued = g.issued ++ [c.id]
  owner : c.process = m.process.id
  id_eq : m'.process.id = m.process.id
  ran : m'.ran = m.ran ++ [c]
  kept : m'.kept = (m.kept ++ [c]).rtake m.retention
  counted : m'.process.cyclesRun = m.process.cyclesRun + 1 ∧ m'.total = m.total + 1
  retained : m'.process.retained = (m.process.retained ++ [c.id]).rtake m.retention
  filed : ∀ id, g'.table.get? id =
    if id ∈ (m.process.retained ++ [c.id]).rdrop m.retention then none
    else if c.id = id then some c else g.table.get? id

theorem run_cases (g : Group) (k : Nat) (e : Engine) (stops : Stops) (trigger : CycleTrigger) :
    g.run k e stops trigger = g ∨ ∃ m m' c, RunBy g k m m' c (g.run k e stops trigger) := by
  unfold Group.run
  split
  · exact .inl rfl
  next m hm =>
  obtain ⟨c, hrun⟩ := runCycle_retains m.process (g.engineOf m e) stops trigger
  refine .inr ⟨m, _, c, hm, rfl, ?_, hrun.owner, hrun.id_eq, ?_, ?_, ⟨hrun.cyclesRun, rfl⟩, hrun.retained, hrun.filed⟩
  · dsimp only
    rw [hrun.result]
    rfl
  · dsimp only
    rw [hrun.result]
    rfl
  · rw [Member.kept, Member.kept, rtake_rtake_append, hrun.result]
    rfl

section
variable {k : Nat} {m' : Member} {c : Cycle} {g' : Group}

theorem RunBy.perm_ran (h : RunBy g k m m' c g') : g'.ran.Perm (c :: g.ran) := by
  obtain ⟨others, hmembers, hset⟩ := exists_others h.was
  have hmembers' : g'.members.Perm (m' :: others) := h.members ▸ hset m'
  refine (Group.perm_ran hmembers').trans ?_
  rw [h.ran, List.append_assoc]
  exact List.perm_middle.trans ((Group.perm_ran hmembers).symm.cons c)

theorem RunBy.distinct (h : RunBy g k m m' c g') (hsound : g.Sound) (hnodup : g'.issued.Nodup) :
    (g'.ran.map (·.id)).Nodup := by
  refine (h.perm_ran.map (·.id)).nodup_iff.2 (List.nodup_cons.2 ⟨fun hused => ?_, hsound.distinct⟩)
  rw [h.issued] at hnodup
  exact (List.nodup_append'.1 hnodup).2.2 (hsound.issued hused) (List.mem_singleton_self _)

/-- The table is still made up of what the processes retain. -/
theorem RunBy.filed_members (h : RunBy g k m m' c g') (hsound : g.Sound) (hnodup : g'.issued.Nodup) :
    Filed g'.table.get? fun c => ∃ m ∈ g'.members, c ∈ m.kept := by
  obtain ⟨others, hmembers, hset⟩ := exists_others h.was
  have hmembers' : g'.members.Perm (m' :: others) := h.members ▸ hset m'
  obtain ⟨hown, hapart⟩ := apart_of_distinct hmembers' (h.distinct hsound hnodup)
  -- What the table held of this process, and the new cycle, are among what it has run by now, so they all differ.
  have hkept : (m.kept ++ [c]).Sublist m'.ran := by
    rw [h.ran]
    exact (List.drop_sublist ..).append_right [c]
  have hids := hown.sublist (hkept.map (·.id))
  have hothers : ∀ x, (∃ m ∈ others, x ∈ m.kept) → x.id ∉ (m.kept ++ [c]).map (·.id) :=
    fun x hx hmem => hapart x hx ((hkept.map _).subset hmem)
  have hnew : ∀ x, (∃ m ∈ others, x ∈ m.kept) ∨ x ∈ m.kept → x.id ≠ c.id := by
    rintro x (hx | hx) hid
    · exact hothers x hx (hid ▸ List.mem_map_of_mem (List.mem_append_right _ (List.mem_singleton_self c)))
    · rw [List.map_append, List.map_singleton, List.nodup_append'] at hids
      exact hids.2.2 (List.mem_map_of_mem hx) (hid ▸ List.mem_singleton_self _)
  rw [filed_iff_others hmembers', h.kept]
  refine (((filed_iff_others hmembers).1 hsound.filed).append hnew fun _ => rfl).rtake hids hothers fun id => ?_
  rw [h.filed, hsound.retained m (List.mem_of_getElem? h.was), List.map_append, List.map_singleton]

theorem RunBy.sound (h : RunBy g k m m' c g') (hsound : g.Sound) (hnodup : g'.issued.Nodup) : g'.Sound := by
  have hmem : m ∈ g.members := List.mem_of_getElem? h.was
  refine ⟨⟨?retained, ?counted, ?owned, h.filed_members hsound hnodup⟩, h.distinct hsound hnodup, ?issued⟩
  case retained =>
    rw [h.members]
    refine forall_mem_set hsound.retained ?_
    rw [h.retained, hsound.retained m hmem, h.kept, map_rtake, List.map_append, List.map_singleton]
  case counted =>
    rw [h.members]
    refine forall_mem_set hsound.counted ?_
    rw [h.counted.1, h.counted.2, hsound.counted m hmem]
  case owned =>
    rw [h.members]
    refine forall_mem_set hsound.owned fun x hx => ?_
    rw [h.ran, List.mem_append, List.mem_singleton] at hx
    rw [h.id_eq]
    obtain hx | rfl := hx
    · exact hsound.owned m hmem x hx
    · exact h.owner
  case issued =>
    intro id hid
    rw [(h.perm_ran.map (·.id)).mem_iff, List.map_cons, List.mem_cons] at hid
    rw [h.issued]
    obtain rfl | hid := hid
    · exact List.mem_append_right _ (List.mem_singleton_self _)
    · exact List.mem_append_left _ (hsound.issued hid)

end

/-! ### Releasing cycles -/

/-- A process of a group has released its cycles. -/
structure ReleasedBy (g : Group) (k : Nat) (m m' : Member) (g' : Group) : Prop where
  was : g.members[k]? = some m
  members : g'.members = g.members.set k m'
  issued : g'.issued = g.issued
  process : m'.process = { m.process with retained := [] }
  ran : m'.ran = []
  total : m'.total = m.total
  filed : ∀ id, g'.table.get? id = if id ∈ m.process.retained then none else g.table.get? id

theorem release_cases (g : Group) (k : Nat) (e : Engine) :
    g.release k e = g ∨ ∃ m m', ReleasedBy g k m m' (g.release k e) := by
  unfold Group.release
  split
  · exact .inl rfl
  next m hm =>
  obtain ⟨hprocess, hfiled⟩ := release_spec m.process (g.engineOf m e)
  exact .inr ⟨m, _, hm, rfl, rfl, hprocess, rfl, rfl, hfiled⟩

section
variable {k : Nat} {m' : Member} {g' : Group}

theorem ReleasedBy.kept (h : ReleasedBy g k m m' g') : m'.kept = [] := by
  rw [Member.kept, h.ran, List.rtake_nil]

theorem ReleasedBy.perm_ran (h : ReleasedBy g k m m' g') : g.ran.Perm (m.ran ++ g'.ran) := by
  obtain ⟨others, hmembers, hset⟩ := exists_others h.was
  have hmembers' : g'.members.Perm (m' :: others) := h.members ▸ hset m'
  have hothers := Group.perm_ran hmembers'
  rw [h.ran, List.nil_append] at hothers
  exact (Group.perm_ran hmembers).trans (hothers.symm.append_left _)

/-- What the process has retained has left the table, and nothing else. -/
theorem ReleasedBy.filed_members (h : ReleasedBy g k m m' g') (hsound : g.Sound) :
    Filed g'.table.get? fun c => ∃ m ∈ g'.members, c ∈ m.kept := by
  obtain ⟨others, hmembers, hset⟩ := exists_others h.was
  have hmembers' : g'.members.Perm (m' :: others) := h.members ▸ hset m'
  obtain ⟨hown, hapart⟩ := apart_of_distinct hmembers hsound.distinct
  have hkept : m.kept.Sublist m.ran := List.drop_sublist ..
  -- Releasing is making room for nothing.
  have hnothing : m'.kept = m.kept.rtake 0 := by
    rw [h.kept, List.rtake_zero]
  rw [filed_iff_others hmembers', hnothing]
  refine ((filed_iff_others hmembers).1 hsound.filed).rtake (hown.sublist (hkept.map _))
    (fun x hx hmem => hapart x hx ((hkept.map _).subset hmem)) fun id => ?_
  rw [h.filed, hsound.retained m (List.mem_of_getElem? h.was), List.rdrop_zero]

theorem ReleasedBy.sound (h : ReleasedBy g k m m' g') (hsound : g.Sound) : g'.Sound := by
  have hmem : m ∈ g.members := List.mem_of_getElem? h.was
  have hfewer : (g'.ran.map (·.id)).Sublist ((m.ran ++ g'.ran).map (·.id)) := (List.sublist_append_right ..).map _
  have hperm := h.perm_ran.map (·.id)
  refine ⟨⟨?retained, ?counted, ?owned, h.filed_members hsound⟩, ?distinct, ?issued⟩
  case retained =>
    rw [h.members]
    refine forall_mem_set hsound.retained ?_
    rw [h.kept, h.process, List.map_nil]
  case counted =>
    rw [h.members]
    refine forall_mem_set hsound.counted ?_
    rw [h.process, h.total, hsound.counted m hmem]
  case owned =>
    rw [h.members]
    refine forall_mem_set hsound.owned ?_
    rw [h.ran]
    exact List.forall_mem_nil _
  case distinct => exact (hperm.nodup_iff.1 hsound.distinct).sublist hfewer
  case issued =>
    rw [h.issued]
    exact fun id hid => hsound.issued (hperm.symm.subset (hfewer.subset hid))

end

/-! ### Creating a process -/

theorem Sound.create (h : g.Sound) {m : Member} (hran : m.ran = []) (hretained : m.process.retained = [])
    (hcounted : m.process.cyclesRun = m.total) : Sound { g with members := g.members ++ [m] } := by
  have hkept : m.kept = [] := by
    rw [Member.kept, hran, List.rtake_nil]
  have hall : Group.ran { g with members := g.members ++ [m] } = g.ran := by
    rw [Group.ran, Group.ran, List.flatMap_append, List.flatMap_singleton, hran, List.append_nil]
  refine ⟨⟨?retained, ?counted, ?owned, ?filed⟩, hall ▸ h.distinct, hall ▸ h.issued⟩
  case retained =>
    refine List.forall_mem_append.2 ⟨h.retained, List.forall_mem_singleton.2 ?_⟩
    rw [hretained, hkept, List.map_nil]
  case counted => exact List.forall_mem_append.2 ⟨h.counted, List.forall_mem_singleton.2 hcounted⟩
  case owned =>
    refine List.forall_mem_append.2 ⟨h.owned, List.forall_mem_singleton.2 ?_⟩
    rw [hran]
    exact List.forall_mem_nil _
  case filed =>
    have hsame : ∀ c, (∃ m' ∈ g.members ++ [m], c ∈ m'.kept) ↔ ∃ m' ∈ g.members, c ∈ m'.kept := by
      simp [or_and_right, exists_or, hkept]
    simpa only [Filed, hsame] using h.filed

end

/-! ### Moves -/

theorem issued_step (g : Group) (m : Move) : g.issued <+: (g.step m).issued := by
  cases m with
  | create => exact List.prefix_rfl
  | run k e stops trigger =>
    obtain hsame | ⟨_, _, c, hrun⟩ := g.run_cases k e stops trigger
    · rw [step, hsame]
    · rw [step, hrun.issued]
      exact List.prefix_append ..
  | release k e =>
    obtain hsame | ⟨_, _, hreleased⟩ := g.release_cases k e
    · rw [step, hsame]
    · rw [step, hreleased.issued]

theorem issued_after (g : Group) (moves : List Move) : g.issued <+: (g.after moves).issued := by
  induction moves generalizing g with
  | nil => exact List.prefix_rfl
  | cons m moves ih => exact (g.issued_step m).trans (ih (g.step m))

theorem Sound.step {g : Group} (h : g.Sound) (m : Move) (hnodup : (g.step m).issued.Nodup) : (g.step m).Sound := by
  cases m with
  | create => exact h.create rfl rfl rfl
  | run k e stops trigger =>
    obtain hsame | ⟨_, _, c, hrun⟩ := g.run_cases k e stops trigger
    · rw [Group.step, hsame]
      exact h
    · exact hrun.sound h hnodup
  | release k e =>
    obtain hsame | ⟨_, _, hreleased⟩ := g.release_cases k e
    · rw [Group.step, hsame]
      exact h
    · exact hreleased.sound h

theorem Sound.after {g : Group} (h : g.Sound) (moves : List Move) (hnodup : (g.after moves).issued.Nodup) :
    (g.after moves).Sound := by
  induction moves generalizing g with
  | nil => exact h
  | cons m moves ih =>
    -- Identifiers are only added, so if all differ in the end, they differ now.
    exact ih (h.step m (hnodup.sublist ((g.step m).issued_after moves).sublist)) hnodup

theorem sound_empty : Sound {} where
  retained := List.forall_mem_nil _
  counted := List.forall_mem_nil _
  owned := List.forall_mem_nil _
  filed _ _ := by simp
  distinct := List.nodup_nil
  issued := List.nil_subset _

/-! ### What a process answers -/

theorem Settled.latestCycle? {g : Group} (h : g.Settled) {m : Member} (hm : m ∈ g.members) (e : Engine) :
    m.process.latestCycle? (g.engineOf m e) = m.kept.getLast? := by
  rw [Process.latestCycle?, h.retained m hm, List.getLast?_map]
  cases hlatest : m.kept.getLast? with
  | none => rfl
  | some c => exact (h.filed c.id c).2 ⟨rfl, m, hm, List.mem_of_getLast? hlatest⟩

/-- Whatever cycles are run and released by processes that share a table, as long as no two cycles have one identifier,
each process retains the latest of the cycles that it has run since it released them, as many as it may, and the table
is made up of the cycles that the processes retain. -/
theorem after_retains (moves : List Move) (hunique : (Group.after {} moves).issued.Nodup) :
    (∀ m ∈ (Group.after {} moves).members,
      m.process.retained = m.kept.map (·.id) ∧
      m.process.retained.length = min m.retention m.ran.length ∧ m.kept <:+ m.ran ∧
      (∀ e, m.process.latestCycle? ((Group.after {} moves).engineOf m e) = m.kept.getLast? ∧
        (m.process.latestCycle? ((Group.after {} moves).engineOf m e) = none ↔ m.process.retained = [])) ∧
      m.process.cyclesRun = m.total) ∧
    ∀ id c, (Group.after {} moves).table.get? id = some c ↔
      c.id = id ∧ ∃ m ∈ (Group.after {} moves).members, c.process = m.process.id ∧ c ∈ m.kept := by
  have h := (sound_empty.after moves hunique).toSettled
  refine ⟨fun m hm => ⟨h.retained m hm, ?_, List.drop_suffix .., fun e => ⟨h.latestCycle? hm e, ?_⟩, h.counted m hm⟩,
    fun id c => ?_⟩
  · rw [h.retained m hm, List.length_map, Member.kept, length_rtake]
  · rw [h.latestCycle? hm e, List.getLast?_eq_none_iff, h.retained m hm, List.map_eq_nil_iff]
  · rw [h.filed]
    refine and_congr_right fun _ => exists_congr fun m => and_congr_right fun hm => ?_
    exact (and_iff_right_of_imp fun hc => h.owned m hm c (List.mem_of_mem_drop hc)).symm

/-- Two processes that retain one cycle and two: the first has run two cycles, the other three of which it has released
two. -/
theorem demo_retains :
    let engine := fun serial => { Demo.engine with serial }
    let moves := [.create ⟨"a"⟩ Demo.process.definition .unavailable {} 1 1,
      .create ⟨"b"⟩ Demo.process.definition .unavailable {} 1 2,
      .run 0 (engine 0) Stops.none .manual, .run 1 (engine 1) Stops.none .manual,
      .run 1 (engine 2) Stops.none .manual, .run 0 (engine 3) Stops.none .manual, .release 1 (engine 4),
      .run 1 (engine 4) Stops.none .manual]
    (Group.after {} moves).issued.Nodup ∧
    (Group.after {} moves).members.map (fun m => (m.process.retained.length, m.process.cyclesRun)) =
      [(1, 2), (1, 3)] ∧
    (Group.after {} moves).members.map (·.process.retained) = (Group.after {} moves).members.map
      fun m => m.kept.map (·.id) := by
  intro engine moves
  have hunique : (Group.after {} moves).issued.Nodup := by decide +kernel
  refine ⟨hunique, rfl, List.map_congr_left fun m hm => ?_⟩
  exact ((after_retains moves hunique).1 m hm).1

end Group

end Process
end Valuation
