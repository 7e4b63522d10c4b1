import Valuation.Proofs.Processor.Session
import Valuation.Proofs.Snapshot

/-!
# A loop that listens to a feed

Values are published side by side with the loop of a process that listens to them: a value is recorded first and
announced afterwards, and anything may come in between. `Listening` is such a loop with the feed and the publishers
around it, and a `Move` is the least that any of them does at once. The loop takes one tick or the notice of those
that it has lost, drains what is queued one by one, begins a cycle, takes a snapshot shard after shard of the values,
each as it is at that moment, and performs the cycle. Nothing in between is what the operations of the model do
(`publish_eq_after`, `turn_eq_after`).
-/
namespace Valuation

/-! ## Shards -/

/-- How the values of a feed are spread. Those of one shard are read at once. -/
structure Sharding where
  shard : MarketDataKey → Nat
  count : Nat
  shard_lt : ∀ key, shard key < count

/-- The values of one shard. -/
def LiveData.inShard (f : LiveData) (h : Sharding) (j : Nat) : List (MarketDataKey × DataValue) :=
  f.values.toList.filter fun e => h.shard e.1 = j

/-- The values of the first shards. -/
def LiveData.inShards (f : LiveData) (h : Sharding) : Nat → List (MarketDataKey × DataValue)
  | 0 => []
  | j + 1 => f.inShards h j ++ f.inShard h j

namespace Sharding

/-- Values of the first shards, with no key twice. -/
structure Spread (h : Sharding) (j : Nat) (values : List (MarketDataKey × DataValue)) : Prop where
  nodup : (values.map (·.1)).Nodup
  shard_lt : ∀ e ∈ values, h.shard e.1 < j

variable {h : Sharding}

theorem spread_nil : h.Spread 0 [] := ⟨List.nodup_nil, nofun⟩

theorem mem_inShard {f : LiveData} {j : Nat} {e : MarketDataKey × DataValue} :
    e ∈ f.inShard h j ↔ e ∈ f.values.toList ∧ h.shard e.1 = j := by
  simp [LiveData.inShard, List.mem_filter]

theorem Spread.append {j : Nat} {values : List (MarketDataKey × DataValue)} (hspread : h.Spread j values)
    {f : LiveData} (hsorted : f.values.Sorted) : h.Spread (j + 1) (values ++ f.inShard h j) where
  nodup := by
    rw [List.map_append, List.nodup_append']
    refine ⟨hspread.nodup, hsorted.nodup_keys.sublist (List.filter_sublist.map _), fun key hvalues hshard => ?_⟩
    obtain ⟨e, he, rfl⟩ := List.mem_map.1 hvalues
    obtain ⟨e', he', heq⟩ := List.mem_map.1 hshard
    have hlt := hspread.shard_lt e he
    rw [← heq, (mem_inShard.1 he').2] at hlt
    exact lt_irrefl j hlt
  shard_lt e he := by
    rcases List.mem_append.1 he with he | he
    · exact Nat.lt_succ_of_lt (hspread.shard_lt e he)
    · exact (mem_inShard.1 he).2 ▸ Nat.lt_succ_self _

theorem spread_inShards {f : LiveData} (hsorted : f.values.Sorted) (j : Nat) : h.Spread j (f.inShards h j) := by
  induction j with
  | zero => exact spread_nil
  | succ j ih => exact ih.append hsorted

theorem mem_inShards {f : LiveData} {j : Nat} {e : MarketDataKey × DataValue} :
    e ∈ f.inShards h j ↔ e ∈ f.values.toList ∧ h.shard e.1 < j := by
  induction j with
  | zero => simp [LiveData.inShards]
  | succ j ih => rw [LiveData.inShards, List.mem_append, ih, mem_inShard, ← and_or_left, Nat.lt_succ_iff_lt_or_eq]

/-- What is read shard by shard while nothing comes in between are the values of the feed. -/
theorem inShards_perm {f : LiveData} (hsorted : f.values.Sorted) :
    (f.inShards h h.count).Perm f.values.toList := by
  have hread : (f.inShards h h.count).Nodup := (spread_inShards hsorted h.count).nodup.of_map
  have hheld : f.values.toList.Nodup := hsorted.nodup_keys.of_map
  refine (List.perm_ext_iff_of_nodup hread hheld).2 fun e => ?_
  rw [mem_inShards, and_iff_left (h.shard_lt e.1)]

end Sharding

/-! ## Listening -/

/-- A value that is being published: it is recorded, and yet to be announced. -/
structure Publishing where
  tick : Tick
  /-- Whether its key has been removed since the value was recorded. -/
  removed : Bool := false

/-- How far a loop has come from one wait to the next. -/
inductive Stage where
  | waiting
  /-- A tick or the notice of lost ones has come. -/
  | draining
  | woken (trigger : CycleTrigger)
  | begun (trigger : CycleTrigger) (cycle : Cycle)
  /-- Some shards have been read, with these values. -/
  | reading (trigger : CycleTrigger) (cycle : Cycle) (id : SnapshotId) (shard : Nat)
      (values : List (MarketDataKey × DataValue))
  | performing (trigger : CycleTrigger) (cycle : Cycle) (source : Except EngineError Snapshot)

/-- A process whose loop may listen to a feed, and what goes on around it. -/
structure Listening where
  sharding : Sharding
  /-- The number of the feed. -/
  feed : Nat
  engine : Engine
  process : Process
  stage : Stage := .waiting
  /-- The values that are being published, one of each key at most. -/
  publishing : Table MarketDataKey Publishing := ∅
  /-- For each key the value that was published last, of those whose publication ended since the loop was started,
  unless the key was removed after that value was recorded. -/
  announced : Table MarketDataKey DataValue := ∅
  /-- The snapshot that was taken for the most recent cycle. -/
  taken : Option (Except EngineError Snapshot) := none

namespace Listening

/-- What can come next. -/
inductive Move where
  /-- A publisher records a value. -/
  | record (key : MarketDataKey) (value : DataValue)
  /-- The publisher of a key announces the value that it has recorded. -/
  | announce (key : MarketDataKey)
  | remove (key : MarketDataKey)
  /-- Someone who holds the process calls it. -/
  | call (call : Process.Call)
  /-- The loop takes a tick, or the notice of lost ones. -/
  | receive
  /-- The loop takes one more of what is queued, or goes on if nothing is. -/
  | drain
  /-- Something else wakes the loop. -/
  | wake (w : Process.Wakeup)
  | begin
  /-- A snapshot gets its number. -/
  | number
  /-- The loop reads one more shard, or seals the snapshot if all are read. -/
  | read
  /-- The cycle is taken to its end. The points at which it is stopped are part of the move. -/
  | perform (stops : Stops)
  /-- Others do what they do with the engine, take snapshots of the feed and run cycles of the process. -/
  | elsewhere (engine : Engine) (snapshots : Nat) (retained : List CycleId) (cyclesRun : Nat)
      (notices : Channel CycleNotice)

section
variable (s : Listening)

/-- The feed, changed. -/
def putFeed (f : LiveData) : Listening := { s with engine := { s.engine with feeds := s.engine.feeds.set s.feed f } }

/-- The loop at a place among the ticks. -/
def atTick (position : Nat) : Listening := { s with process := { s.process with loop := .waiting (some position) } }

def record (key : MarketDataKey) (value : DataValue) : Listening :=
  match s.engine.feed? s.feed, s.publishing.get? key with
  | some f, none =>
    { s.putFeed (f.record key value).2 with
      publishing := s.publishing.insert key { tick := (f.record key value).1 } }
  | _, _ => s

def announce (key : MarketDataKey) : Listening :=
  match s.engine.feed? s.feed, s.publishing.get? key with
  | some f, some p =>
    { s.putFeed (f.announce p.tick) with
      publishing := s.publishing.erase key
      announced :=
        if s.process.loop = .unstarted ∨ p.removed then s.announced else s.announced.insert key p.tick.value }
  | _, _ => s

def remove (key : MarketDataKey) : Listening :=
  match s.engine.feed? s.feed with
  | some f =>
    { s.putFeed (f.remove key).2 with
      publishing := s.publishing.modify key fun p => { p with removed := true }
      announced := s.announced.erase key }
  | none => s

/-- Takes what a receiver gets next, if there is anything. -/
def take : Option Listening :=
  match s.process.ticks? s.engine with
  | some (ticks, position) => (ticks.receive? position).map fun next => s.atTick next.2
  | none => none

def receive : Listening :=
  match s.stage, s.take with
  | .waiting, some next => if s.process.cannotRun then s else { next with stage := .draining }
  | _, _ => s

def drain : Listening :=
  match s.stage with
  | .draining => s.take.getD { s with stage := .woken .liveTick }
  | _ => s

/-- The loop has been woken. -/
def awake : Option CycleTrigger × Process → Listening
  | (none, process) => { s with process }
  | (some trigger, process) => { s with process, stage := .woken trigger }

def wake (w : Process.Wakeup) : Listening :=
  match s.stage with
  | .waiting =>
    if s.process.cannotRun then { s with process := { s.process with loop := .broken } }
    else if w ≠ .tick ∧ s.process.isReady s.engine w then s.awake (s.process.wake s.engine w)
    else s
  | _ => s

def begin : Listening :=
  match s.stage with
  | .woken trigger =>
    let (cycle, process, engine) := s.process.beginCycle s.engine
    { s with process, engine, stage := .begun trigger cycle }
  | _ => s

def number : Listening :=
  match s.stage, s.engine.feed? s.feed with
  | .begun trigger cycle, some f =>
    { s.putFeed { f with snapshots := f.snapshots + 1 } with
      stage := .reading trigger cycle (SnapshotId.live s.engine.now.date (f.snapshots + 1)) 0 [] }
  | _, _ => s

def read : Listening :=
  match s.stage, s.engine.feed? s.feed with
  | .reading trigger cycle id shard values, some f =>
    if shard < s.sharding.count then
      { s with stage := .reading trigger cycle id (shard + 1) (values ++ f.inShard s.sharding shard) }
    else
      let source := Snapshot.ofValues id values
      { s with stage := .performing trigger cycle source, taken := some source }
  | _, _ => s

def perform (stops : Stops) : Listening :=
  match s.stage with
  | .performing trigger cycle source =>
    let done := s.process.finishCycle s.engine stops trigger cycle source
    { s with process := done.process.checkLimit, engine := done.engine, stage := .waiting }
  | _ => s

def elsewhere (engine : Engine) (snapshots : Nat) (retained : List CycleId) (cyclesRun : Nat)
    (notices : Channel CycleNotice) : Listening :=
  match s.engine.feed? s.feed with
  | some f =>
    if s.feed < engine.feeds.length then
      { s with engine, process := { s.process with retained, cyclesRun, notices } }.putFeed
        { f with snapshots := f.snapshots + snapshots }
    else s
  | none => s

/-- What comes of a move. One that cannot be made changes nothing. -/
def step : Move → Listening
  | .record key value => s.record key value
  | .announce key => s.announce key
  | .remove key => s.remove key
  | .call call => { s with process := call.apply s.engine s.process }
  | .receive => s.receive
  | .drain => s.drain
  | .wake w => s.wake w
  | .begin => s.begin
  | .number => s.number
  | .read => s.read
  | .perform stops => s.perform stops
  | .elsewhere engine snapshots retained cyclesRun notices =>
    s.elsewhere engine snapshots retained cyclesRun notices

/-- What comes of some moves. -/
def after (moves : List Move) : Listening := moves.foldl step s

end

/-! ## The operations of the model -/

theorem after_append (s : Listening) (moves more : List Move) : s.after (moves ++ more) = (s.after moves).after more :=
  List.foldl_append

section
variable {s : Listening} {f : LiveData}

theorem feed?_putFeed (h : s.engine.feed? s.feed = some f) (f' : LiveData) :
    (s.putFeed f').engine.feed? s.feed = some f' :=
  List.getElem?_set_self (List.getElem?_eq_some_iff.1 h).1

theorem record_of_idle (hfeed : s.engine.feed? s.feed = some f) {key : MarketDataKey}
    (hidle : s.publishing.get? key = none) (value : DataValue) :
    s.record key value = { s.putFeed (f.record key value).2 with
      publishing := s.publishing.insert key { tick := (f.record key value).1 } } := by
  simp only [record, hfeed, hidle]

theorem announce_of_publishing (hfeed : s.engine.feed? s.feed = some f) {key : MarketDataKey} {p : Publishing}
    (hp : s.publishing.get? key = some p) :
    s.announce key = { s.putFeed (f.announce p.tick) with
      publishing := s.publishing.erase key
      announced :=
        if s.process.loop = .unstarted ∨ p.removed then s.announced
        else s.announced.insert key p.tick.value } := by
  simp only [announce, hfeed, hp]

/-- To publish a value is to record it and to announce it, if nothing comes in between. -/
theorem publish_eq_after (hfeed : s.engine.feed? s.feed = some f) {key : MarketDataKey}
    (hidle : s.publishing.get? key = none) (value : DataValue) :
    (s.after [.record key value, .announce key]).engine =
      (s.engine.updateFeed s.feed fun f => f.publish key value).2 := by
  have hrecord : s.step (.record key value) = _ := record_of_idle hfeed hidle value
  generalize hrecorded : ({ s.putFeed (f.record key value).2 with
    publishing := s.publishing.insert key { tick := (f.record key value).1 } } : Listening) = recorded at hrecord
  have hfeed' : recorded.engine.feed? recorded.feed = some (f.record key value).2 := by
    rw [← hrecorded]
    exact feed?_putFeed hfeed _
  have hp : recorded.publishing.get? key = some { tick := (f.record key value).1 } := by
    rw [← hrecorded]
    exact (Table.get?_insert ..).trans (if_pos rfl)
  have hannounce : recorded.step (.announce key) = _ := announce_of_publishing hfeed' hp
  rw [after, List.foldl_cons, hrecord, List.foldl_cons, hannounce, List.foldl_nil, ← hrecorded]
  simp [putFeed, Engine.updateFeed, hfeed, LiveData.publish]

/-! ### Being woken -/

theorem ticks?_eq_some {p : Process} {e : Engine} {ticks : Channel Tick} {position : Nat}
    (h : p.ticks? e = some (ticks, position)) :
    p.loop = .waiting (some position) ∧ ∃ n f, p.source = .live n ∧ e.feed? n = some f ∧ ticks = f.ticks := by
  unfold Process.ticks? at h
  split at h
  · next hloop hsource =>
    obtain ⟨f, hf, hticks⟩ := Option.map_eq_some_iff.1 h
    cases hticks
    exact ⟨hloop, _, f, hsource, hf, rfl⟩
  · cases h

theorem ticks?_atTick {ticks : Channel Tick} {position : Nat}
    (h : s.process.ticks? s.engine = some (ticks, position)) (position' : Nat) :
    (s.atTick position').process.ticks? (s.atTick position').engine = some (ticks, position') := by
  obtain ⟨-, n, f, hsource, hf, rfl⟩ := ticks?_eq_some h
  simp only [atTick, Process.ticks?, hsource, hf, Option.map_some]

/-- The loop comes to the end of the ticks, tick by tick. -/
theorem exists_after_drain {ticks : Channel Tick} {position : Nat}
    (hticks : s.process.ticks? s.engine = some (ticks, position)) (hposition : position ≤ ticks.position)
    (hstage : s.stage = .draining) :
    ∃ n, s.after (List.replicate n .drain) = { s.atTick ticks.position with stage := .woken .liveTick } := by
  -- Every tick that is taken brings the loop nearer to the end.
  induction hleft : ticks.position - position using Nat.strong_induction_on generalizing s position with
  | h left ih =>
  cases hnext : ticks.receive? position with
  | none =>
    obtain rfl : position = ticks.position :=
      le_antisymm hposition ((ticks.receive?_eq_none_iff position).1 hnext)
    have hloop := (ticks?_eq_some hticks).1
    refine ⟨1, ?_⟩
    simp [after, step, drain, hstage, take, hticks, hnext, atTick, ← hloop]
  | some next =>
    obtain ⟨hlt, hle⟩ := Channel.lt_of_receive?_eq_some hnext
    have hdrain : s.step .drain = s.atTick next.2 := by
      simp [step, drain, hstage, take, hticks, hnext]
    obtain ⟨n, hn⟩ := ih (ticks.position - next.2) (by omega) (ticks?_atTick hticks next.2) hle hstage rfl
    refine ⟨n + 1, ?_⟩
    rw [List.replicate_succ, after, List.foldl_cons, hdrain]
    exact hn

/-- What wakes the loop, and after a tick so many looks at what else is queued. -/
def Move.waking : (w : Process.Wakeup) → (looks : Nat) → List Move
  | .tick, looks => .receive :: List.replicate looks .drain
  | w, _ => [.wake w]

theorem exists_after_waking {w : Process.Wakeup} (hstage : s.stage = .waiting) (hruns : s.process.cannotRun = false)
    (hready : s.process.isReady s.engine w = true) :
    ∃ looks, s.after (Move.waking w looks) = s.awake (s.process.wake s.engine w) := by
  by_cases htick : w = .tick
  · subst htick
    obtain ⟨ticks, position, hticks, hnext⟩ : ∃ ticks position,
        s.process.ticks? s.engine = some (ticks, position) ∧ (ticks.receive? position).isSome = true := by
      obtain ⟨t, ht, hnext⟩ := (Option.any_eq_true ..).1 (Bool.and_eq_true_iff.1 hready).2
      exact ⟨t.1, t.2, ht, hnext⟩
    obtain ⟨next, hnext⟩ := Option.isSome_iff_exists.1 hnext
    have hreceive : s.step .receive = { s.atTick next.2 with stage := .draining } := by
      simp [step, receive, hstage, take, hticks, hnext, hruns]
    obtain ⟨looks, hdrain⟩ := exists_after_drain (s := { s.atTick next.2 with stage := .draining })
      (ticks?_atTick hticks next.2) (Channel.lt_of_receive?_eq_some hnext).2 rfl
    refine ⟨looks, ?_⟩
    rw [Move.waking, after, List.foldl_cons, hreceive]
    refine hdrain.trans ?_
    simp [awake, Process.wake, hticks, atTick]
  · refine ⟨0, ?_⟩
    have hwaking : Move.waking w 0 = [.wake w] := by cases w <;> first | rfl | exact absurd rfl htick
    simp [hwaking, after, step, wake, hstage, hruns, hready, htick]

/-! ### Running a cycle -/

theorem after_read {trigger : CycleTrigger} {cycle : Cycle} {id : SnapshotId}
    (hfeed : s.engine.feed? s.feed = some f) (hstage : s.stage = .reading trigger cycle id 0 []) {n : Nat}
    (hn : n ≤ s.sharding.count) :
    s.after (List.replicate n .read) =
      { s with stage := .reading trigger cycle id n (f.inShards s.sharding n) } := by
  induction n with
  | zero => rw [List.replicate_zero, LiveData.inShards, ← hstage]; rfl
  | succ n ih =>
    have hlt : n < s.sharding.count := hn
    rw [List.replicate_succ', after_append, ih hlt.le]
    simp [after, step, read, hfeed, hlt, LiveData.inShards]

/-- What is read shard by shard is sealed. -/
theorem after_reads {trigger : CycleTrigger} {cycle : Cycle} {id : SnapshotId}
    (hfeed : s.engine.feed? s.feed = some f) (hsorted : f.values.Sorted)
    (hstage : s.stage = .reading trigger cycle id 0 []) :
    s.after (List.replicate (s.sharding.count + 1) .read) =
      let source := Snapshot.ofValues id f.values.toList
      { s with stage := .performing trigger cycle source, taken := some source } := by
  have hnodup := (Sharding.spread_inShards (h := s.sharding) hsorted s.sharding.count).nodup
  rw [List.replicate_succ', after_append, after_read hfeed hstage le_rfl,
    ← Snapshot.ofValues_perm id hnodup (Sharding.inShards_perm hsorted)]
  simp [after, step, read, hfeed]

/-- A snapshot that is read shard by shard is taken, if nothing comes in between. -/
theorem takeSnapshot_eq_after {trigger : CycleTrigger} {cycle : Cycle} (hfeed : s.engine.feed? s.feed = some f)
    (hsorted : f.values.Sorted) (hstage : s.stage = .begun trigger cycle) :
    s.after (.number :: List.replicate (s.sharding.count + 1) .read) =
      let (source, engine) := s.engine.takeSnapshot (.live s.feed)
      { s with engine, stage := .performing trigger cycle source, taken := some source } := by
  have hnumber : s.step .number = { s.putFeed { f with snapshots := f.snapshots + 1 } with
      stage := .reading trigger cycle (SnapshotId.live s.engine.now.date (f.snapshots + 1)) 0 [] } := by
    simp only [step, number, hstage, hfeed]
  have hreads := after_reads
    (s := { s.putFeed { f with snapshots := f.snapshots + 1 } with
      stage := .reading trigger cycle (SnapshotId.live s.engine.now.date (f.snapshots + 1)) 0 [] })
    (feed?_putFeed hfeed _) hsorted rfl
  rw [after, List.foldl_cons, hnumber]
  refine hreads.trans ?_
  simp [Engine.takeSnapshot, Engine.updateFeed, hfeed, LiveData.snapshot, putFeed]

/-- The steps of a cycle. -/
def cycleMoves (h : Sharding) (stops : Stops) : List Move :=
  .begin :: .number :: List.replicate (h.count + 1) .read ++ [.perform stops]

/-- A cycle that is taken step by step is run, if nothing comes in between. -/
theorem runCycle_eq_after {trigger : CycleTrigger} (hfeed : s.engine.feed? s.feed = some f)
    (hsorted : f.values.Sorted) (hsource : s.process.source = .live s.feed) (hstage : s.stage = .woken trigger)
    (stops : Stops) :
    let done := s.process.runCycle s.engine stops trigger
    (s.after (cycleMoves s.sharding stops)).process = done.process.checkLimit ∧
      (s.after (cycleMoves s.sharding stops)).engine = done.engine := by
  have hbegin : s.step .begin =
      let (cycle, process, engine) := s.process.beginCycle s.engine
      { s with process, engine, stage := .begun trigger cycle } := by
    simp only [step, begin, hstage]
  have hkeeps : (s.process.beginCycle s.engine).2.1.source = .live s.feed ∧
      (s.process.beginCycle s.engine).2.2.feed? s.feed = some f := ⟨hsource, hfeed⟩
  rw [Process.runCycle, cycleMoves, after, List.cons_append, List.foldl_cons, hbegin, ← after]
  generalize s.process.beginCycle s.engine = begun at hkeeps
  obtain ⟨cycle, process, engine⟩ := begun
  dsimp only at hkeeps ⊢
  have htake := takeSnapshot_eq_after (s := { s with process, engine, stage := .begun trigger cycle })
    hkeeps.2 hsorted rfl
  rw [after_append, htake, hkeeps.1]
  exact ⟨rfl, rfl⟩

/-- Moves that cannot be made change nothing. -/
theorem after_of_stays {moves : List Move} (h : ∀ m ∈ moves, s.step m = s) : s.after moves = s := by
  induction moves with
  | nil => rfl
  | cons m moves ih =>
    obtain ⟨hm, hmoves⟩ := List.forall_mem_cons.1 h
    rw [after, List.foldl_cons, hm]
    exact ih hmoves

theorem after_cycleMoves_of_waiting (hstage : s.stage = .waiting) (stops : Stops) :
    s.after (cycleMoves s.sharding stops) = s := by
  refine after_of_stays fun m hm => ?_
  rcases List.mem_append.1 hm with hm | hm
  · rcases List.mem_cons.1 hm with rfl | hm
    · simp only [step, begin, hstage]
    rcases List.mem_cons.1 hm with rfl | hm
    · simp only [step, number, hstage]
    · rw [List.eq_of_mem_replicate hm]
      simp only [step, read, hstage]
  · rw [List.mem_singleton.1 hm]
    simp only [step, perform, hstage]

/-- A turn is to wake the loop, and to run a cycle step by step if that is what it is woken for. -/
theorem turn_eq_after {w : Process.Wakeup} (hfeed : s.engine.feed? s.feed = some f) (hsorted : f.values.Sorted)
    (hsource : s.process.source = .live s.feed) (hstage : s.stage = .waiting)
    (hruns : s.process.cannotRun = false) (hready : s.process.isReady s.engine w = true) (stops : Stops) :
    ∃ looks, let t := s.after (Move.waking w looks ++ cycleMoves s.sharding stops)
      (t.process, t.engine) = ((s.process.turn s.engine stops w).1, (s.process.turn s.engine stops w).2.1) := by
  obtain ⟨looks, hwaking⟩ := exists_after_waking hstage hruns hready
  refine ⟨looks, ?_⟩
  have hkeeps : (s.process.wake s.engine w).2.source = .live s.feed := by cases w <;> exact hsource
  rw [after_append, hwaking, Process.turn]
  generalize s.process.wake s.engine w = woken at hkeeps
  obtain ⟨_ | trigger, p⟩ := woken
  · -- The loop ends, and there is no cycle to run.
    exact congrArg (fun t : Listening => (t.process, t.engine))
      (after_cycleMoves_of_waiting (s := s.awake (none, p)) hstage stops)
  · obtain ⟨hprocess, hengine⟩ := runCycle_eq_after (s := s.awake (some trigger, p)) hfeed hsorted hkeeps rfl stops
    exact Prod.ext hprocess hengine

end

end Listening
end Valuation
