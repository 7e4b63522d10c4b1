import Valuation.Proofs.Listening

/-!
# No update is lost

Ticks are taken together, and lost if the loop falls behind, so they say nothing about the values that a cycle works
with. They only say that there is something to look at. A value is recorded before it is announced, and the loop reads
the feed after it has come to the end of the ticks: whatever it has taken no notice of is still ahead of it, or is in
the snapshot that it has taken since (`Follows`). A loop that waits with no tick ahead has thus run its last cycle on
what was published last (`after_showsLatest`).
-/
namespace Valuation
namespace Listening

/-! ## What is read and what was published -/

section
variable (s : Listening)

/-- Whether a value is the last of its key to have been published, or is being published. -/
def Latest (key : MarketDataKey) (value : DataValue) : Prop :=
  s.announced.get? key = some value ∨ ∃ p, s.publishing.get? key = some p ∧ p.tick.value = value

/-- What the snapshot that was taken last holds under a key. -/
def holds? (key : MarketDataKey) : Option DataValue :=
  s.taken.bind fun source => source.toOption.bind fun snapshot => snapshot.get? key

/-- What the loop has read under a key since it came to the end of the ticks, or before a cycle for something else.
Nothing yet, if it is about to read. -/
def shown? (key : MarketDataKey) : Option (Option DataValue) :=
  match s.stage with
  | .waiting => some (s.holds? key)
  | .performing .. => some (s.holds? key)
  | .reading _ _ _ shard values =>
    if s.sharding.shard key < shard then some ((Table.ofList values).get? key) else none
  | _ => none

/-- Whether nothing has been read since the loop was woken. -/
def Unread : Prop :=
  match s.stage with
  | .draining => True
  | .woken _ => True
  | .begun .. => True
  | .reading _ _ _ shard values => shard = 0 ∧ values = []
  | _ => False

/-- Whether all that has been read is what was published last, or is being published. -/
def UpToDate : Prop :=
  ∀ key value, s.announced.get? key = some value →
    ∀ shown, s.shown? key = some shown → ∃ w, shown = some w ∧ s.Latest key w

/-- How the values of a feed and the publishers fit together. -/
structure Records (f : LiveData) : Prop where
  feed_eq : s.engine.feed? s.feed = some f
  sorted : f.values.Sorted
  recorded : ∀ key p, s.publishing.get? key = some p → p.removed = false → f.values.get? key = some p.tick.value
  withdrawn : ∀ key p, s.publishing.get? key = some p → p.removed = true → s.announced.get? key = none
  kept : ∀ key value, s.announced.get? key = some value → s.publishing.get? key = none →
    f.values.get? key = some value

/-- How a loop goes along with the feed. -/
structure Follows (f : LiveData) : Prop extends s.Records f where
  source_eq : s.process.source = .live s.feed
  unstarted : s.process.loop = .unstarted → ∀ key, s.announced.get? key = none
  position_le : ∀ position, s.process.loop = .waiting (some position) → position ≤ f.ticks.position
  spread : ∀ trigger cycle id shard values, s.stage = .reading trigger cycle id shard values →
    s.sharding.Spread shard values
  /-- The loop has a tick ahead, or knows what it would look for. -/
  shows : ∀ position, s.process.loop = .waiting (some position) → position < f.ticks.position ∨ s.UpToDate

end

section
variable {s t : Listening} {f f' : LiveData}

/-- A feed holds what was published last, or what is being published in its place. -/
theorem Records.exists_latest (h : s.Records f) {key : MarketDataKey} {value : DataValue}
    (hkey : s.announced.get? key = some value) : ∃ w, f.values.get? key = some w ∧ s.Latest key w := by
  cases hp : s.publishing.get? key with
  | none => exact ⟨value, h.kept key value hkey hp, .inl hkey⟩
  | some p =>
    cases hremoved : p.removed with
    | true =>
      rw [h.withdrawn key p hp hremoved] at hkey
      cases hkey
    | false => exact ⟨p.tick.value, h.recorded key p hp hremoved, .inr ⟨p, hp, rfl⟩⟩

/-- What has been read stays up to date as long as it stays the same, and no value that is up to date ceases to be. -/
theorem UpToDate.mono (h : s.UpToDate) (hshown : ∀ key shown, t.shown? key = some shown → s.shown? key = some shown)
    (hlatest : ∀ key value, t.announced.get? key = some value →
      s.announced.get? key = some value ∧ ∀ w, s.Latest key w → t.Latest key w) : t.UpToDate := by
  intro key value hvalue shown ht
  obtain ⟨hvalue, hkeeps⟩ := hlatest key value hvalue
  obtain ⟨w, hw, hlatest⟩ := h key value hvalue shown (hshown key shown ht)
  exact ⟨w, hw, hkeeps w hlatest⟩

/-- Before the loop reads there is nothing to be out of date. -/
theorem Unread.upToDate (h : s.Unread) : s.UpToDate := by
  intro key value _ shown hshown
  unfold Unread at h
  unfold shown? at hshown
  split at hshown
  · next hstage => simp [hstage] at h
  · next hstage => simp [hstage] at h
  · next hstage =>
    simp only [hstage] at h
    rw [h.1, if_neg (Nat.not_lt_zero _)] at hshown
    cases hshown
  · cases hshown

/-! ## Publishers -/

section
variable {key : MarketDataKey}

theorem Records.record (h : s.Records f) (hidle : s.publishing.get? key = none) (value : DataValue) :
    (s.record key value).Records (f.record key value).2 := by
  rw [record_of_idle h.feed_eq hidle]
  refine ⟨feed?_putFeed h.feed_eq _, h.sorted.insert key value, fun key' p hp hremoved => ?_,
    fun key' p hp hremoved => ?_, fun key' value' hvalue hp => ?_⟩
  · simp only [Table.get?_insert, LiveData.record] at hp ⊢
    split at hp
    · next hkey =>
      cases hp
      rw [if_pos hkey]
    · next hkey =>
      rw [if_neg hkey]
      exact h.recorded key' p hp hremoved
  · simp only [Table.get?_insert] at hp
    split at hp
    · cases hp
      cases hremoved
    · exact h.withdrawn key' p hp hremoved
  · simp only [Table.get?_insert, LiveData.record] at hp ⊢
    split at hp
    · cases hp
    · next hkey =>
      rw [if_neg hkey]
      exact h.kept key' value' hvalue hp

theorem Follows.record (h : s.Follows f) (key : MarketDataKey) (value : DataValue) :
    ∃ f', (s.record key value).Follows f' := by
  cases hidle : s.publishing.get? key with
  | some p =>
    have hstays : s.record key value = s := by simp only [Listening.record, h.feed_eq, hidle]
    exact ⟨f, by rwa [hstays]⟩
  | none =>
    have hrecords := h.toRecords.record hidle value
    rw [record_of_idle h.feed_eq hidle] at hrecords ⊢
    refine ⟨_, hrecords, h.source_eq, h.unstarted, h.position_le, h.spread, fun position hloop => ?_⟩
    refine (h.shows position hloop).imp_right fun hupToDate => hupToDate.mono (fun _ _ hshown => hshown) ?_
    refine fun key' value' hvalue => ⟨hvalue, ?_⟩
    rintro w (hw | ⟨p, hp, hw⟩)
    · exact .inl hw
    · have hkey : key ≠ key' := fun hkey => by rw [← hkey, hidle] at hp; cases hp
      exact .inr ⟨p, (Table.get?_insert ..).trans ((if_neg hkey).trans hp), hw⟩

theorem Records.announce (h : s.Records f) {p : Publishing} (hp : s.publishing.get? key = some p)
    (hunstarted : s.process.loop = .unstarted → s.announced.get? key = none) :
    (s.announce key).Records (f.announce p.tick) := by
  have hother : ∀ key', key ≠ key' → (s.announce key).announced.get? key' = s.announced.get? key' := by
    intro key' hkey
    rw [announce_of_publishing h.feed_eq hp]
    dsimp only
    split
    · rfl
    · exact (Table.get?_insert ..).trans (if_neg hkey)
  have hthis : ∀ value, (s.announce key).announced.get? key = some value → f.values.get? key = some value := by
    intro value hvalue
    rw [announce_of_publishing h.feed_eq hp] at hvalue
    dsimp only at hvalue
    split at hvalue
    · next hskipped =>
      have hnone : s.announced.get? key = none := hskipped.elim hunstarted (h.withdrawn key p hp)
      cases hnone.symm.trans hvalue
    · next hcounts =>
      rw [Table.get?_insert, if_pos rfl] at hvalue
      cases hvalue
      exact h.recorded key p hp (Bool.eq_false_iff.2 fun hremoved => hcounts (.inr hremoved))
  have hpublishing : ∀ key', (s.announce key).publishing.get? key' =
      if key = key' then none else s.publishing.get? key' := by
    intro key'
    rw [announce_of_publishing h.feed_eq hp]
    exact Table.get?_erase ..
  refine ⟨?_, h.sorted, fun key' p' hp' hremoved => ?_, fun key' p' hp' hremoved => ?_,
    fun key' value hvalue hp' => ?_⟩
  · rw [announce_of_publishing h.feed_eq hp]
    exact feed?_putFeed h.feed_eq _
  · rw [hpublishing] at hp'
    split at hp'
    · cases hp'
    · exact h.recorded key' p' hp' hremoved
  · rw [hpublishing] at hp'
    split at hp'
    · cases hp'
    · next hkey => exact (hother key' hkey).trans (h.withdrawn key' p' hp' hremoved)
  · rw [hpublishing] at hp'
    split at hp'
    · next hkey => exact hkey ▸ hthis value (hkey ▸ hvalue)
    · next hkey => exact h.kept key' value ((hother key' hkey).symm.trans hvalue) hp'

/-- Whatever is announced is a tick that the loop has ahead. -/
theorem Follows.announce (h : s.Follows f) (key : MarketDataKey) : ∃ f', (s.announce key).Follows f' := by
  cases hp : s.publishing.get? key with
  | none =>
    have hstays : s.announce key = s := by simp only [Listening.announce, h.feed_eq, hp]
    exact ⟨f, by rwa [hstays]⟩
  | some p =>
    have hrecords := h.toRecords.announce hp fun hloop => h.unstarted hloop key
    have hposition : (f.announce p.tick).ticks.position = f.ticks.position + 1 := Channel.position_send ..
    rw [announce_of_publishing h.feed_eq hp] at hrecords ⊢
    refine ⟨_, hrecords, h.source_eq, fun hloop key' => ?_, fun position hloop => ?_, h.spread,
      fun position hloop => ?_⟩
    · simp only
      rw [if_pos (.inl hloop)]
      exact h.unstarted hloop key'
    · rw [hposition]
      exact Nat.le_succ_of_le (h.position_le position hloop)
    · rw [hposition]
      exact .inl (Nat.lt_succ_of_le (h.position_le position hloop))

theorem remove_eq (hfeed : s.engine.feed? s.feed = some f) (key : MarketDataKey) :
    s.remove key = { s.putFeed (f.remove key).2 with
      publishing := s.publishing.modify key fun p => { p with removed := true }
      announced := s.announced.erase key } := by
  simp only [Listening.remove, hfeed]

theorem Records.remove (h : s.Records f) (key : MarketDataKey) : (s.remove key).Records (f.remove key).2 := by
  rw [remove_eq h.feed_eq]
  refine ⟨feed?_putFeed h.feed_eq _, h.sorted.erase key, fun key' p hp hremoved => ?_,
    fun key' p hp hremoved => ?_, fun key' value hvalue hp => ?_⟩
  · simp only [Table.get?_modify, LiveData.remove, Table.get?_erase] at hp ⊢
    split at hp
    · obtain ⟨p', -, rfl⟩ := Option.map_eq_some_iff.1 hp
      cases hremoved
    · next hkey =>
      rw [if_neg hkey]
      exact h.recorded key' p hp hremoved
  · simp only [Table.get?_modify, Table.get?_erase] at hp ⊢
    split at hp
    · next hkey => rw [if_pos hkey]
    · next hkey =>
      rw [if_neg hkey]
      exact h.withdrawn key' p hp hremoved
  · simp only [Table.get?_modify, LiveData.remove, Table.get?_erase] at hvalue hp ⊢
    split at hvalue
    · cases hvalue
    · next hkey =>
      rw [if_neg hkey] at hp ⊢
      exact h.kept key' value hvalue hp

theorem Follows.remove (h : s.Follows f) (key : MarketDataKey) : ∃ f', (s.remove key).Follows f' := by
  have hrecords := h.toRecords.remove key
  rw [remove_eq h.feed_eq] at hrecords ⊢
  refine ⟨_, hrecords, h.source_eq, fun hloop key' => ?_, h.position_le, h.spread, fun position hloop => ?_⟩
  · rw [Table.get?_erase, h.unstarted hloop key', ite_self]
  · refine (h.shows position hloop).imp_right fun hupToDate => hupToDate.mono (fun _ _ hshown => hshown) ?_
    intro key' value hvalue
    rw [Table.get?_erase] at hvalue
    split at hvalue
    · cases hvalue
    · next hkey =>
      refine ⟨hvalue, ?_⟩
      rintro w (hw | ⟨p, hp, hw⟩)
      · exact .inl ((Table.get?_erase ..).trans ((if_neg hkey).trans hw))
      · exact .inr ⟨p, (Table.get?_modify ..).trans ((if_neg hkey).trans hp), hw⟩

end

/-! ## The loop -/

/-- What a move of the loop leaves alone. -/
structure Frame (s t : Listening) (f f' : LiveData) : Prop where
  sharding : t.sharding = s.sharding
  feed : t.feed = s.feed
  feed_eq : t.engine.feed? s.feed = some f'
  values : f'.values = f.values
  ticks : f'.ticks = f.ticks
  source : t.process.source = s.process.source
  publishing : t.publishing = s.publishing
  announced : t.announced = s.announced

theorem Records.leaves (h : s.Records f) {engine : Engine} {process : Process} {stage : Stage}
    {taken : Option (Except EngineError Snapshot)} (hfeeds : engine.feeds = s.engine.feeds)
    (hsource : process.source = s.process.source) : Frame s { s with engine, process, stage, taken } f f :=
  ⟨rfl, rfl, by rw [Engine.feed?, hfeeds]; exact h.feed_eq, rfl, rfl, hsource, rfl, rfl⟩

theorem Records.frame (h : s.Records f) (hframe : Frame s t f f') : t.Records f' := by
  obtain ⟨-, hfeed, hfeed', hvalues, -, -, hpublishing, hannounced⟩ := hframe
  constructor
  · rw [hfeed, hfeed']
  · rw [hvalues]
    exact h.sorted
  · rw [hpublishing, hvalues]
    exact h.recorded
  · rw [hpublishing, hannounced]
    exact h.withdrawn
  · rw [hpublishing, hannounced, hvalues]
    exact h.kept

theorem Follows.frame (h : s.Follows f) (hframe : Frame s t f f')
    (hstarted : t.process.loop = .unstarted → s.process.loop = .unstarted)
    (hposition : ∀ position, t.process.loop = .waiting (some position) → position ≤ f.ticks.position)
    (hspread : ∀ trigger cycle id shard values, t.stage = .reading trigger cycle id shard values →
      s.sharding.Spread shard values)
    (hshows : ∀ position, t.process.loop = .waiting (some position) → position < f.ticks.position ∨ t.UpToDate) :
    t.Follows f' := by
  refine ⟨h.toRecords.frame hframe, ?_, ?_, ?_, ?_, ?_⟩
  · rw [hframe.source, hframe.feed, h.source_eq]
  · rw [hframe.announced]
    exact fun hloop => h.unstarted (hstarted hloop)
  · rwa [hframe.ticks]
  · rwa [hframe.sharding]
  · rwa [hframe.ticks]

/-- A move of the loop by which it has read nothing since it was woken. -/
theorem Follows.unread (h : s.Follows f) (hframe : Frame s t f f')
    (hstarted : t.process.loop = .unstarted → s.process.loop = .unstarted)
    (hposition : ∀ position, t.process.loop = .waiting (some position) → position ≤ f.ticks.position)
    (hunread : t.Unread) : t.Follows f' := by
  refine h.frame hframe hstarted hposition (fun trigger cycle id shard values hreading => ?_) fun _ _ =>
    .inr hunread.upToDate
  rw [Unread, hreading] at hunread
  obtain ⟨rfl, rfl⟩ := hunread
  exact Sharding.spread_nil

/-- A move of the loop from which on it waits for no tick. -/
theorem Follows.deaf (h : s.Follows f) (hframe : Frame s t f f') (hstarted : t.process.loop ≠ .unstarted)
    (hloop : ∀ position, t.process.loop ≠ .waiting position)
    (hspread : ∀ trigger cycle id shard values, t.stage = .reading trigger cycle id shard values →
      s.sharding.Spread shard values) : t.Follows f' :=
  h.frame hframe (fun hunstarted => absurd hunstarted hstarted) (fun _ hwaiting => absurd hwaiting (hloop _)) hspread
    fun _ hwaiting => absurd hwaiting (hloop _)

/-! ### Waking -/

theorem Follows.ticks?_eq (h : s.Follows f) {ticks : Channel Tick} {position : Nat}
    (hticks : s.process.ticks? s.engine = some (ticks, position)) :
    s.process.loop = .waiting (some position) ∧ ticks = f.ticks := by
  obtain ⟨hloop, n, f', hsource, hf', rfl⟩ := ticks?_eq_some hticks
  cases hsource.symm.trans h.source_eq
  cases hf'.symm.trans h.feed_eq
  exact ⟨hloop, rfl⟩

theorem Follows.take_eq_some (h : s.Follows f) (htake : s.take = some t) :
    ∃ position, position ≤ f.ticks.position ∧ t = s.atTick position := by
  unfold take at htake
  split at htake
  · next ticks position hticks =>
    obtain ⟨next, hnext, rfl⟩ := Option.map_eq_some_iff.1 htake
    obtain ⟨-, rfl⟩ := h.ticks?_eq hticks
    exact ⟨next.2, (Channel.lt_of_receive?_eq_some hnext).2, rfl⟩
  · cases htake

theorem Follows.atTick (h : s.Follows f) {position : Nat} (hle : position ≤ f.ticks.position) :
    ({ s.atTick position with stage := .draining } : Listening).Follows f :=
  h.unread (h.leaves rfl rfl) nofun (fun _ hloop => by cases hloop; exact hle) trivial

theorem Follows.receive (h : s.Follows f) : s.receive.Follows f := by
  unfold Listening.receive
  split
  · next next _ htake =>
    split
    · exact h
    · obtain ⟨position, hle, rfl⟩ := h.take_eq_some htake
      exact h.atTick hle
  · exact h

theorem Follows.drain (h : s.Follows f) : s.drain.Follows f := by
  unfold Listening.drain
  split
  · next hstage =>
    cases htake : s.take with
    | none => exact h.unread (h.leaves rfl rfl) id h.position_le trivial
    | some next =>
      obtain ⟨position, hle, rfl⟩ := h.take_eq_some htake
      have hdraining : ({ s.atTick position with stage := .draining } : Listening) = s.atTick position := by
        rw [← hstage]
        rfl
      exact hdraining ▸ h.atTick hle
  · exact h

theorem Follows.wake (h : s.Follows f) (w : Process.Wakeup) : (s.wake w).Follows f := by
  unfold Listening.wake
  split
  · split
    · exact h.deaf (h.leaves rfl rfl) nofun nofun h.spread
    split
    · next htick =>
      cases w with
      | trigger => exact h.unread (h.leaves rfl rfl) id h.position_le trivial
      | tick => exact absurd rfl htick.1
      | shutdown => exact h.deaf (h.leaves rfl rfl) nofun nofun h.spread
      | interval => exact h.unread (h.leaves rfl rfl) id h.position_le trivial
    · exact h
  · exact h

/-! ### Running a cycle -/

theorem Follows.begin (h : s.Follows f) : s.begin.Follows f := by
  unfold Listening.begin
  split
  · exact h.unread (h.leaves rfl rfl) id h.position_le trivial
  · exact h

theorem Follows.number (h : s.Follows f) : ∃ f', s.number.Follows f' := by
  unfold Listening.number
  split
  · next hfeed =>
    cases hfeed.symm.trans h.feed_eq
    exact ⟨_, h.unread ⟨rfl, rfl, feed?_putFeed h.feed_eq _, rfl, rfl, rfl, rfl, rfl⟩ id h.position_le ⟨rfl, rfl⟩⟩
  · exact ⟨f, h⟩

/-- Once a shard is read, what has been read of it is what the feed holds. -/
theorem Follows.get?_append (h : s.Follows f) {shard : Nat} {values : List (MarketDataKey × DataValue)}
    (hspread : s.sharding.Spread shard values) (key : MarketDataKey) :
    (Table.ofList (values ++ f.inShard s.sharding shard)).get? key =
      if s.sharding.shard key = shard then f.values.get? key else (Table.ofList values).get? key := by
  refine Option.ext fun value => ?_
  rw [Table.get?_ofList (hspread.append h.sorted).nodup, List.mem_append, Sharding.mem_inShard,
    Table.mem_toList_iff h.sorted]
  split
  · next hshard =>
    have hnot : (key, value) ∉ values := fun hmem => (hspread.shard_lt _ hmem).ne hshard
    rw [or_iff_right hnot, and_iff_left hshard]
  · next hshard =>
    rw [or_iff_left fun hmem => hshard hmem.2, Table.get?_ofList hspread.nodup]

theorem Follows.readShard (h : s.Follows f) {trigger : CycleTrigger} {cycle : Cycle} {id : SnapshotId} {shard : Nat}
    {values : List (MarketDataKey × DataValue)} (hstage : s.stage = .reading trigger cycle id shard values) :
    ({ s with stage := .reading trigger cycle id (shard + 1) (values ++ f.inShard s.sharding shard) } :
      Listening).Follows f := by
  have hspread := h.spread _ _ _ _ _ hstage
  refine h.frame (h.leaves rfl rfl) (fun hloop => hloop) h.position_le (fun _ _ _ _ _ hreading => ?_)
    fun position hloop => (h.shows position hloop).imp_right fun hupToDate key value hvalue shown hshown => ?_
  · cases hreading
    exact hspread.append h.sorted
  -- A key of this shard is settled by what the feed holds now, one of an earlier shard was settled before.
  simp only [shown?] at hshown
  rw [h.get?_append hspread] at hshown
  split at hshown
  · next hlt =>
    cases hshown
    by_cases hshard : s.sharding.shard key = shard
    · rw [if_pos hshard]
      exact h.exists_latest hvalue
    · rw [if_neg hshard]
      refine hupToDate key value hvalue _ ?_
      rw [shown?, hstage]
      exact if_pos (by omega)
  · cases hshown

theorem Follows.seal (h : s.Follows f) {trigger : CycleTrigger} {cycle : Cycle} {id : SnapshotId} {shard : Nat}
    {values : List (MarketDataKey × DataValue)} (hstage : s.stage = .reading trigger cycle id shard values)
    (hall : s.sharding.count ≤ shard) :
    ({ s with stage := .performing trigger cycle (Snapshot.ofValues id values),
              taken := some (Snapshot.ofValues id values) } : Listening).Follows f := by
  obtain ⟨snapshot, hsnapshot, hvalues, -⟩ := Snapshot.ofValues_eq_ok id (h.spread _ _ _ _ _ hstage).nodup
  rw [hsnapshot]
  refine h.frame (h.leaves rfl rfl) (fun hloop => hloop) h.position_le
    (fun _ _ _ _ _ hreading => by cases hreading) fun position hloop =>
      (h.shows position hloop).imp_right fun hupToDate key value hvalue shown hshown => ?_
  have hlt : s.sharding.shard key < shard := (s.sharding.shard_lt key).trans_le hall
  refine hupToDate key value hvalue shown ?_
  rw [shown?, hstage]
  simp only [if_pos hlt, ← hvalues]
  exact hshown

theorem Follows.read (h : s.Follows f) : s.read.Follows f := by
  unfold Listening.read
  split
  · next hstage hfeed =>
    cases hfeed.symm.trans h.feed_eq
    split
    · exact h.readShard hstage
    · next hall => exact h.seal hstage (not_lt.1 hall)
  · exact h

theorem Follows.perform (h : s.Follows f) (stops : Stops) : (s.perform stops).Follows f := by
  unfold Listening.perform
  split
  · next trigger cycle source hstage =>
    obtain ⟨⟨stopping, cyclesRun, notices, hprocess⟩, compiler, cycles, hengine⟩ :=
      s.process.finishCycle_keeps s.engine stops trigger cycle source
    simp only [hprocess, hengine]
    unfold Process.checkLimit
    split
    · refine h.deaf (h.leaves rfl rfl) ?_ ?_ ?_
      · exact fun hloop => by cases hloop
      · exact fun _ hloop => by cases hloop
      · exact fun _ _ _ _ _ hreading => by cases hreading
    · refine h.frame (h.leaves rfl rfl) (fun hloop => hloop) h.position_le
        (fun _ _ _ _ _ hreading => by cases hreading) fun position hloop =>
          (h.shows position hloop).imp_right fun hupToDate key value hvalue shown hshown => ?_
      refine hupToDate key value hvalue shown ?_
      rw [shown?, hstage]
      exact hshown
  · exact h

/-! ### Calls, and what others do -/

/-- A loop that is started begins behind the last tick, and nothing that was announced before counts. -/
theorem Follows.call (h : s.Follows f) (call : Process.Call) : (s.step (.call call)).Follows f := by
  have hsame {process : Process} (hsource : process.source = s.process.source)
      (hloop : process.loop = s.process.loop) : ({ s with process } : Listening).Follows f :=
    h.frame (h.leaves rfl hsource) (hloop ▸ ·)
      (fun position hwaiting => h.position_le position (hloop ▸ hwaiting)) h.spread
      fun position hwaiting => h.shows position (hloop ▸ hwaiting)
  unfold step
  cases call with
  | trigger =>
    simp only [Process.Call.apply, Process.trigger]
    split <;> exact hsame rfl rfl
  | start hosted =>
    simp only [Process.Call.apply, Process.start]
    split
    · exact h
    split
    · next hloop =>
      refine h.frame (h.leaves rfl rfl) (fun hstarted => by cases hstarted)
        (fun position hwaiting => ?_) h.spread fun _ _ => .inr fun key value hvalue => ?_
      · simp only [h.source_eq, Engine.tickPosition?, h.feed_eq, Option.map_some] at hwaiting
        split at hwaiting <;> cases hwaiting
        exact le_rfl
      · cases (h.unstarted hloop key).symm.trans hvalue
    · exact h
  | stop =>
    obtain ⟨stopping, hstop⟩ := s.process.exists_stop
    simp only [Process.Call.apply, hstop]
    exact hsame rfl rfl

theorem Follows.elsewhere (h : s.Follows f) (engine : Engine) (snapshots : Nat) (retained : List CycleId)
    (cyclesRun : Nat) (notices : Channel CycleNotice) :
    ∃ f', (s.elsewhere engine snapshots retained cyclesRun notices).Follows f' := by
  unfold Listening.elsewhere
  split
  · next hfeed =>
    cases hfeed.symm.trans h.feed_eq
    split
    · next hlt =>
      exact ⟨_, h.frame ⟨rfl, rfl, List.getElem?_set_self hlt, rfl, rfl, rfl, rfl, rfl⟩ (fun hloop => hloop)
        h.position_le h.spread h.shows⟩
    · exact ⟨f, h⟩
  · exact ⟨f, h⟩

/-! ## A run -/

theorem Follows.step (h : s.Follows f) (m : Move) : ∃ f', (s.step m).Follows f' := by
  cases m with
  | record key value => exact h.record key value
  | announce key => exact h.announce key
  | remove key => exact h.remove key
  | call call => exact ⟨f, h.call call⟩
  | receive => exact ⟨f, h.receive⟩
  | drain => exact ⟨f, h.drain⟩
  | wake w => exact ⟨f, h.wake w⟩
  | begin => exact ⟨f, h.begin⟩
  | number => exact h.number
  | read => exact ⟨f, h.read⟩
  | perform stops => exact ⟨f, h.perform stops⟩
  | elsewhere engine snapshots retained cyclesRun notices =>
    exact h.elsewhere engine snapshots retained cyclesRun notices

theorem Follows.after (h : s.Follows f) (moves : List Move) : ∃ f', (s.after moves).Follows f' := by
  induction moves generalizing s f with
  | nil => exact ⟨f, h⟩
  | cons m moves ih =>
    obtain ⟨f', h'⟩ := h.step m
    exact ih h'

/-- A loop that waits with no tick ahead has run its last cycle on what was published last, or is being published. -/
theorem Follows.upToDate (h : s.Follows f) {ticks : Channel Tick} {position : Nat}
    (hticks : s.process.ticks? s.engine = some (ticks, position)) (hnone : ticks.receive? position = none) :
    s.UpToDate := by
  obtain ⟨hloop, rfl⟩ := h.ticks?_eq hticks
  exact (h.shows position hloop).resolve_left (not_lt.2 ((Channel.receive?_eq_none_iff ..).1 hnone))

end

/-! ## From the start on -/

section
variable {sharding : Sharding} {feed : Nat} {engine : Engine} {process : Process} {f : LiveData}

theorem follows_start (hfeed : engine.feed? feed = some f) (hsorted : f.values.Sorted)
    (hsource : process.source = .live feed) (hloop : process.loop = .unstarted) :
    ({ sharding, feed, engine, process } : Listening).Follows f where
  feed_eq := hfeed
  sorted := hsorted
  recorded _ _ hp := nomatch hp
  withdrawn _ _ hp := nomatch hp
  kept _ _ hvalue := nomatch hvalue
  source_eq := hsource
  unstarted _ _ := rfl
  position_le _ hwaiting := nomatch hloop.symm.trans hwaiting
  spread _ _ _ _ _ hreading := nomatch hreading
  shows _ hwaiting := nomatch hloop.symm.trans hwaiting

/-- However values are published, removed and announced while a loop goes on, and however many ticks it loses: once it
waits with no tick ahead, the snapshot of its last cycle holds, under each key that was announced since the loop was
started and not removed since, the value that was published last or one that is being published. -/
theorem after_showsLatest (hfeed : engine.feed? feed = some f) (hsorted : f.values.Sorted)
    (hsource : process.source = .live feed) (hloop : process.loop = .unstarted) (moves : List Move)
    {ticks : Channel Tick} {position : Nat} :
    let s := ({ sharding, feed, engine, process } : Listening).after moves
    s.stage = .waiting → s.process.ticks? s.engine = some (ticks, position) → ticks.receive? position = none →
      ∀ key value, s.announced.get? key = some value → ∃ snapshot, s.taken = some (.ok snapshot) ∧
        (snapshot.get? key = some value ∨
          ∃ p, s.publishing.get? key = some p ∧ snapshot.get? key = some p.tick.value) := by
  intro s hstage hticks hnone key value hvalue
  obtain ⟨f', h⟩ := (follows_start hfeed hsorted hsource hloop).after moves
  have hshown : s.shown? key = some (s.holds? key) := by rw [shown?, hstage]
  obtain ⟨w, hw, hlatest⟩ := h.upToDate hticks hnone key value hvalue _ hshown
  obtain ⟨source, htaken, hsource⟩ := Option.bind_eq_some_iff.1 hw
  obtain ⟨snapshot, hsnapshot, hw⟩ := Option.bind_eq_some_iff.1 hsource
  cases source with
  | error err => cases hsnapshot
  | ok snapshot' =>
    cases hsnapshot
    refine ⟨snapshot, htaken, ?_⟩
    rcases hlatest with hlatest | ⟨p, hp, rfl⟩
    · cases hlatest.symm.trans hvalue
      exact .inl hw
    · exact .inr ⟨p, hp, hw⟩

/-! ### A loop that loses ticks -/

def bid : MarketDataKey := ⟨Demo.position 1, "bid"⟩

def ask : MarketDataKey := ⟨Demo.position 1, "ask"⟩

/-- A feed for receivers that fall behind by one tick, with bids in one shard and all else in another. -/
def quotes : Listening :=
  { sharding := ⟨fun key => if key = bid then 0 else 1, 2, fun key => by split <;> decide⟩
    feed := 0
    engine := { Demo.engine with feeds := [.ofCapacity 1] }
    process := { Demo.process with source := .live 0 } }

/-- Three ticks come before the loop takes any. While it reads, one more value is recorded. -/
def quotesMoves : List Move :=
  [.call (.start true), .record bid (.text "1"), .announce bid, .record bid (.text "2"), .announce bid,
    .record ask (.text "3"), .announce ask, .receive, .drain, .drain, .begin, .number, .read,
    .record ask (.text "4"), .read, .read]

theorem ofCapacity_one : LiveData.ofCapacity 1 = { ticks := { capacity := 1 } } := by
  have hone : Nat.nextPowerOfTwo 1 = 1 := by cbv
  simp [LiveData.ofCapacity, Channel.ofCapacity, hone]

/-- A loop without a limit goes on to wait at its place among the ticks. -/
theorem perform_of_unlimited {s : Listening} {trigger : CycleTrigger} {cycle : Cycle}
    {source : Except EngineError Snapshot} (hstage : s.stage = .performing trigger cycle source)
    (hunlimited : s.process.options.maxCycles = none) (stops : Stops) :
    ∃ process engine, s.perform stops = { s with process, engine, stage := .waiting } ∧
      process.ticks? engine = s.process.ticks? s.engine := by
  obtain ⟨⟨stopping, cyclesRun, notices, hprocess⟩, compiler, cycles, hengine⟩ :=
    s.process.finishCycle_keeps s.engine stops trigger cycle source
  refine ⟨_, _, by simp only [Listening.perform, hstage]; rfl, ?_⟩
  rw [hprocess, hengine]
  simp [Process.checkLimit, hunlimited, Process.ticks?, Engine.feed?]

/-- The ask that is in the snapshot is still to be announced. -/
theorem demo_showsLatest :
    let s := quotes.after (quotesMoves ++ [.perform Stops.none])
    s.stage = .waiting ∧ (∃ ticks, s.process.ticks? s.engine = some (ticks, 3) ∧ ticks.receive? 3 = none) ∧
      s.announced.get? ask = some (.text "3") ∧ ∃ snapshot, s.taken = some (.ok snapshot) ∧
        (snapshot.get? ask = some (.text "3") ∨
          ∃ p, s.publishing.get? ask = some p ∧ snapshot.get? ask = some p.tick.value) := by
  intro s
  obtain ⟨trigger, cycle, source, ticks, hstage, hunlimited, hannounced, hticks, hnone⟩ :
      ∃ trigger cycle source ticks, (quotes.after quotesMoves).stage = .performing trigger cycle source ∧
        (quotes.after quotesMoves).process.options.maxCycles = none ∧
        (quotes.after quotesMoves).announced.get? ask = some (.text "3") ∧
        (quotes.after quotesMoves).process.ticks? (quotes.after quotesMoves).engine = some (ticks, 3) ∧
        ticks.receive? 3 = none := by
    rw [quotes, ofCapacity_one]
    exact ⟨_, _, _, _, rfl, rfl, rfl, rfl, rfl⟩
  obtain ⟨process, engine, hperform, hkeeps⟩ := perform_of_unlimited hstage hunlimited Stops.none
  have hs : s = { quotes.after quotesMoves with process, engine, stage := .waiting } :=
    (after_append ..).trans hperform
  have hwaiting : s.stage = .waiting := by rw [hs]
  have hticks' : s.process.ticks? s.engine = some (ticks, 3) := by
    rw [hs]
    exact hkeeps.trans hticks
  have hannounced' : s.announced.get? ask = some (.text "3") := by
    rw [hs]
    exact hannounced
  exact ⟨hwaiting, ⟨ticks, hticks', hnone⟩, hannounced',
    after_showsLatest (f := .ofCapacity 1) rfl Table.sorted_empty rfl rfl _ hwaiting hticks' hnone ask (.text "3")
      hannounced'⟩

end

end Listening
end Valuation
