import Valuation.Channel
import Valuation.Snapshot

/-!
# Live data

A feed holds the latest value of each key and announces every value as a tick. Publishing is recording
the value and then announcing it; other operations may come between the two. A snapshot of a feed is
sealed at once, so the values in it never change.
-/
namespace Valuation

/-- The announcement of a value. -/
structure Tick where
  key : MarketDataKey
  value : DataValue
  sequence : Nat

structure LiveData where
  values : Table MarketDataKey DataValue := ∅
  /-- The number of values published so far. -/
  sequence : Nat := 0
  /-- The number of snapshots taken so far. -/
  snapshots : Nat := 0
  ticks : Channel Tick

namespace LiveData

/-- More ticks than a receiver commonly falls behind. -/
def defaultCapacity : Nat := 1024

/-- A feed without values, for receivers that fall behind by at most so many ticks. -/
def ofCapacity (n : Nat) : LiveData := { ticks := .ofCapacity n }

/-- Records a value as the latest one of its key. -/
def record (f : LiveData) (key : MarketDataKey) (value : DataValue) : Tick × LiveData :=
  let sequence := f.sequence + 1
  (⟨key, value, sequence⟩, { f with values := f.values.insert key value, sequence })

/-- Announces a value that has been recorded. -/
def announce (f : LiveData) (t : Tick) : LiveData := { f with ticks := f.ticks.send t }

/-- Publishes a value; answers its number. -/
def publish (f : LiveData) (key : MarketDataKey) (value : DataValue) : Nat × LiveData :=
  let (t, f) := f.record key value
  (t.sequence, f.announce t)

def publishAll (f : LiveData) (values : List (MarketDataKey × DataValue)) : LiveData :=
  values.foldl (fun f e => (f.publish e.1 e.2).2) f

/-- Forgets a key; answers its value. -/
def remove (f : LiveData) (key : MarketDataKey) : Option DataValue × LiveData :=
  (f.values.get? key, { f with values := f.values.erase key })

/-- The latest value of a key. -/
def latest? (f : LiveData) (key : MarketDataKey) : Option DataValue := f.values.get? key

/-- A sealed snapshot of the latest values. -/
def snapshot (f : LiveData) (today : Date) : Except EngineError Snapshot × LiveData :=
  let snapshots := f.snapshots + 1
  (Snapshot.ofValues (SnapshotId.live today snapshots) f.values.toList, { f with snapshots })

end LiveData

/-! ## Sources of snapshots -/

/-- Where the cycles of a process take their snapshots from. -/
inductive SnapshotSource where
  | unavailable
  /-- Always the same snapshot. -/
  | fixed (snapshot : Snapshot)
  /-- A feed of the engine, by its number. -/
  | live (feed : Nat)

end Valuation
