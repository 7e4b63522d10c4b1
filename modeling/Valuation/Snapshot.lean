import Valuation.Error
import Valuation.Graph.Availability
import Valuation.Time.Instant
import Valuation.Value

/-!
# Market data snapshots

A snapshot moves through four states. While `open`, any value may be added. Fixing its time freezes
the eligible keys, those that have or expect a value; from then on only they may be added. It is
`complete` as soon as every eligible key has a value, and `sealed` for good when it is marked
complete. A value once added stays.
-/
namespace Valuation

inductive SnapshotState where
  | opened
  | fixed
  | complete
  | sealed
deriving DecidableEq, Ord, Inhabited

namespace SnapshotState

def all : List SnapshotState := [.opened, .fixed, .complete, .sealed]

def display : SnapshotState → String
  | .opened => "Open"
  | .fixed => "Fixed"
  | .complete => "Complete"
  | .sealed => "Sealed"

/-- How far the state has come. -/
def rank : SnapshotState → Nat
  | .opened => 0
  | .fixed => 1
  | .complete => 2
  | .sealed => 3

/-- Whether a state has been reached. -/
def reaches (s goal : SnapshotState) : Bool := goal.rank ≤ s.rank

end SnapshotState

structure Snapshot where
  id : SnapshotId
  state : SnapshotState := .opened
  values : Table MarketDataKey DataValue := ∅
  expected : OrderedSet MarketDataKey := ∅
  /-- The keys that may have a value, once the time is fixed. -/
  eligible : Option (OrderedSet MarketDataKey) := none
  asOf : Option Instant := none
  /-- How often the state has been set; whoever watches the snapshot compares it. -/
  transitions : Nat := 0
deriving Inhabited

namespace Snapshot

def new (id : SnapshotId) : Snapshot := { id }

/-! ## Reading -/

def isSealed (s : Snapshot) : Bool := s.state = .sealed

def get? (s : Snapshot) (key : MarketDataKey) : Option DataValue := s.values.get? key

def size (s : Snapshot) : Nat := s.values.size

def isEmpty (s : Snapshot) : Bool := s.values.isEmpty

/-- The keys that wait for a value: eligible ones, and expected ones before the time is fixed. -/
def missingKeys (s : Snapshot) : List MarketDataKey :=
  (s.eligible.getD s.expected).toList.filter fun k => !s.values.contains k

/-- Whether the time is fixed and every eligible key has a value. -/
def allEligibleValued (s : Snapshot) : Bool :=
  match s.eligible with
  | none => false
  | some keys => keys.toList.all fun k => s.values.contains k

/-! ## Writing -/

def transition (s : Snapshot) (state : SnapshotState) : Snapshot :=
  { s with state, transitions := s.transitions + 1 }

def invalidState (s : Snapshot) (action : String) : EngineError :=
  .invalidSnapshotState s.id ("cannot " ++ action ++ " in state " ++ s.state.display)

/-- Expects values for keys. -/
def expectKeys (s : Snapshot) (keys : List MarketDataKey) : Except EngineError Snapshot :=
  if s.state ≠ .opened then .error (s.invalidState "expect keys after fixing")
  else .ok { s with expected := s.expected.insertAll keys }

/-- The first key of a list that may not be added: one that has a value already or comes a second
time, or one that is not eligible. -/
def firstRefusal (s : Snapshot) : (seen : List MarketDataKey) → List MarketDataKey → Option EngineError
  | _, [] => none
  | seen, k :: rest =>
    if s.values.contains k ∨ k ∈ seen then some (.duplicateSnapshotValue s.id k)
    else
      match s.eligible with
      | some eligible =>
        if eligible.contains k then firstRefusal s (k :: seen) rest
        else some (.unknownSnapshotKey s.id k)
      | none => firstRefusal s (k :: seen) rest

/-- Adds all values, or none of them if one may not be added. -/
def addValues (s : Snapshot) (values : List (MarketDataKey × DataValue)) : Except EngineError Snapshot :=
  if s.state = .sealed then .error (.snapshotSealed s.id)
  else
    match s.firstRefusal [] (values.map (·.1)) with
    | some e => .error e
    | none =>
      let s := { s with values := s.values.insertAll values }
      .ok (if s.state = .fixed ∧ s.allEligibleValued then s.transition .complete else s)

/-- Fixes the time that the values are as of, and with it the eligible keys. -/
def fixTime (s : Snapshot) (asOf : Instant) : Except EngineError Snapshot :=
  if s.state ≠ .opened then .error (s.invalidState "fix time twice")
  else
    let eligible := (OrderedSet.ofList s.values.keys).insertAll s.expected.toList
    let s := { s with eligible := some eligible, asOf := some asOf }.transition .fixed
    .ok (if s.allEligibleValued then s.transition .complete else s)

/-- Seals the snapshot. -/
def markComplete (s : Snapshot) : Except EngineError Snapshot :=
  if s.state = .sealed then .error (s.invalidState "mark complete twice")
  else .ok (s.transition .sealed)

/-- A sealed snapshot of given values. -/
def ofValues (id : SnapshotId) (values : List (MarketDataKey × DataValue)) : Except EngineError Snapshot := do
  let s ← (new id).addValues values
  s.markComplete

/-! ## Availability -/

/-- A key is available if it has or expects a value or is eligible. -/
def isAvailable (s : Snapshot) (key : MarketDataKey) : Bool :=
  s.values.contains key || s.expected.contains key
    || match s.eligible with
      | none => false
      | some keys => keys.contains key

/-- Keys with a value, expected keys and eligible keys together. -/
def fingerprint (s : Snapshot) : Fingerprint :=
  let keys := (OrderedSet.ofList s.values.keys).insertAll s.expected.toList
  match s.eligible with
  | none => keys.toList
  | some eligible => (keys.insertAll eligible.toList).toList

def availability (s : Snapshot) : Availability := ⟨s.isAvailable, s.fingerprint⟩

end Snapshot
end Valuation
