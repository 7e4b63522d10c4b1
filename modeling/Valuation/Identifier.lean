import Valuation.Text.Hexadecimal
import Valuation.Time.Date

/-!
# Identifiers

Processes, clients, cycles, batches and targets carry text identifiers, each kind a type of its own.
A generated identifier is the scheme of its kind, `~`, and a serial number written as 32 hexadecimal
digits in groups of 8, 4, 4, 4 and 12. Snapshots are named by an observation date and a label.
-/
namespace Valuation

/-! ## Generated texts -/

/-- A serial number in groups of hexadecimal digits. -/
def serialText (n : Nat) : String :=
  "-".intercalate
    [hexDigits 8 (n / Nat.pow 16 24), hexDigits 4 (n / Nat.pow 16 20), hexDigits 4 (n / Nat.pow 16 16),
      hexDigits 4 (n / Nat.pow 16 12), hexDigits 12 n]

/-- A generated identifier of a scheme. -/
def generatedText (scheme : String) (serial : Nat) : String := scheme ++ "~" ++ serialText serial

/-! ## The kinds of identifier -/

structure ProcessId where
  text : String
deriving DecidableEq, Ord, Inhabited

structure ClientId where
  text : String
deriving DecidableEq, Ord, Inhabited

structure CycleId where
  text : String
deriving DecidableEq, Ord, Inhabited

structure BatchId where
  text : String
deriving DecidableEq, Ord, Inhabited

structure TargetId where
  text : String
deriving DecidableEq, Ord, Inhabited

namespace ProcessId

def scheme : String := "ViewProcess"

def generate (serial : Nat) : ProcessId := ⟨generatedText scheme serial⟩

end ProcessId

namespace ClientId

def scheme : String := "ViewClient"

def generate (serial : Nat) : ClientId := ⟨generatedText scheme serial⟩

end ClientId

namespace CycleId

def scheme : String := "ViewCycle"

def generate (serial : Nat) : CycleId := ⟨generatedText scheme serial⟩

end CycleId

namespace BatchId

def scheme : String := "Batch"

def generate (serial : Nat) : BatchId := ⟨generatedText scheme serial⟩

end BatchId

namespace TargetId

def scheme : String := "Target"

def generate (serial : Nat) : TargetId := ⟨generatedText scheme serial⟩

end TargetId

/-! ## Snapshots -/

/-- A date and a label that tells the snapshots of one day apart. -/
structure SnapshotId where
  date : Date
  label : String
deriving DecidableEq, Ord, Inhabited

namespace SnapshotId

/-- The snapshots of live data are numbered. -/
def live (date : Date) (sequence : Nat) : SnapshotId := ⟨date, s!"LIVE-{sequence}"⟩

def display (id : SnapshotId) : String := id.date.display ++ "/" ++ id.label

end SnapshotId
end Valuation
