import Valuation.Binary64.Reader
import Valuation.Decimal.Reader
import Valuation.Document.Lookup
import Valuation.Encoding.Value
import Valuation.Time.Instant

/-!
# Values in scenarios

Scenarios are documents that describe functions, views and market data in a compact way. A target is
its display text, a specification a list of target, name and properties, a key a list of target and
field. A value is a record with one field that tells its case: `f` for floats, `d` for decimals, `t`
for text and `j` for JSON; `missing` stands for itself.
-/
namespace Valuation
namespace Scenario

def kind? (d : Document) : Option TargetKind := d.text?.bind TargetKind.ofText?

def target? (d : Document) : Option Target := d.text?.bind Target.ofText?

def specification? : Document → Option Specification
  | .list [t, n] => do return ⟨← target? t, ← n.text?, ∅⟩
  | .list [t, n, p] => do return ⟨← target? t, ← n.text?, ← Properties.ofDocument? p⟩
  | _ => none

def key? : Document → Option MarketDataKey
  | .list [t, n] => do return ⟨← target? t, ← n.text?⟩
  | _ => none

/-! ## Values -/

/-- A float by its digits, or by its 64 bits after `0x`. -/
def float? (text : String) : Option Float :=
  match text.toList with
  | '0' :: 'x' :: cs =>
    if cs.length = 16 then (hexNumber? cs).map fun n => Float.ofBits (UInt64.ofNat n) else none
  | _ => Binary64.ofText? text

def floatOr? (d : Document) (name default : String) : Option Float := float? (d.textOr name default)

def value? : Document → Option DataValue
  | .text "missing" => some .missing
  | .record [("f", .text s)] => (float? s).map .float
  | .record [("d", .text s)] => (Decimal.ofNumeral? s).map .decimal
  | .record [("t", .text s)] => some (.text s)
  | .record [("j", j)] => j.toJson?.map .json
  | _ => none

def pair? (d : Document) : Option (MarketDataKey × DataValue) := Document.pair? key? value? d

def computed? (d : Document) : Option ComputedValue :=
  (Document.pair? specification? value? d).map fun e => ⟨e.1, e.2⟩

/-! ## Times and names -/

/-- The time of scenarios that give none. -/
def startTime : Instant := ⟨1711584000, 0⟩

def time? (d : Document) (name : String) : Option Instant :=
  (d.readIf? name fun t => t.text?.bind Instant.ofText?).map (·.getD startTime)

def snapshotId? : Option Document → Option SnapshotId
  | some (.list [date, label]) => do return ⟨← Date.ofText? (← date.text?), ← label.text?⟩
  | some _ => none
  | none => some ⟨startTime.date, "TEST"⟩

def user (name : String) : Option String → UserPrincipal
  | some ip => ⟨name, ip⟩
  | none => UserPrincipal.onThisMachine name

end Scenario
end Valuation
