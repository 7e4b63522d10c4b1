import Valuation.Batch
import Valuation.Encoding.Definition

/-!
# Encoding batches

Jobs, their status and the records that are saved of them.
-/
namespace Valuation

namespace BatchJob

def toJson (j : BatchJob) : Json :=
  .record
    [("batch_id", .text j.batch.text), ("snapshot_id", j.snapshot.toJson),
      ("valuation_time", j.valuationTime.toJson)]

def ofDocument? (d : Document) : Option BatchJob := do
  let fs ← d.fields? ["batch_id", "snapshot_id", "valuation_time"]
  let batch ← fs.required "batch_id" Document.text?
  let snapshot ← fs.required "snapshot_id" SnapshotId.ofDocument?
  let valuationTime ← fs.required "valuation_time" Instant.ofDocument?
  return ⟨⟨batch⟩, snapshot, valuationTime⟩

end BatchJob

namespace BatchStatus

def toJson (s : BatchStatus) : Json := .text s.display

def ofDocument? : Document → Option BatchStatus :=
  Document.plainCase? (all.map fun s => (s.display, s))

end BatchStatus

namespace BatchRecord

def toJson (r : BatchRecord) : Json :=
  .record
    [("batch_id", .text r.batch.text),
      ("attempt", .int r.attempt),
      ("snapshot_id", r.snapshot.toJson),
      ("cycle_id", match r.cycle with
        | some c => .text c.text
        | none => .null),
      ("snapshot_values", .list (r.snapshotValues.map fun e => .list [e.1.toJson, e.2.toJson])),
      ("results", .list (r.results.map ComputedValue.toJson)),
      ("failures", .list (r.failures.map fun e => .list [e.1.toJson, .text e.2])),
      ("started_at", r.startedAt.toJson),
      ("ended_at", r.endedAt.toJson)]

def ofDocument? (d : Document) : Option BatchRecord := do
  let fs ← d.fields?
    ["batch_id", "attempt", "snapshot_id", "cycle_id", "snapshot_values", "results", "failures",
      "started_at", "ended_at"]
  let batch ← fs.required "batch_id" Document.text?
  let attempt ← fs.required "attempt" (Document.nat? (Nat.pow 2 32))
  let snapshot ← fs.required "snapshot_id" SnapshotId.ofDocument?
  let cycle ← fs.withDefault "cycle_id" none (Document.option? Document.text?)
  let snapshotValues ← fs.required "snapshot_values"
    (Document.items? (Document.pair? MarketDataKey.ofDocument? DataValue.ofDocument?))
  let results ← fs.required "results" (Document.items? ComputedValue.ofDocument?)
  let failures ← fs.required "failures"
    (Document.items? (Document.pair? Specification.ofDocument? Document.text?))
  let startedAt ← fs.required "started_at" Instant.ofDocument?
  let endedAt ← fs.required "ended_at" Instant.ofDocument?
  return {
    batch := ⟨batch⟩, attempt, snapshot, cycle := cycle.map CycleId.mk, snapshotValues, results, failures,
    startedAt, endedAt }

end BatchRecord
end Valuation
