import Valuation.Batch
import Valuation.Processor
import Valuation.Report.Execution
import Valuation.Report.Order

/-!
# Reports on feeds, processes, batches and the processor

Reports that mention cycles are given what stands for a cycle.
-/
namespace Valuation

/-- A message, or how many have been lost. -/
def Received.report {α : Type} (f : α → Json) : Received α → Json
  | .message x => f x
  | .lagged n => .record [("lagged", .nat n)]

def Tick.report (t : Tick) : Json := .list [.nat t.sequence, t.key.report, t.value.report]

def CycleNotice.report (cycle : CycleId → Json) (process : String) (n : CycleNotice) : Json :=
  .list [cycle n.cycle, .text n.state.display, .text n.trigger.display, .text process]

def Process.report (cycle : CycleId → Json) (p : Process) : Json :=
  .record
    [("running", .bool p.isRunning),
      ("cycles_run", .nat p.cyclesRun),
      ("retained", .each cycle p.retained),
      ("latest", .option cycle p.retained.getLast?)]

def BatchRecord.report (cycle : CycleId → Json) (r : BatchRecord) : Json :=
  .record
    [("batch", .text r.batch.text),
      ("attempt", .nat r.attempt),
      ("snapshot", .text r.snapshot.display),
      ("cycle", .option cycle r.cycle),
      ("values", reportMarketData r.snapshotValues),
      ("results", reportValues r.results),
      ("failures", .each (fun f => .list [f.1.report, .text f.2]) r.failures)]

/-- An event, with names for processes and clients. -/
def ProcessorEvent.text (name : String → String) : ProcessorEvent → String
  | .started => "started"
  | .stopped => "stopped"
  | .processAdded id => "process added " ++ name id.text
  | .processRemoved id => "process removed " ++ name id.text
  | .clientAdded id => "client added " ++ name id.text
  | .clientRemoved id => "client removed " ++ name id.text

/-- Whether two events are removals of one kind. Such events may come in any order. -/
def ProcessorEvent.bothRemove : ProcessorEvent → ProcessorEvent → Bool
  | .processRemoved _, .processRemoved _ => true
  | .clientRemoved _, .clientRemoved _ => true
  | _, _ => false

/-- Events in turn; removals of one kind that follow each other are sorted by name. -/
def reportEvents (name : String → String) (events : List ProcessorEvent) : Json :=
  .texts ((events.splitBy ProcessorEvent.bothRemove).flatMap fun group =>
    sortTexts (group.map (·.text name)))

end Valuation
