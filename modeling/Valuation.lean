import Valuation.Batch
import Valuation.Binary64.Layout
import Valuation.Binary64.Reader
import Valuation.Binary64.Rounding
import Valuation.Binary64.Shortest
import Valuation.Channel
import Valuation.Config
import Valuation.Cycle
import Valuation.Decimal.Basic
import Valuation.Decimal.Binary
import Valuation.Decimal.Reader
import Valuation.Definition
import Valuation.Demo
import Valuation.Document.Basic
import Valuation.Document.Fields
import Valuation.Document.Lookup
import Valuation.Encoding.Batch
import Valuation.Encoding.Canonical
import Valuation.Encoding.Config
import Valuation.Encoding.Definition
import Valuation.Encoding.Execution
import Valuation.Encoding.Settings
import Valuation.Encoding.Value
import Valuation.Engine
import Valuation.Error
import Valuation.Execution.Cache
import Valuation.Execution.Invocation
import Valuation.Execution.Run
import Valuation.Execution.Strategy
import Valuation.Function.Basic
import Valuation.Function.Formula
import Valuation.Function.Repository
import Valuation.Graph.Availability
import Valuation.Graph.Basic
import Valuation.Graph.Build
import Valuation.Graph.Compiler
import Valuation.Graph.Search
import Valuation.Identifier
import Valuation.Json.Basic
import Valuation.Json.Reader
import Valuation.LiveData
import Valuation.OrderedSet
import Valuation.Permission
import Valuation.Process
import Valuation.Processor
import Valuation.Report.Execution
import Valuation.Report.Graph
import Valuation.Report.Order
import Valuation.Report.Service
import Valuation.Report.Value
import Valuation.ResultModel
import Valuation.Scenario.Function
import Valuation.Scenario.Service
import Valuation.Scenario.Session
import Valuation.Scenario.Setup
import Valuation.Scenario.Value
import Valuation.Snapshot
import Valuation.Specification
import Valuation.Table
import Valuation.Target
import Valuation.Text.Blank
import Valuation.Text.Hexadecimal
import Valuation.Time.Date
import Valuation.Time.Instant
import Valuation.Toml.Number
import Valuation.Toml.Reader
import Valuation.Toml.Text
import Valuation.Toml.Tree
import Valuation.Value
import Valuation.Proofs.Result
import Valuation.Proofs.Table
import Valuation.Proofs.Specification
import Valuation.Proofs.Search.DepthFirst
import Valuation.Proofs.Search.TopologicalOrder
import Valuation.Proofs.Graph.Nodes
import Valuation.Proofs.Graph.Resolution
import Valuation.Proofs.Graph.Edges
import Valuation.Proofs.Graph.Compilation
import Valuation.Proofs.Cycle
import Valuation.Proofs.Demo
import Valuation.Proofs.Graph.Compiler
import Valuation.Proofs.Search.BreadthFirst
import Valuation.Proofs.Search.Distance
import Valuation.Proofs.Graph.Runnable
import Valuation.Proofs.Graph.Downstream
import Valuation.Proofs.Execution.Evaluation
import Valuation.Proofs.Execution.Cache
import Valuation.Proofs.Execution.Yield
import Valuation.Proofs.Execution.Run
import Valuation.Proofs.Execution.Progress
import Valuation.Proofs.Execution.Journal
import Valuation.Proofs.Execution.Work
import Valuation.Proofs.Execution.Strategy
import Valuation.Proofs.Execution.Outcome
import Valuation.Proofs.Execution.Accounting
import Valuation.Proofs.Execution.Calls
import Valuation.Proofs.ResultModel
import Valuation.Proofs.Graph.Reuse
import Valuation.Proofs.Snapshot
import Valuation.Proofs.Execution.Cancellation
import Valuation.Proofs.Engine
import Valuation.Proofs.Batch.Session
import Valuation.Proofs.Batch.Invariant
import Valuation.Proofs.Batch.Reproduction
import Valuation.Proofs.Batch.Ending
import Valuation.Proofs.Batch.Recording
import Valuation.Proofs.Permission
import Valuation.Proofs.Process
import Valuation.Proofs.Execution.Dispatch
import Valuation.Proofs.Execution.Truncation
import Valuation.Proofs.Filing
import Valuation.Proofs.Graph.Cycles
import Valuation.Proofs.Batch.Attempts
import Valuation.Proofs.Identifier
import Valuation.Proofs.Processor.Session
import Valuation.Proofs.Processor.Looping
import Valuation.Proofs.Processor.Registry
import Valuation.Proofs.Processor.Runs
import Valuation.Proofs.Processor.Deregistration
import Valuation.Proofs.Latest
import Valuation.Proofs.Graph.Eviction
import Valuation.Proofs.Retention
import Valuation.Proofs.Processor.Operation
import Valuation.Proofs.Processor.Events
import Valuation.Proofs.Processor.Attachment
import Valuation.Proofs.Execution.Moments
import Valuation.Proofs.Execution.Blame
import Valuation.Proofs.Execution.Tracing
import Valuation.Proofs.Execution.Bookkeeping
import Valuation.Proofs.Availability
import Valuation.Proofs.Execution.Reading
import Valuation.Proofs.Execution.Isolation
import Valuation.Proofs.Listening
import Valuation.Proofs.Updates
import Valuation.Proofs.Stepwise
import Valuation.Proofs.Additions
import Valuation.Proofs.Fingerprint
import Valuation.Proofs.History
import Valuation.Proofs.Graph.Consulting
import Valuation.Proofs.Json.Reading
import Valuation.Proofs.Encoding.Records
import Valuation.Proofs.Encoding.RoundTrip
