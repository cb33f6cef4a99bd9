import Harvest.Lib.Run
import Harvest.Lib.Select
import Harvest.Breaker.State
import Harvest.Breaker.Fence
import Harvest.Breaker.Phases
import Harvest.Breaker.Claims
import Harvest.Fairness.Clock
import Harvest.Fairness.Shares
import Harvest.Fairness.Debt
import Harvest.Json
import Harvest.Event
import Harvest.Codec.Envelope
import Harvest.Codec.Registry
import Harvest.Codec.Rotation
import Harvest.Codec.EventWire
import Harvest.Codec.Stored
import Harvest.Lib.SelfDelimiting
import Harvest.Audit.Record
import Harvest.Audit.Signed
import Harvest.Audit.Chain
import Harvest.Audit.Exporter
import Harvest.Audit.Paging
import Harvest.Audit.Verify
import Harvest.Lib.U32
import Harvest.GroupCommit.Plan
import Harvest.GroupCommit.Lane
import Harvest.GroupCommit.Batch
import Harvest.Mesh.Mandate
import Harvest.Mesh.Tree
import Harvest.Mesh.Spending
import Harvest.Wasm.Journal
import Harvest.Wasm.Resume
import Harvest.Lib.Gaps
import Harvest.Audit.Retention
import Harvest.Lib.Dominance
import Harvest.Verify.Mir
import Harvest.Verify.Taint
import Harvest.Verify.Summary
import Harvest.Verify.Sanitizer
import Harvest.Lib.SkipList
import Harvest.Replay.Roles
import Harvest.Replay.ScanIndex
import Harvest.Replay.Stash
import Harvest.Replay.Matcher
import Harvest.Replay.Opening
import Harvest.Replay.Matching
import Harvest.Replay.Refine
import Harvest.Lib.Settle
import Harvest.Lib.Civil
import Harvest.Replay.Memo
import Harvest.Replay.Probe
import Harvest.Replay.Mail
import Harvest.Replay.Calls
import Harvest.Replay.Race
import Harvest.Replay.Serving
import Harvest.Replay.Delivery
import Harvest.Lib.Inserted
import Harvest.Replay.Ahead
import Harvest.Replay.Sequential
import Harvest.Replay.Superseded
import Harvest.Replay.Redriven
import Harvest.Replay.Gates
import Harvest.Replay.Front
import Harvest.Replay.Gated
import Harvest.Replay.ScanRuns
import Harvest.Lib.Slots
import Harvest.Replay.Slotted
import Harvest.Codec.Reencrypt
import Harvest.Codec.Lossy
import Harvest.Dst.Store
import Harvest.Lib.Walk
import Harvest.Scheduler.Catchup
import Harvest.Scope.Replay
import Harvest.Agent.Names
import Harvest.Agent.Workspace
import Harvest.Keyed.Checkpoint
import Harvest.Keyed.Loop
import Harvest.Shard.Router
import Harvest.Shard.SearchPath
import Harvest.Lib.Escaped
import Harvest.Lib.Heights
import Harvest.Dag.Task
import Harvest.Dag.Build
import Harvest.Dag.CriticalPath
import Harvest.Dag.Walk
import Harvest.Dag.Unwind
import Harvest.Lib.Ledger
import Harvest.Lib.Nesting
import Harvest.Reset.Boundary
import Harvest.Reset.Fork
import Harvest.Reset.Resolve
import Harvest.Lib.Runs
import Harvest.Reset.Serve
import Harvest.Reset.Hold
import Harvest.Owner.Balance
import Harvest.Calendar.BusinessDays
import Harvest.Lib.Components
import Harvest.Verify.Cycles
import Harvest.Lib.Spread
import Harvest.Verify.Control
import Harvest.Lib.Checks
import Harvest.Lib.Worklist
import Harvest.Verify.FlowGraph
import Harvest.Verify.Saga
import Harvest.Verify.Flow
import Harvest.Lib.FirstIndex
import Harvest.Replay.Updates
import Harvest.Lib.Capped
import Harvest.RetryBudget.Bucket
import Harvest.RetryBudget.Session
import Harvest.RetryBudget.Tokens
import Harvest.RetryBudget.Refund
import Harvest.RetryBudget.Slots
import Harvest.Lib.Splice
import Harvest.Agent.Redact
import Harvest.RunChain.Assemble
import Harvest.RunChain.Legacy
import Harvest.Diagnosis.Activity
import Harvest.Diagnosis.Execution
import Harvest.Lib.Tally
import Harvest.AdaptiveLimit.Limiter
import Harvest.AdaptiveLimit.Registry
import Harvest.Lib.JsonGrammar
import Harvest.Wasm.Accepted
import Harvest.Lib.Lines
import Harvest.Archive.Segments
import Harvest.Archive.ReadBack
import Harvest.Lib.Semaphore
import Harvest.SlotTuner.Pool
import Harvest.SlotTuner.Runtime
import Harvest.SlotTuner.Conservation
import Harvest.Agent.Flow
import Harvest.Agent.Dedupe
import Harvest.Export.Measure
import Harvest.Lib.Rank
import Harvest.Agent.Anon
import Harvest.Lib.Decimal
import Harvest.Agent.Vote
import Harvest.Lib.Grown
import Harvest.Overlay.Log
import Harvest.Overlay.Store
import Harvest.Overlay.Clients
import Harvest.Overlay.Runs
import Harvest.Filter.Number
import Harvest.Filter.Lex
import Harvest.Filter.Anchor
import Harvest.Filter.Sql
