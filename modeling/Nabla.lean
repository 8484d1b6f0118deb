import Nabla.Lib.Keyed
import Nabla.Lib.Sections
import Nabla.Lib.Related
import Nabla.Lib.Window
import Nabla.Datum
import Nabla.Pgoutput
import Nabla.Definition
import Nabla.Apply
import Nabla.Aggregate
import Nabla.Source
import Nabla.Lsn
import Nabla.Catalog
import Nabla.Worker
import Nabla.Join
import Nabla.Storage
import Nabla.Wire
import Nabla.Mirror
import Nabla.Planning
import Nabla.Absorption
import Nabla.PhaseOne
import Nabla.PhaseTwo
import Nabla.History
import Nabla.Round
import Nabla.Incremental
import Nabla.Slot
import Nabla.Delivery
import Nabla.Trace
import Nabla.Isolation
import Nabla.Naming
import Nabla.Dependents
import Nabla.Batching
import Nabla.Partition
import Nabla.Lib.Grouping
import Nabla.Pending
import Nabla.Regroup
import Nabla.Client
import Nabla.Subscription
import Nabla.Populate
import Nabla.Changes
import Nabla.DeltaLog
import Nabla.Idle
import Nabla.Pages
import Nabla.ReadYourWrites
import Nabla.Api
import Nabla.Descriptions
import Nabla.Lifecycle
import Nabla.Standing
import Nabla.Feeding
import Nabla.Lib.Refcount
import Nabla.References
import Nabla.Decode
import Nabla.Discard
import Nabla.Races
import Nabla.Retries
import Nabla.Rebuild
import Nabla.Unchanged
import Nabla.Lib.Netting
import Nabla.Netting
import Nabla.Drift
import Nabla.Identity
import Nabla.Projections
import Nabla.Upkeep
import Nabla.Lineage
import Nabla.Extension
import Nabla.Framing
import Nabla.Reassembly
import Nabla.Serde
import Nabla.Transport
import Nabla.Undoing
import Nabla.Lib.SqlName
import Nabla.Lib.Assignments
import Nabla.Quoting
import Nabla.Flattening
import Nabla.Lib.Saturation
import Nabla.Sharing
import Nabla.HiddenKeys
import Nabla.KeyIndexes
import Nabla.SlotLoss
import Nabla.Resnapshot
import Nabla.Layout
import Nabla.LsnText
import Nabla.Blocked
import Nabla.Reuse
import Nabla.Columns
import Nabla.Nodes
import Nabla.Query
import Nabla.Validate
import Nabla.Accepted
import Nabla.Shapes
import Nabla.Meaning
import Nabla.Result
import Nabla.Fitting
import Nabla.Equalities
import Nabla.Lib.Copies
import Nabla.Deltas
import Nabla.Epochs
import Nabla.Lib.Editions
import Nabla.Histories
import Nabla.Serving
import Nabla.Sequences
import Nabla.Moments
import Nabla.Replica
import Nabla.Subscribers
