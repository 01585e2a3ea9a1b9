import FlatMpt.Normalize
import FlatMpt.CodecRound
import FlatMpt.Expand
import FlatMpt.StoreInv
import FlatMpt.System
import FlatMpt.OwnedCalls
import FlatMpt.Relocate
import FlatMpt.Reclaim
import FlatMpt.SimulateBlock
import FlatMpt.SimulateBatch
import FlatMpt.Inline
import FlatMpt.Parts
import FlatMpt.Interleave
import FlatMpt.Holders
import FlatMpt.Counts
import FlatMpt.Placement
import FlatMpt.Manifest
import FlatMpt.Steady
import FlatMpt.Schedules
import FlatMpt.Spill
import FlatMpt.EthState
import FlatMpt.CodeRuns
import FlatMpt.Binding
import FlatMpt.History
import FlatMpt.Malformed
import FlatMpt.Deletes
import FlatMpt.Lookups
import FlatMpt.Refines
import FlatMpt.SlotWalks
import FlatMpt.Scans
import FlatMpt.Roots
import FlatMpt.Rollback
import FlatMpt.Audit
import FlatMpt.Audited
import FlatMpt.Form
import FlatMpt.Loads
import FlatMpt.Lib.Branches
import FlatMpt.SlotNodes
import FlatMpt.Revealed
import FlatMpt.SlotReveals
