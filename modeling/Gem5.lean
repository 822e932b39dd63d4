import Gem5.Fusion.Macc
import Gem5.Decode.Window
import Gem5.Commit.Count
import Gem5.Rename.Release
import Gem5.Rename.Folding
import Gem5.Rob.Capacity
import Gem5.Squash.Isolation
import Gem5.Lsq.Forward
import Gem5.Lsq.Violation
import Gem5.MemDep.StoreSet
import Gem5.Issue.Port
import Gem5.Issue.Arbitration
import Gem5.Issue.Dispatch
import Gem5.Issue.Accounts
import Gem5.L2.Retry
import Gem5.L2.Pipe
import Gem5.Issue.Wakeup
import Gem5.Issue.Squash
import Gem5.Trace.Termination
import Gem5.Trace.Encode
import Gem5.Trace.Fetch
import Gem5.Mmu.Fence
import Gem5.Fusion.Misalign
import Gem5.Rename.Eliminate
import Gem5.Rename.Core
import Gem5.Rename.Demand
import Gem5.Rename.Undo
import Gem5.Bpu.Folded
import Gem5.Bpu.RasRecovery
import Gem5.Bpu.Ahead
import Gem5.Decode.Stall
import Gem5.Decode.PredTaken
import Gem5.Rob.Walk
import Gem5.Lsq.Completed
import Gem5.Lsq.Books
import Gem5.ValuePred.Window
import Gem5.ValuePred.Stride
import Gem5.Fusion.AluBr
