import Carmor.Proofs.PinBalance
import Carmor.Proofs.Resident
import Carmor.Proofs.ThreadTlb
import Carmor.Proofs.FrameMap
import Carmor.Proofs.Transparency
import Carmor.Proofs.AllocFailure
import Carmor.Proofs.HeapCalls
import Carmor.Proofs.AllocPairing
import Carmor.Proofs.UniformDispatch
import Carmor.Proofs.Memmove
import Carmor.Proofs.BulkResidency
import Carmor.Proofs.SixFrames
import Carmor.Proofs.ResidencyLoss
import Carmor.Proofs.ValidIterations
import Carmor.Proofs.HandleTable
import Carmor.CommentTool
import Carmor.Proofs.PartitionCompleteness
import Carmor.Proofs.MachineSeparation
import Carmor.Lib.SourceText
import Carmor.Proofs.ConfinedRemoval
import Carmor.Proofs.Placement
import Carmor.Proofs.StoreIsolation
import Carmor.Lib.BlockWrite
import Carmor.Proofs.DirectStore
import Carmor.Proofs.DirectWrites
import Carmor.Proofs.DirectReads
import Carmor.Proofs.StorageCache
import Carmor.Proofs.PagedStore
import Carmor.Proofs.CrossPage
import Carmor.Proofs.LostUpdate
import Carmor.Lib.Blocks
import Carmor.Proofs.BlockHeap
import Carmor.Proofs.PagedHeap
import Carmor.Proofs.Realloc
import Carmor.Proofs.DirtyBits
import Carmor.Proofs.EntryWidths
import Carmor.Lib.Align
import Carmor.Proofs.Memalign
import Carmor.Proofs.LinkedSingle
import Carmor.Proofs.Memset
import Carmor.Proofs.Memchr
import Carmor.Proofs.Lengths
import Carmor.Proofs.RequestSizes
import Carmor.Proofs.ReadOnly
import Carmor.Proofs.DirectCapacity
import Carmor.Lib.Refinement
import Carmor.Lib.MixedBoolean
import Carmor.Passes.Ir
import Carmor.Passes.Refinement
import Carmor.Passes.Mba
import Carmor.Proofs.MixedBoolean
import Carmor.Lib.RootedTree
import Carmor.Lib.Dominance
import Carmor.Passes.Runs
import Carmor.Lib.Simulation
import Carmor.Passes.Riv
import Carmor.Passes.DuplicateBB
import Carmor.Proofs.Riv
import Carmor.Passes.Renaming
import Carmor.Passes.Clones
import Carmor.Passes.CallCounter
import Carmor.Passes.Splitting
import Carmor.Proofs.CallCounter
import Carmor.Proofs.DuplicateBB
import Carmor.Proofs.StaticCallCounter
import Carmor.HashTable
import Carmor.Lib.LinkedList
import Carmor.Lib.OrderedMap
import Carmor.Proofs.HashChains
import Carmor.Proofs.HashExpand
import Carmor.Proofs.HashRuns
