import YGM.Library.Machine
import YGM.Json.Model
import YGM.Json.RoundTrip
import YGM.Comm.Model
import YGM.Comm.Moves
import YGM.Comm.Routing
import YGM.Comm.Conservation
import YGM.Comm.Script
import YGM.Comm.Delivery
import YGM.Comm.Barrier
import YGM.Comm.Cut
import YGM.Comm.Order
import YGM.Library.Tree
import YGM.Reduce.Model
import YGM.Reduce.Lockstep
import YGM.Reduce.AllReduce
import YGM.Library.Multimap
import YGM.Library.Residues
import YGM.Library.Sequential
import YGM.Containers.Local
import YGM.Containers.Program
import YGM.Comm.Outline
import YGM.Comm.Activations
import YGM.Containers.Refinement
import YGM.Containers.Epochs
import YGM.Containers.Topk
import YGM.Counting.Model
import YGM.Counting.Conservation
import YGM.Library.Top
import YGM.Comm.Reductions
import YGM.Comm.Meeting
import YGM.Comm.Pairing
import YGM.Comm.Wire
import YGM.Comm.Bytes
import YGM.Comm.Large
import YGM.Comm.Buffers
import YGM.Comm.Pool
import YGM.Comm.Shutdown
import YGM.Comm.Rendezvous
import YGM.Reduce.Local
import YGM.Comm.Ownership
import YGM.Containers.Traversal
import YGM.Containers.Confluence
import YGM.Containers.Bag
import YGM.Containers.Files
import YGM.Containers.Resize
import YGM.Containers.Reload
import YGM.Comm.Cast
import YGM.Comm.Gather
import YGM.Containers.Lifetime
import YGM.Containers.AllGather
import YGM.Containers.Snapshot
import YGM.Containers.Selection
import YGM.Counting.Flushed
import YGM.Counting.Cache
import YGM.Counting.Snapshot
import YGM.Counting.Queries
import YGM.Comm.Tally
