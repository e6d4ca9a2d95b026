import TecnicoFS.Common.Basics
import TecnicoFS.Common.Counting
import TecnicoFS.Common.Directory
import TecnicoFS.Common.Listing
import TecnicoFS.Common.StoreCalls
import TecnicoFS.Lib.BlockMap
import TecnicoFS.Lib.ByteMemory
import TecnicoFS.Lib.FileStore
import TecnicoFS.Lib.Framing
import TecnicoFS.Lib.Linearizability
import TecnicoFS.Lib.LockOrder
import TecnicoFS.Lib.Ownership
import TecnicoFS.Lib.Progress
import TecnicoFS.Lib.Refinement
import TecnicoFS.Lib.Runs
import TecnicoFS.Lib.Steps
import TecnicoFS.Lib.Termination
import TecnicoFS.Parte1.Accesses
import TecnicoFS.Parte1.Allocation
import TecnicoFS.Parte1.Appends
import TecnicoFS.Parte1.BlockCounts
import TecnicoFS.Parte1.Blocks
import TecnicoFS.Parte1.ConcurrentCalls
import TecnicoFS.Parte1.ConcurrentCreation
import TecnicoFS.Parte1.Copying
import TecnicoFS.Parte1.Creation
import TecnicoFS.Parte1.CreationSteps
import TecnicoFS.Parte1.Effects
import TecnicoFS.Parte1.Entries
import TecnicoFS.Parte1.Exports
import TecnicoFS.Parte1.FailedOpens
import TecnicoFS.Parte1.Files
import TecnicoFS.Parte1.Frames
import TecnicoFS.Parte1.FreeBlocks
import TecnicoFS.Parte1.HandleSteps
import TecnicoFS.Parte1.Invariant
import TecnicoFS.Parte1.Isolation
import TecnicoFS.Parte1.Limits
import TecnicoFS.Parte1.LockOrder
import TecnicoFS.Parte1.Locks
import TecnicoFS.Parte1.Names
import TecnicoFS.Parte1.NewEntries
import TecnicoFS.Parte1.OpenSteps
import TecnicoFS.Parte1.Operations
import TecnicoFS.Parte1.Positions
import TecnicoFS.Parte1.Reads
import TecnicoFS.Parte1.Returns
import TecnicoFS.Parte1.RoundTrip
import TecnicoFS.Parte1.Simulation
import TecnicoFS.Parte1.SimulationSteps
import TecnicoFS.Parte1.Sizes
import TecnicoFS.Parte1.Slots
import TecnicoFS.Parte1.SplitWrites
import TecnicoFS.Parte1.State
import TecnicoFS.Parte1.StoreRefinement
import TecnicoFS.Parte1.ThreadSafety
import TecnicoFS.Parte1.Threads
import TecnicoFS.Parte1.Transfers
import TecnicoFS.Parte1.Truncation
import TecnicoFS.Parte1.TwoDisks
import TecnicoFS.Parte1.Writes
import TecnicoFS.Parte2.BlockCounts
import TecnicoFS.Parte2.Blocks
import TecnicoFS.Parte2.Bounds
import TecnicoFS.Parte2.ConcurrentCalls
import TecnicoFS.Parte2.Contents
import TecnicoFS.Parte2.Creation
import TecnicoFS.Parte2.Decoding
import TecnicoFS.Parte2.Delivery
import TecnicoFS.Parte2.DiskLaws
import TecnicoFS.Parte2.Entries
import TecnicoFS.Parte2.Exclusivity
import TecnicoFS.Parte2.GlobalLock
import TecnicoFS.Parte2.Handles
import TecnicoFS.Parte2.Mailbox
import TecnicoFS.Parte2.Malformed
import TecnicoFS.Parte2.Messages
import TecnicoFS.Parte2.Operations
import TecnicoFS.Parte2.Progress
import TecnicoFS.Parte2.ReceiverSteps
import TecnicoFS.Parte2.Remote
import TecnicoFS.Parte2.RemoteCalls
import TecnicoFS.Parte2.Requests
import TecnicoFS.Parte2.Server
import TecnicoFS.Parte2.Service
import TecnicoFS.Parte2.Sessions
import TecnicoFS.Parte2.Shutdown
import TecnicoFS.Parte2.Signals
import TecnicoFS.Parte2.State
import TecnicoFS.Parte2.StoreRefinement
import TecnicoFS.Parte2.Waiting
import TecnicoFS.Parte2.WorkerSteps
import TecnicoFS.TwoParts
