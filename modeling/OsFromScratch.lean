import OsFromScratch.FileServer.Parsing
import OsFromScratch.Lib.CharArray
import OsFromScratch.FileServer.Filesystem
import OsFromScratch.Lib.PathTree
import OsFromScratch.Lib.Protocol
import OsFromScratch.FileServer.Tree
import OsFromScratch.FileServer.NodeUpdate
import OsFromScratch.FileServer.AbstractFs
import OsFromScratch.FileServer.Abstraction
import OsFromScratch.FileServer.Writes
import OsFromScratch.Lib.LockTable
import OsFromScratch.Lib.Ownership
import OsFromScratch.Lib.Runs
import OsFromScratch.FileServer.Invariant
import OsFromScratch.FileServer.Rules
import OsFromScratch.FileServer.Traversal
import OsFromScratch.FileServer.ReadWrite
import OsFromScratch.FileServer.Create
import OsFromScratch.FileServer.Delete
import OsFromScratch.FileServer.Init
import OsFromScratch.FileServer.Server
import OsFromScratch.FileServer.Sequential
import OsFromScratch.FileServer.Refinement
import OsFromScratch.FileServer.FreeList
import OsFromScratch.FileServer.Isolation
import OsFromScratch.FileServer.Concurrency
import OsFromScratch.FileServer.Networking
import OsFromScratch.FileServer.Locking
import OsFromScratch.FileServer.Directories
import OsFromScratch.Pager.Page
import OsFromScratch.Pager.VmPager
import OsFromScratch.Pager.Invariant
import OsFromScratch.Pager.Moves
import OsFromScratch.Pager.Attachment
import OsFromScratch.Pager.Clock
import OsFromScratch.Pager.Fault
import OsFromScratch.Pager.Names
import OsFromScratch.Pager.Mapping
import OsFromScratch.Pager.Processes
import OsFromScratch.Pager.Destroy
import OsFromScratch.Pager.Machine
import OsFromScratch.Pager.Runs
import OsFromScratch.Pager.SwapSpace
import OsFromScratch.Pager.Registry
import OsFromScratch.Pager.Structure
import OsFromScratch.Pager.Leak
import OsFromScratch.Pager.Current
import OsFromScratch.Pager.PhysicalMemory
import OsFromScratch.Threads.Code
import OsFromScratch.Threads.Machine
import OsFromScratch.Threads.Invariant
import OsFromScratch.Threads.Scheduling
import OsFromScratch.Threads.Steps
import OsFromScratch.Threads.Discipline
import OsFromScratch.Threads.Places
import OsFromScratch.Threads.Mutexes
import OsFromScratch.Threads.Queues
import OsFromScratch.Threads.Wraparound
import OsFromScratch.Threads.HandOff
import OsFromScratch.Threads.ConditionVariables
import OsFromScratch.Threads.Join
import OsFromScratch.Threads.Idle
import OsFromScratch.FileServer.Failures
import OsFromScratch.FileServer.Safety
import OsFromScratch.Lib.WriteBack
import OsFromScratch.Pager.Contents
import OsFromScratch.Pager.Coherence
import OsFromScratch.Pager.Forking
import OsFromScratch.Pager.Eviction
import OsFromScratch.Pager.Memory
import OsFromScratch.Pager.Lookup
import OsFromScratch.Pager.Refinement
import OsFromScratch.Pager.Sharing
import OsFromScratch.FileServer.Reservation
import OsFromScratch.FileServer.Connections
import OsFromScratch.FileServer.Recovery
import OsFromScratch.FileServer.Protection
import OsFromScratch.Lib.WaitsFor
import OsFromScratch.Threads.Deadlock
import OsFromScratch.Threads.GuardSections
import OsFromScratch.Threads.ReadyQueue
import OsFromScratch.Lib.Mirror
import OsFromScratch.Pager.Transparency
import OsFromScratch.Lib.Fairness
import OsFromScratch.Threads.Liveness
import OsFromScratch.Threads.Progress
import OsFromScratch.Lib.ClockQueue
import OsFromScratch.Pager.WorkingSet
