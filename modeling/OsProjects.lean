import OsProjects.C.Execution
import OsProjects.C.Array
import OsProjects.C.Heap
import OsProjects.C.Ownership
import OsProjects.C.LinkedList
import OsProjects.C.Iteration
import OsProjects.C.Numeral
import OsProjects.C.Stream
import OsProjects.C.Words
import OsProjects.Theory.SafeSequence
import OsProjects.Theory.Interleaving
import OsProjects.Theory.Ring
import OsProjects.Theory.Replacement
import OsProjects.Theory.Selection
import OsProjects.Theory.Sorting
import OsProjects.Theory.ForkJoin
import OsProjects.Theory.Turnaround
import OsProjects.Theory.Paging
import OsProjects.Banker.Model
import OsProjects.Banker.SafetyTest
import OsProjects.Banker.Request
import OsProjects.Banker.Release
import OsProjects.Banker.Run
import OsProjects.Banker.Accounting
import OsProjects.Banker.DeadlockFreedom
import OsProjects.Banker.ArrivalOrder
import OsProjects.Banker.CallLaws
import OsProjects.Banker.CommandLoop
import OsProjects.Banker.Session
import OsProjects.ThreadPool.Model
import OsProjects.ThreadPool.HandOver
import OsProjects.ThreadPool.Shutdown
import OsProjects.ThreadPool.Record
import OsProjects.ThreadPool.AcceptedWork
import OsProjects.ThreadPool.Client
import OsProjects.BoundedBuffer.Model
import OsProjects.BoundedBuffer.Conservation
import OsProjects.BoundedBuffer.Correctness
import OsProjects.BoundedBuffer.Shutdown
import OsProjects.Allocator.Model
import OsProjects.Allocator.Extents
import OsProjects.Allocator.Request
import OsProjects.Allocator.Release
import OsProjects.Allocator.Compact
import OsProjects.Allocator.Run
import OsProjects.Allocator.Region
import OsProjects.Allocator.Packing
import OsProjects.Allocator.Reclaiming
import OsProjects.Allocator.ReleaseOrder
import OsProjects.Allocator.Placement
import OsProjects.Allocator.CommandLoop
import OsProjects.Allocator.Ownership
import OsProjects.Allocator.Names
import OsProjects.Allocator.NameOwnership
import OsProjects.VirtualMemory.Model
import OsProjects.VirtualMemory.Translation
import OsProjects.VirtualMemory.Ownership
import OsProjects.VirtualMemory.DemandPaging
import OsProjects.VirtualMemory.FrameQueue
import OsProjects.VirtualMemory.PagingPolicy
import OsProjects.VirtualMemory.CounterWrap
import OsProjects.VirtualMemory.TlbQueue
import OsProjects.VirtualMemory.Competitive
import OsProjects.VirtualMemory.PhysicalAddress
import OsProjects.VirtualMemory.InputFile
import OsProjects.VirtualMemory.Report
import OsProjects.Scheduling.Model
import OsProjects.Scheduling.TaskList
import OsProjects.Scheduling.NonPreemptive
import OsProjects.Scheduling.RoundRobin
import OsProjects.Scheduling.Rounds
import OsProjects.Scheduling.CpuTime
import OsProjects.Scheduling.Levels
import OsProjects.Scheduling.ServiceOrder
import OsProjects.Scheduling.Turnaround
import OsProjects.Scheduling.Driver
import OsProjects.Scheduling.TaskFile
import OsProjects.Sorting.Model
import OsProjects.Sorting.Merge
import OsProjects.Sorting.Correctness
import OsProjects.Sorting.MergeAccesses
import OsProjects.Sorting.Transcript
import OsProjects.ForkJoinSort.Model
import OsProjects.ForkJoinSort.Slices
import OsProjects.ForkJoinSort.OrdinarySort
import OsProjects.ForkJoinSort.MergeSort
import OsProjects.ForkJoinSort.QuickSort
import OsProjects.ProcEntry.Model
import OsProjects.ProcEntry.Readers
import OsProjects.Shell.Model
import OsProjects.Shell.Children
import OsProjects.Shell.Tokens
import OsProjects.Shell.Leftovers
import OsProjects.Shell.Redirection
import OsProjects.Shell.Rendering
import OsProjects.Shell.Arguments
import OsProjects.Shell.Waiting
import OsProjects.Shell.Processes
import OsProjects.Shell.Pipeline
import OsProjects.Shell.TokenRuns
import OsProjects.Shell.RedirectionScan
import OsProjects.Shell.EmptyCommands
import OsProjects.Shell.CommandLoop
import OsProjects.Shell.TokenHeap
import OsProjects.Shell.TokenOwnership
import OsProjects.CommandLoops
