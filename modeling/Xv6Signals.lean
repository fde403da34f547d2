import Xv6Signals.Lib.Bits
import Xv6Signals.Lib.Except
import Xv6Signals.Lib.Machine
import Xv6Signals.Lib.Memory
import Xv6Signals.Proc
import Xv6Signals.Signals
import Xv6Signals.Lifecycle
import Xv6Signals.Delivery
import Xv6Signals.HandlerTable
import Xv6Signals.HandlerMap
import Xv6Signals.Syscall
import Xv6Signals.TrapSteps
import Xv6Signals.UserFrame
import Xv6Signals.HandlerReturn
import Xv6Signals.Nesting
import Xv6Signals.Pending
import Xv6Signals.ProcTable.Machine
import Xv6Signals.ProcTable.Roles
import Xv6Signals.ProcTable.Transitions
import Xv6Signals.ProcTable.Writes
import Xv6Signals.ProcTable.Control
import Xv6Signals.ProcTable.Views
import Xv6Signals.ProcTable.Invariant
import Xv6Signals.ProcTable.KernelStack
import Xv6Signals.ProcTable.Threads
import Xv6Signals.ProcTable.Channels
import Xv6Signals.ProcTable.Wakeup
import Xv6Signals.ProcTable.Reaping
import Xv6Signals.ProcTable.Parents
import Xv6Signals.ProcTable.Pids
import Xv6Signals.ProcTable.Frozen
import Xv6Signals.ProcTable.Stopped
import Xv6Signals.ProcTable.Fresh
import Xv6Signals.ProcTable.Killed
import Xv6Signals.ProcTable.Allocation
import Xv6Signals.Interrupts.Machine
import Xv6Signals.Interrupts.Sched
import Xv6Signals.Lib.Overwrite
import Xv6Signals.Log.Machine
import Xv6Signals.Log.Buffers
import Xv6Signals.Log.Recovery
import Xv6Signals.Log.Reservation
import Xv6Signals.Lib.Wp
import Xv6Signals.Lib.Ghost
import Xv6Signals.Lib.Bytes
import Xv6Signals.Fs.Inode
import Xv6Signals.Fs.Calls
import Xv6Signals.Fs.Files
import Xv6Signals.Fs.Volume
import Xv6Signals.Fs.Edit
import Xv6Signals.Fs.Names
import Xv6Signals.Fs.Blocks
import Xv6Signals.Fs.Mkfs
import Xv6Signals.Fs.Contents
import Xv6Signals.Fs.Quiet
import Xv6Signals.Fs.Refs
import Xv6Signals.Fs.Rules
import Xv6Signals.Fs.CallRefs
import Xv6Signals.Fs.FileRefs
import Xv6Signals.Fs.Descriptors
import Xv6Signals.Fs.Machine
import Xv6Signals.Fs.Free
import Xv6Signals.Fs.Cache
import Xv6Signals.Fs.Boot
import Xv6Signals.Fs.Directory
import Xv6Signals.Fs.Lookup
import Xv6Signals.Fs.Effects
import Xv6Signals.Fs.LinkCalls
import Xv6Signals.Fs.UnlinkCalls
import Xv6Signals.Fs.CreateCalls
import Xv6Signals.Fs.OtherCalls
import Xv6Signals.Fs.LogBound
import Xv6Signals.Fs.Ownership
import Xv6Signals.Fs.Failure
import Xv6Signals.Lib.Slots
import Xv6Signals.Fs.Entries
import Xv6Signals.Fs.DirMap
import Xv6Signals.Fs.SharedWrite
import Xv6Signals.BlockedSignals
import Xv6Signals.DefaultActions
import Xv6Signals.Registration
import Xv6Signals.HandlerFork
import Xv6Signals.Kill
import Xv6Signals.DeliveryBounds
import Xv6Signals.Lib.Ring
import Xv6Signals.Pipe
import Xv6Signals.Console
import Xv6Signals.Shell.Lexer
import Xv6Signals.Shell.Parser
import Xv6Signals.Shell.Grammar
import Xv6Signals.Shell.Pointers
import Xv6Signals.Shell.Nulterminate
import Xv6Signals.Shell.Run
import Xv6Signals.Lib.Spans
import Xv6Signals.Lib.Circle
import Xv6Signals.Umalloc.Heap
import Xv6Signals.Umalloc.FreeList
import Xv6Signals.Umalloc.Sound
import Xv6Signals.Lib.Places
import Xv6Signals.Vm.Paging
import Xv6Signals.Vm.Ownership
import Xv6Signals.Vm.Mappings
import Xv6Signals.Vm.Tables
import Xv6Signals.Vm.Release
import Xv6Signals.Vm.Isolation
import Xv6Signals.Vm.Build
import Xv6Signals.Vm.MapPages
import Xv6Signals.Vm.Grow
import Xv6Signals.Vm.Copyout
import Xv6Signals.Vm.CopyoutExact
import Xv6Signals.Vm.Exec
import Xv6Signals.Vm.ExecLog
import Xv6Signals.Vm.ExecImage
import Xv6Signals.Vm.ExecStack
import Xv6Signals.Vm.ExecCall
import Xv6Signals.Vm.ExecRestores
import Xv6Signals.Vm.ExecLoads
import Xv6Signals.Vm.ExecArgs
import Xv6Signals.Vm.Growproc
import Xv6Signals.Vm.GrowExact
import Xv6Signals.Vm.ForkCopy
import Xv6Signals.Fs.Paths
import Xv6Signals.Fs.ChunkBound
import Xv6Signals.Lib.Dlist
import Xv6Signals.Bio.Cache
import Xv6Signals.Bio.Lru
import Xv6Signals.Bio.Ide
import Xv6Signals.Bio.Coherence
import Xv6Signals.Bio.Exhaustion
import Xv6Signals.ArgChecks
import Xv6Signals.Vm.Boot
import Xv6Signals.Vm.Processes
import Xv6Signals.Vm.Accounts
import Xv6Signals.Vm.AddressSpaces
import Xv6Signals.Vm.Separation
import Xv6Signals.Vm.PageAccounts
import Xv6Signals.Umalloc.Requests
import Xv6Signals.Grep.Match
import Xv6Signals.Lib.Copy
import Xv6Signals.Memmove
import Xv6Signals.Grep.Lines
import Xv6Signals.Mp
