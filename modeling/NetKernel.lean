import NetKernel.Net.Bounds
import NetKernel.Net.RoundTrip
import NetKernel.Net.ChatIntegrity
import NetKernel.Net.Padding
import NetKernel.Net.Handshake
import NetKernel.Net.ReplyStorm
import NetKernel.Net.ArpBindings
import NetKernel.Net.TxRing
import NetKernel.Net.RxRing
import NetKernel.Memory.HeapRuns
import NetKernel.Sched.KernelSemaphore
import NetKernel.Sched.LockOwners
import NetKernel.Sched.WakeUp
import NetKernel.Memory.PhysMem
import NetKernel.Memory.Vmes
import NetKernel.Sched.Scheduler
import NetKernel.Memory.PageTable
import NetKernel.Memory.Fork
import NetKernel.Memory.UserBuffer
import NetKernel.Memory.AddressSpace
import NetKernel.Net.FakeBackend
import NetKernel.Net.RxCompletion
import NetKernel.Files.Ext2
import NetKernel.Files.Descriptors
import NetKernel.Net.Counters
import NetKernel.Memory.ProgramBreak
import NetKernel.Sched.Processes
import NetKernel.Memory.SharedLifetime
import NetKernel.Memory.SharedRegions
import NetKernel.Net.ArpExact
import NetKernel.Net.ArpLru
import NetKernel.Net.ChatRefinement
import NetKernel.Net.FakeTx
import NetKernel.Memory.HeapFit
import NetKernel.Memory.LengthRounding
import NetKernel.Memory.FilePages
import NetKernel.Net.PortTable
import NetKernel.Files.BlockReads
import NetKernel.Files.PathResolution
import NetKernel.Sched.SemaphoreTable
import NetKernel.Sched.OneShot
import NetKernel.Memory.ForkVmes
import NetKernel.Lib.Layers
import NetKernel.Memory.UserMemory
import NetKernel.Memory.ElfLoad
import NetKernel.Sched.IntrusiveQueue
import NetKernel.Net.Checksum
import NetKernel.Net.Corruption
import NetKernel.Files.UserString
import NetKernel.Lib.Tally
import NetKernel.Memory.RefOperations
import NetKernel.Memory.RefCounts
import NetKernel.Memory.RefAccounts
import NetKernel.Memory.RefRuns
import NetKernel.Net.VirtioPci
import NetKernel.Net.BringUpFrames
import NetKernel.Sched.SpinLockStats
import NetKernel.Sched.Traps
import NetKernel.Net.BringUpOrder
import NetKernel.Sched.SpinLockSafety
import NetKernel.Net.Pcie
import NetKernel.Sched.Contexts
import NetKernel.Net.Link
import NetKernel.Memory.ElfExec
import NetKernel.Sched.ForkLatch
