import PinkyOS.TransitionSystem
import PinkyOS.Program
import PinkyOS.RingBuffer
import PinkyOS.DyadicTiling
import PinkyOS.LinkedIndex
import PinkyOS.ByteBuffer
import PinkyOS.WriteTrace
import PinkyOS.MemoryLayout
import PinkyOS.BuddyHeap
import PinkyOS.BuddyMarks
import PinkyOS.BuddyPartition
import PinkyOS.BuddyGuarantees
import PinkyOS.PageTablePool
import PinkyOS.PageTableStorage
import PinkyOS.DiskLog
import PinkyOS.LogCrash
import PinkyOS.BufferCache
import PinkyOS.CacheCoherence
import PinkyOS.Pipe
import PinkyOS.SleepWakeup
import PinkyOS.SleepInvariants
import PinkyOS.SleepLocks
import PinkyOS.PipeEnds
import PinkyOS.NoLostWakeup
import PinkyOS.LockOrder
import PinkyOS.InterruptMask
import PinkyOS.Ledger
import PinkyOS.UserMemory
import PinkyOS.PageTree
import PinkyOS.FrameOwnership
import PinkyOS.ProcessFrames
import PinkyOS.KernelMap
import PinkyOS.UserBuffers
import PinkyOS.ProcessTable
import PinkyOS.DiskFormat
import PinkyOS.FileSystem
import PinkyOS.FileCalls
import PinkyOS.PointerCount
import PinkyOS.References
import PinkyOS.CallReferences
import PinkyOS.FileReferences
import PinkyOS.CallBalance
import PinkyOS.SlotRefs
import PinkyOS.FileMap
import PinkyOS.Mkfs
import PinkyOS.MkfsImage
import PinkyOS.MkfsFormat
import PinkyOS.FileRead
import PinkyOS.NameLookup
import PinkyOS.MkfsContents
import PinkyOS.BlockOwnership
import PinkyOS.BlockAllocation
import PinkyOS.FileGrowth
import PinkyOS.FileWrite
import PinkyOS.FileContents
import PinkyOS.DataRegion
import PinkyOS.Console
import PinkyOS.ConsoleHistory
import PinkyOS.Sbrk
import PinkyOS.ExecFailure
import PinkyOS.ExecPanics
import PinkyOS.Shell
import PinkyOS.ShellTokens
import PinkyOS.ShellGrammar
import PinkyOS.CircularList
import PinkyOS.SegmentList
import PinkyOS.UserHeap
import PinkyOS.UserHeapRing
import PinkyOS.UserHeapBlocks
import PinkyOS.UserHeapInvariant
import PinkyOS.PageRelease
import PinkyOS.CopyOut
import PinkyOS.MapPages
import PinkyOS.MapUpdate
import PinkyOS.TableAccounting
import PinkyOS.HeapFrames
import PinkyOS.FrameSupply
import PinkyOS.ForkCopy
import PinkyOS.TableGrowth
import PinkyOS.OutOfMemory
import PinkyOS.ExecMemory
import PinkyOS.Gic
import PinkyOS.Grep
import PinkyOS.LibString
import PinkyOS.Printf
import PinkyOS.KernelAddresses
import PinkyOS.Kill
import PinkyOS.UserHeapRequests
import PinkyOS.GrepLines
import PinkyOS.StringScan
import PinkyOS.BuddyLists
import PinkyOS.ContextSwitch
import PinkyOS.HandlerTables
import PinkyOS.PageNavigation
import PinkyOS.DebugScan
