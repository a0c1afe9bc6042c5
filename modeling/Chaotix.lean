import Chaotix.Lib.Transition
import Chaotix.Lib.Program
import Chaotix.Lib.BitSet
import Chaotix.Lib.LinkedList
import Chaotix.Lib.NodeList
import Chaotix.Lib.Segments
import Chaotix.Lib.FileBytes
import Chaotix.Lib.CellRing
import Chaotix.Lib.Count
import Chaotix.Lib.Damage
import Chaotix.Lib.RefCount
import Chaotix.Lib.ByteMem
import Chaotix.Lib.Numeral
import Chaotix.Lib.Fields
import Chaotix.Lib.Zipper
import Chaotix.Lib.EvictingQueue
import Chaotix.Kernel.Base
import Chaotix.Kernel.Lock
import Chaotix.Kernel.Scheduler
import Chaotix.Kernel.Signals
import Chaotix.Kernel.PageAllocator
import Chaotix.Kernel.Paging
import Chaotix.Kernel.PageDirectory
import Chaotix.Kernel.KernelHeap
import Chaotix.Kernel.RangeAllocator
import Chaotix.Kernel.GrowableBuf
import Chaotix.Kernel.Kmalloc
import Chaotix.Kernel.TmpfsFile
import Chaotix.Kernel.SharedWrite
import Chaotix.Kernel.Directory
import Chaotix.Kernel.Path
import Chaotix.Kernel.Vfs
import Chaotix.Kernel.Lseek
import Chaotix.Kernel.RingBuf
import Chaotix.Kernel.Fifo
import Chaotix.Kernel.SocketQueue
import Chaotix.Kernel.SocketStream
import Chaotix.Kernel.FileDescriptors
import Chaotix.Kernel.Fork
import Chaotix.Kernel.SocketCalls
import Chaotix.Kernel.DescriptionAccess
import Chaotix.Kernel.ExecStack
import Chaotix.Kernel.Stdio
import Chaotix.Kernel.BufPrintf
import Chaotix.Kernel.FbConsole
import Chaotix.Kernel.Getdents
import Chaotix.Kernel.ProcessTable
import Chaotix.Kernel.ProcfsRoot
import Chaotix.Kernel.NonBlocking
import Chaotix.Kernel.Hid
import Chaotix.Userland.Dirent
import Chaotix.Userland.Sh
import Chaotix.Userland.ShGrammar
import Chaotix.Userland.LineEditor
import Chaotix.Proofs.LockOwnership
import Chaotix.Proofs.PageExclusivity
import Chaotix.Proofs.BootMemory
import Chaotix.Proofs.SchedulerQueue
import Chaotix.Proofs.DyingProcesses
import Chaotix.Proofs.DirectoryListing
import Chaotix.Proofs.ListingRuns
import Chaotix.Proofs.ProcListing
import Chaotix.Proofs.ProcessList
import Chaotix.Proofs.WaitReaping
import Chaotix.Proofs.WaitAnswers
import Chaotix.Proofs.NonBlockingCalls
import Chaotix.Proofs.PipeStream
import Chaotix.Proofs.PipeEnds
import Chaotix.Proofs.AcceptQueue
import Chaotix.Proofs.PagingSpec
import Chaotix.Proofs.Bystanders
import Chaotix.Proofs.KmallocSpec
import Chaotix.Proofs.KmallocCalls
import Chaotix.Proofs.KreallocSpec
import Chaotix.Proofs.HeapBlocks
import Chaotix.Proofs.HeapResizing
import Chaotix.Proofs.RangeSpec
import Chaotix.Proofs.RangeConservation
import Chaotix.Proofs.MappingSpec
import Chaotix.Proofs.MappingFailure
import Chaotix.Proofs.DeviceMapping
import Chaotix.Proofs.BufferSpec
import Chaotix.Proofs.BufferBounds
import Chaotix.Proofs.FileContents
import Chaotix.Proofs.SharedMappings
import Chaotix.Proofs.SharedAppend
import Chaotix.Proofs.ExclusiveCreation
import Chaotix.Proofs.SocketStreams
import Chaotix.Proofs.ShellParser
import Chaotix.Proofs.DescriptorCounts
import Chaotix.Proofs.AccessModes
import Chaotix.Proofs.SocketRefs
import Chaotix.Proofs.ExecArguments
import Chaotix.Proofs.KernelSlots
import Chaotix.Proofs.ConsoleRedraw
import Chaotix.Proofs.ConsoleBounds
import Chaotix.Proofs.HeapSpec
import Chaotix.Proofs.ForkResidue
import Chaotix.Proofs.CanonicalPaths
import Chaotix.Proofs.LseekLaw
import Chaotix.Proofs.Dup2Law
import Chaotix.Proofs.KillLaw
import Chaotix.Proofs.StdioSpec
import Chaotix.Proofs.PrintfBounds
import Chaotix.Proofs.PrintfText
import Chaotix.Proofs.BufferPrinting
import Chaotix.Proofs.CsiParameters
import Chaotix.Proofs.LineEditing
import Chaotix.Proofs.PromptRedraw
import Chaotix.Proofs.InputQueues
import Chaotix.Proofs.KeyModifiers
import Chaotix.Lib.Periods
import Chaotix.Kernel.Time
import Chaotix.Userland.Time
import Chaotix.Proofs.CalendarRoundTrip
import Chaotix.Proofs.ClockDecoding
import Chaotix.Lib.TerminatedString
import Chaotix.Kernel.CString
import Chaotix.Proofs.BlockFunctions
import Chaotix.Proofs.StringSpec
import Chaotix.Proofs.StringTokens
import Chaotix.Proofs.StringFunctions
import Chaotix.Kernel.CommandLine
import Chaotix.Proofs.CommandLine
import Chaotix.Proofs.SchedulerUnregister
import Chaotix.Userland.Environment
import Chaotix.Proofs.EnvironmentLookup
import Chaotix.Lib.Rearrangement
import Chaotix.Kernel.Qsort
import Chaotix.Proofs.SortedArrays
import Chaotix.Lib.ExactReturn
import Chaotix.Kernel.Ac97
import Chaotix.Proofs.SoundBuffers
import Chaotix.Userland.Play
import Chaotix.Proofs.QoaFrames
import Chaotix.Lib.Preorder
import Chaotix.Kernel.Pci
import Chaotix.Proofs.PciTree
import Chaotix.Lib.QoiFormat
import Chaotix.Userland.ImgView
import Chaotix.Proofs.QoiImages
import Chaotix.Lib.Agreement
import Chaotix.Proofs.PathAgreement
import Chaotix.Lib.ObjectGraph
import Chaotix.Kernel.VfsCalls
import Chaotix.Proofs.InodeAccounting
import Chaotix.Proofs.WalkReferences
import Chaotix.Proofs.TreeChanges
import Chaotix.Proofs.FileCalls
import Chaotix.Lib.Forking
import Chaotix.Userland.ShRun
import Chaotix.Userland.ShMeaning
import Chaotix.Proofs.CommandMeaning
import Chaotix.Userland.ShSession
import Chaotix.Proofs.TableEffects
import Chaotix.Proofs.ShellSessions
import Chaotix.Proofs.ShellPipelines
