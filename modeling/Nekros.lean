import Nekros.Words
import Nekros.Errno
import Nekros.Hal
import Nekros.GuardedRun
import Nekros.Spans
import Nekros.LinkChain
import Nekros.LinkRing
import Nekros.Pmm
import Nekros.PmmShape
import Nekros.PmmLoops
import Nekros.PmmSafety
import Nekros.PmmAccounting
import Nekros.Sched
import Nekros.SchedQueues
import Nekros.SchedSteps
import Nekros.SchedAgreement
import Nekros.Syscall
import Nekros.SyscallSteps
import Nekros.ExitFinal
import Nekros.Reentrancy
import Nekros.Pledge
import Nekros.PledgeMemory
import Nekros.UserMemory
import Nekros.UserAccess
import Nekros.X86
import Nekros.SwitchTo
import Nekros.KernelStack
import Nekros.Loops
import Nekros.Bytes
import Nekros.Gf128
import Nekros.Aes
import Nekros.AesGcm
import Nekros.Aes256Gcm
import Nekros.GcmAgreement
import Nekros.CcProc
import Nekros.NonceReuse
import Nekros.Attestation
import Nekros.IpcRuns
import Nekros.IpcDelivery
import Nekros.IpcEndpoints
import Nekros.LinkStack
import Nekros.Slab
import Nekros.SlabHeap
import Nekros.DoubleFree
import Nekros.IsrStubs
import Nekros.Paging
import Nekros.PageTable
import Nekros.PageTableSteps
import Nekros.PageTableRuns
import Nekros.NeriPool
import Nekros.NeriCommit
import Nekros.NeriSched
import Nekros.NeriAdmission
import Nekros.SlotRing
import Nekros.SharedIpc
import Nekros.SharedIpcRuns
import Nekros.SharedIpcMemory
import Nekros.SharedIpcPublish
import Nekros.SharedIpcClose
import Nekros.IpcFds
import Nekros.SecureMemory
import Nekros.SecureFree
import Nekros.Sha256
import Nekros.Coc
import Nekros.Trace
import Nekros.SwitchWindow
import Nekros.TaskReclaim
import Nekros.SealedMemory
import Nekros.Vmalloc
import Nekros.FrameConservation
import Nekros.PmmWindow
import Nekros.DyadicBlocks
import Nekros.PmmBitmap
import Nekros.PmmBuddies
import Nekros.PmmRestore
import Nekros.PmmRestoreRuns
import Nekros.Multiboot2
import Nekros.BootMap
import Nekros.Fips180
import Nekros.Sha256Conforms
import Nekros.Hkdf
import Nekros.BinaryField
import Nekros.Fips197
import Nekros.AesConforms
import Nekros.GhashConforms
import Nekros.NeriSec
import Nekros.NeriAdo
import Nekros.SchedFloor
import Nekros.SchedFairness
import Nekros.ByteFile
import Nekros.Ramfs
import Nekros.Window
import Nekros.IpcFraming
import Nekros.Fixed
import Nekros.Nzra
import Nekros.Neki
import Nekros.NekiWeights
import Nekros.Utb
import Nekros.PmmTiling
import Nekros.PmmFit
import Nekros.SchedPriority
import Nekros.PageRights
import Nekros.PagePermissions
import Nekros.KmallocExtent
import Nekros.Multiboot2Bounds
import Nekros.UtbPower
import Nekros.ThermalHint
import Nekros.Clock
import Nekros.ProcFiles
import Nekros.TicketLock
import Nekros.Paths
import Nekros.VfsTree
import Nekros.Boxes
import Nekros.Floats
import Nekros.NeriScore
import Nekros.NeriEpoch
import Nekros.PrintkLock
import Nekros.CocBinding
import Nekros.IpcAuthentic
