import Jos.Lib.Prog
import Jos.Lib.Run
import Jos.Lib.Linked
import Jos.Lib.RefPool
import Jos.Lib.Ring
import Jos.Lib.LastRef
import Jos.Lib.Bytes
import Jos.Lib.X86
import Jos.Kern.Layout
import Jos.Kern.State
import Jos.Kern.Pmap
import Jos.Kern.Env
import Jos.Kern.Syscall
import Jos.Kern.Trap
import Jos.Kern.Frame
import Jos.Kern.Entry
import Jos.Kern.Control
import Jos.Kern.CtlInv
import Jos.Kern.Boot
import Jos.Kern.RunState
import Jos.Kern.UserMem
import Jos.Kern.Privilege
import Jos.Kern.UserPointers
import Jos.Kern.Refs
import Jos.Kern.PageInv
import Jos.Kern.PageOps
import Jos.Kern.MemInv
import Jos.Kern.UserAcc
import Jos.Kern.MemCalls
import Jos.Kern.MemRun
import Jos.Kern.Isolation
import Jos.Kern.EnvIds
import Jos.Kern.SharedHalf
import Jos.Kern.E1000
import Jos.Kern.Sched
import Jos.Kern.Spinlock
import Jos.Kern.PageInit
import Jos.Kern.FreeList
import Jos.Kern.Lookup
import Jos.Kern.Translate
import Jos.Kern.Insert
import Jos.Kern.Region
import Jos.Kern.MemCheck
import Jos.Kern.EnvFree
import Jos.Kern.Rights
import Jos.Kern.Crash
import Jos.Kern.CheckedAccess
import Jos.Kern.Atomic
import Jos.Kern.Ipc
import Jos.Kern.Kdebug
import Jos.User.Pipe
import Jos.User.Malloc
import Jos.User.MallocSafe
import Jos.User.MallocRefs
import Jos.User.MallocFork
import Jos.User.Pgfault
import Jos.User.Upcall
import Jos.User.InitStack
import Jos.User.MapSegment
import Jos.User.Spawn
import Jos.User.Loaders
import Jos.User.Places
import Jos.User.FdTable
import Jos.User.Dup
import Jos.User.PipeRefs
import Jos.User.SockClose
import Jos.Net.Mbox
import Jos.Net.Serve
import Jos.Fs.OpenFile
import Jos.Fs.Fsipc
import Jos.Fs.Format
import Jos.Fs.BlockCache
import Jos.Fs.BcCoherent
import Jos.Fs.WriteErrors
import Jos.Fs.File
import Jos.Fs.Bitmap
import Jos.Fs.AllocBlock
import Jos.Fs.Cached
import Jos.Fs.Tree
import Jos.Fs.Steps
import Jos.Fs.Blocks
import Jos.Fs.FileOps
import Jos.Fs.Dir
import Jos.Fs.Create
import Jos.Fs.Ownership
import Jos.Fs.Unchanged
import Jos.Fs.Unwritten
import Jos.Fs.Truncate
import Jos.Fs.Paths
import Jos.Fs.Contents
import Jos.Fs.Names
import Jos.Kern.Reorder
import Jos.User.Printnum
import Jos.User.Memmove
