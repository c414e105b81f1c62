import BochsOs.Library.Bytes
import BochsOs.Library.Prog
import BochsOs.Library.Blocking
import BochsOs.Library.Waiting
import BochsOs.Library.Follows
import BochsOs.Library.Exacting
import BochsOs.Library.Outcome
import BochsOs.Library.Runs
import BochsOs.Library.Strings
import BochsOs.Library.Numerals
import BochsOs.Lib.String
import BochsOs.Lib.Stdio
import BochsOs.Lib.Rendering
import BochsOs.Library.Shelf
import BochsOs.Library.Unwinding
import BochsOs.Library.Ring
import BochsOs.Kernel.Bitmap
import BochsOs.Kernel.BitmapScan
import BochsOs.Kernel.State
import BochsOs.Kernel.Heap
import BochsOs.Kernel.Malloc
import BochsOs.Kernel.Paging
import BochsOs.Kernel.MemInit
import BochsOs.Kernel.LargeBlocks
import BochsOs.Kernel.PageMaps
import BochsOs.Kernel.PageRuns
import BochsOs.Kernel.PagesBack
import BochsOs.Kernel.SelfMap
import BochsOs.Device.Ide
import BochsOs.Device.Ioqueue
import BochsOs.Device.Partition
import BochsOs.Device.DiskScans
import BochsOs.Fs.Alloc
import BochsOs.Fs.Inode
import BochsOs.Fs.Dir
import BochsOs.Fs.File
import BochsOs.Fs.Path
import BochsOs.Fs.Syscall
import BochsOs.Thread.Thread
import BochsOs.Thread.Pid
import BochsOs.Thread.Scheduler
import BochsOs.Userprog.Process
import BochsOs.Userprog.SameProcs
import BochsOs.Userprog.WakeUp
import BochsOs.Userprog.Scheduling
import BochsOs.Userprog.ProcessTree
import BochsOs.Userprog.Lifetime
import BochsOs.Userprog.ForkFails
import BochsOs.Userprog.HeapIsolation
import BochsOs.Userprog.Exec
import BochsOs.Userprog.ExecPages
import BochsOs.Userprog.ExecImage
import BochsOs.Fs.Format
import BochsOs.Fs.Frame
import BochsOs.Fs.OpenFiles
import BochsOs.Fs.OneWriter
import BochsOs.Fs.OpenCounts
import BochsOs.Fs.Handles
import BochsOs.Fs.InodeHeap
import BochsOs.Userprog.Descriptors
import BochsOs.Shell.Pipe
import BochsOs.Shell.PipeCounts
import BochsOs.Shell.DescriptorCalls
import BochsOs.Fs.Stdout
import BochsOs.Shell.PipeBlocking
import BochsOs.Shell.Pipeline
import BochsOs.Thread.Lock
import BochsOs.Kernel.PoolLocks
import BochsOs.Device.SharedQueue
import BochsOs.Device.Keyboard
import BochsOs.Library.Words
import BochsOs.Library.Places
import BochsOs.Library.Chains
import BochsOs.Lib.KernelList
import BochsOs.Lib.Print
import BochsOs.Library.NameTree
import BochsOs.Fs.Lookup
import BochsOs.Fs.Search
import BochsOs.Fs.Resolve
import BochsOs.Fs.PathAsserts
import BochsOs.Fs.InodeTable
import BochsOs.Fs.IoBuf
import BochsOs.Fs.DirBlocks
import BochsOs.Fs.DirSync
import BochsOs.Fs.FormatBounds
import BochsOs.Fs.Install
import BochsOs.Fs.DirDelete
import BochsOs.Fs.DirRuns
import BochsOs.Fs.DirAdd
import BochsOs.Fs.DirFind
import BochsOs.Fs.DirRemove
import BochsOs.Fs.DirRead
import BochsOs.Fs.FileBlocks
import BochsOs.Fs.FilePositions
import BochsOs.Fs.FileRead
import BochsOs.Fs.FileWrite
import BochsOs.Fs.Cwd
import BochsOs.Fs.PathCalls
import BochsOs.Shell.PathParse
import BochsOs.Shell.NameBuffer
import BochsOs.Shell.PathBytes
import BochsOs.Shell.CmdParse
import BochsOs.Shell.CmdRun
import BochsOs.Shell.Readline
import BochsOs.Fs.AppendOnly
import BochsOs.Fs.FileSizes
import BochsOs.Fs.FullDisk
import BochsOs.Library.Relocation
import BochsOs.C4.Vm
import BochsOs.C4.Lexer
import BochsOs.C4.Compiler
import BochsOs.C4.Syntax
import BochsOs.C4.Codegen
import BochsOs.C4.Semantics
import BochsOs.C4.Pieces
import BochsOs.C4.Calls
import BochsOs.C4.CodegenRuns
import BochsOs.C4.Tokens
import BochsOs.C4.Spelling
import BochsOs.C4.Emission
import BochsOs.C4.ParseExpr
import BochsOs.C4.ParseStmt
import BochsOs.C4.ParseFunction
import BochsOs.C4.ParseProgram
import BochsOs.C4.Correctness
