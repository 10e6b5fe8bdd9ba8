import Potatoes.Lib.Prog
import Potatoes.Lib.Bytes
import Potatoes.Lib.Owns
import Potatoes.Fs.Model.Types
import Potatoes.Fs.Model.State
import Potatoes.Fs.Model.BlockDev
import Potatoes.Fs.Model.ReadWrite
import Potatoes.Fs.Model.Tables
import Potatoes.Fs.Model.Dir
import Potatoes.Fs.Model.Files
import Potatoes.Fs.Model.Main
import Potatoes.Fs.Objects.Slot
import Potatoes.Fs.Objects.Object
import Potatoes.Fs.Objects.Content
import Potatoes.Fs.Objects.Directory
import Potatoes.Fs.Objects.Path
import Potatoes.Fs.Objects.Tree
import Potatoes.Fs.Objects.Entries
import Potatoes.Fs.Theorems.Bmap
import Potatoes.Fs.Theorems.Alloc
import Potatoes.Fs.Theorems.Lookup
import Potatoes.Fs.BmapBuffer
import Potatoes.Fs.Theorems.Transfer
import Potatoes.Fs.Theorems.Sound
import Potatoes.Fs.Theorems.Held
import Potatoes.Fs.Theorems.Update
import Potatoes.Fs.Theorems.GetDataBlock
import Potatoes.Fs.Theorems.ReadWrite
import Potatoes.Fs.Theorems.Cut
import Potatoes.Fs.Theorems.Shrink
import Potatoes.Fs.Theorems.Tree
import Potatoes.Fs.Theorems.Search
import Potatoes.Fs.Theorems.Insert
import Potatoes.Fs.Theorems.Create
import Potatoes.Fs.Theorems.Delete
import Potatoes.Fs.Theorems.Table
import Potatoes.Fs.Theorems.OpenClose
import Potatoes.Fs.Theorems.Calls
import Potatoes.Fs.Theorems.Writes
import Potatoes.Fs.Theorems.Reads
import Potatoes.Fs.Theorems.Truncate
import Potatoes.Fs.Theorems.Tail
import Potatoes.Fs.Theorems.CreateDelete
import Potatoes.Fs.Theorems.Format
import Potatoes.Lib.Queue
import Potatoes.Ring.Model
import Potatoes.Ring.Theorems
import Potatoes.Ring.Calls
import Potatoes.Lib.Circular
import Potatoes.Lib.Runs
import Potatoes.Fs.Model.ProcFiles
import Potatoes.Pm.Model
import Potatoes.Pm.Machine
import Potatoes.Pm.Theorems.Procs
import Potatoes.Pm.Theorems.Schedule
import Potatoes.Pm.Theorems.Kernel
import Potatoes.Lib.RoundRobin
import Potatoes.Pm.Theorems.RoundRobin
import Potatoes.Pm.Theorems.Stdin
import Potatoes.Pm.Theorems.Monitors
import Potatoes.Pm.Theorems.Walk
import Potatoes.Lib.Lens
import Potatoes.Sys.Model
import Potatoes.Sys.Theorems.Descriptors
import Potatoes.Fs.Theorems.OpenFiles
import Potatoes.Fs.Theorems.Paths
import Potatoes.Sys.Theorems.Open
import Potatoes.Sys.Theorems.Reads
import Potatoes.Sys.Theorems.Files
import Potatoes.Lib.Brainfuck
import Potatoes.Bf.Model
import Potatoes.Io.HardDisk
import Potatoes.Fs.Chips
import Potatoes.Fs.Sectors
import Potatoes.Fs.PathSplit
import Potatoes.Fs.Theorems.Names
import Potatoes.Fs.Theorems.Histories
import Potatoes.Fs.Theorems.Volume
import Potatoes.Lib.Contents
import Potatoes.Fs.Theorems.Contents
import Potatoes.Lib.FileTree
import Potatoes.Fs.Theorems.Namespace
import Potatoes.Fs.Theorems.Refinement
import Potatoes.Fs.Theorems.Restart
import Potatoes.Fs.Listing
import Potatoes.Sys.Theorems.Unlink
import Potatoes.Mm.Frames
import Potatoes.Mm.Boot
import Potatoes.Sync.Model
import Potatoes.Sync.Semaphore
import Potatoes.Sync.Demo
import Potatoes.Lib.Stocks
import Potatoes.Sync.Factory
import Potatoes.Lib.Memory
import Potatoes.Lib.BlockList
import Potatoes.Lib.Sections
import Potatoes.Mm.Heap
import Potatoes.Mm.Headers
import Potatoes.Mm.Paging
import Potatoes.Mm.WorstFit
import Potatoes.Fs.Theorems.Descent
import Potatoes.Str.Model
import Potatoes.Str.Numbers
import Potatoes.Str.Printf
import Potatoes.Str.Tokens
import Potatoes.Apps.Synthesizer
import Potatoes.Apps.Editor
import Potatoes.Shell.Exec
import Potatoes.Io.Rtc
import Potatoes.Io.Keyboard
import Potatoes.Io.VirtMonitor
import Potatoes.Io.Cells
import Potatoes.Io.Screen
import Potatoes.Io.Scrolling
import Potatoes.Bf.Tape
import Potatoes.Bf.Data
import Potatoes.Bf.Loops
import Potatoes.Bf.Session
import Potatoes.Lib.BrainfuckMachine
import Potatoes.Bf.Streaming
import Potatoes.Lib.Jumps
import Potatoes.Mm.Identity
import Potatoes.Mm.Stdlib
import Potatoes.Mm.Allocation
import Potatoes.Mm.Requests
