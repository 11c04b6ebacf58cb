import SBUnix.Lib.Steps
import SBUnix.Lib.FrontRequeue
import SBUnix.Lib.CString
import SBUnix.Paging.Alloc
import SBUnix.Paging.PageWalk
import SBUnix.Paging.FreshPage
import SBUnix.Paging.Heap
import SBUnix.Paging.AddressSpace
import SBUnix.Paging.UserAccess
import SBUnix.Paging.Boot
import SBUnix.Paging.BootRounds
import SBUnix.Paging.BootList
import SBUnix.Paging.FreeListExact
import SBUnix.Paging.Intact
import SBUnix.Paging.Zeroed
import SBUnix.Paging.SelfContained
import SBUnix.Paging.BootTables
import SBUnix.Paging.BootMap
import SBUnix.Paging.BootSpace
import SBUnix.Paging.TwoPaths
import SBUnix.Paging.FailedAlloc
import SBUnix.Paging.Window
import SBUnix.Paging.BootKeeps
import SBUnix.Sched.Model
import SBUnix.Sched.ReadyList
import SBUnix.Sched.Events
import SBUnix.Sched.Integrity
import SBUnix.Sched.Starvation
import SBUnix.Sched.Context
import SBUnix.Process.Model
import SBUnix.Process.Pages
import SBUnix.Process.Copy
import SBUnix.Process.Ready
import SBUnix.Process.Areas
import SBUnix.Process.FileArea
import SBUnix.Process.UserPages
import SBUnix.Process.Exec
import SBUnix.Process.VmaList
import SBUnix.Process.AreaPages
import SBUnix.Process.Create
import SBUnix.Process.Image
import SBUnix.Process.Headers
import SBUnix.Process.Loaded
import SBUnix.Process.Preserve
import SBUnix.Process.Outcome
import SBUnix.Process.Tasks
import SBUnix.Process.Isolation
import SBUnix.Process.KernelStacks
import SBUnix.Process.FromBoot
import SBUnix.Interrupt.Machine
import SBUnix.Interrupt.Balance
import SBUnix.Interrupt.Timer
import SBUnix.Interrupt.Resume
import SBUnix.Interrupt.Processes
import SBUnix.Interrupt.Preempt
import SBUnix.Interrupt.Tables
import SBUnix.Interrupt.Controller
import SBUnix.Interrupt.Served
import SBUnix.Tarfs.Archive
import SBUnix.Tarfs.Table
import SBUnix.Tarfs.Init
import SBUnix.Tarfs.Contents
import SBUnix.Tarfs.Slots
import SBUnix.Tarfs.Tree
import SBUnix.Tarfs.Stride
import SBUnix.Tarfs.Lookup
import SBUnix.Tarfs.Octal
import SBUnix.Tarfs.Listing
import SBUnix.Strings.Model
import SBUnix.Strings.Reverse
import SBUnix.Strings.Compare
import SBUnix.Console.Bounds
import SBUnix.Console.Pieces
import SBUnix.Console.Agree
import SBUnix.Console.Format
import SBUnix.Console.Split
import SBUnix.Console.Numbers
import SBUnix.Keyboard.Bounds
import SBUnix.Keyboard.Readers
import SBUnix.Keyboard.Typed
