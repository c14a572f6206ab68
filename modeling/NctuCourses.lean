import NctuCourses.Lib.Run
import NctuCourses.Lib.Linked
import NctuCourses.Lib.Stride
import NctuCourses.Lib.Threads
import NctuCourses.Lib.Cint
import NctuCourses.Lib.Circular
import NctuCourses.Lib.X64.Memory
import NctuCourses.Lib.X64.Machine
import NctuCourses.Lib.Fuel
import NctuCourses.Lib.ItemSet
import NctuCourses.Lib.IStream
import NctuCourses.Osdi.Mem.Layout
import NctuCourses.Osdi.Mem.PageAlloc
import NctuCourses.Osdi.Mem.PageTable
import NctuCourses.Osdi.Mem.RefCount
import NctuCourses.Osdi.Mem.Mapping
import NctuCourses.Osdi.Mem.VmRun
import NctuCourses.Osdi.Mem.Translate
import NctuCourses.Osdi.Mem.BootMap
import NctuCourses.Osdi.Mem.MapRange
import NctuCourses.Osdi.Task.Task
import NctuCourses.Osdi.Task.AddrSpace
import NctuCourses.Osdi.Task.Teardown
import NctuCourses.Osdi.Task.Sched
import NctuCourses.Osdi.Task.Fork
import NctuCourses.Osdi.Task.Control
import NctuCourses.Osdi.Task.Runqueue
import NctuCourses.Osdi.Task.Spawn
import NctuCourses.Osdi.Task.Schedule
import NctuCourses.Osdi.Task.Clock
import NctuCourses.Osdi.Task.RoundRobin
import NctuCourses.Osdi.Task.Sleep
import NctuCourses.Osdi.Task.Ticks
import NctuCourses.Osdi.Task.Steady
import NctuCourses.Osdi.Task.Create
import NctuCourses.Osdi.Task.Duplicate
import NctuCourses.Osdi.Task.Link
import NctuCourses.Osdi.Task.Isolation
import NctuCourses.Osdi.Task.MpConfig
import NctuCourses.Osdi.Boot.MemInit
import NctuCourses.Osdi.Boot.KernDir
import NctuCourses.Osdi.Boot.KernRegions
import NctuCourses.Osdi.Boot.Mmio
import NctuCourses.Osdi.Boot.FreeOrder
import NctuCourses.Osdi.Boot.AllocTest
import NctuCourses.Osdi.Boot.PageTest
import NctuCourses.Osdi.Boot.KernPgdir
import NctuCourses.Osdi.Boot.Installed
import NctuCourses.Osdi.Boot.Booted
import NctuCourses.Osdi.Boot.Agree
import NctuCourses.Osdi.Console.Kbd
import NctuCourses.Osdi.Console.Modifiers
import NctuCourses.Osdi.Console.Cons
import NctuCourses.Osdi.Console.StringOps
import NctuCourses.Osdi.Console.Screen
import NctuCourses.Osdi.Console.Terminal
import NctuCourses.Osdi.Shell.Readline
import NctuCourses.Osdi.Shell.Shown
import NctuCourses.Osdi.Shell.History
import NctuCourses.Osdi.Fs.Vfs
import NctuCourses.Osdi.Fs.Refs
import NctuCourses.Osdi.Fs.Position
import NctuCourses.Osdi.Fs.Closed
import NctuCourses.Osdi.Disk.Ide
import NctuCourses.Osdi.Disk.Polling
import NctuCourses.Osdi.Disk.Address
import NctuCourses.Osdi.Disk.Transfer
import NctuCourses.Osdi.Disk.Errors
import NctuCourses.Sdb.Tracee
import NctuCourses.Sdb.Command
import NctuCourses.Sdb.Address
import NctuCourses.Sdb.Text
import NctuCourses.Sdb.Patched
import NctuCourses.Sdb.Native
import NctuCourses.Sdb.Transparent
import NctuCourses.Sdb.Overrun
import NctuCourses.Sdb.BreakPoints
import NctuCourses.Sdb.Hit
import NctuCourses.Sdb.Deleted
import NctuCourses.Sdb.Disasm
import NctuCourses.FpGrowth.Tree
import NctuCourses.FpGrowth.Growth
import NctuCourses.FpGrowth.Shape
import NctuCourses.FpGrowth.Insert
import NctuCourses.FpGrowth.Links
import NctuCourses.FpGrowth.Patterns
import NctuCourses.FpGrowth.Walk
import NctuCourses.FpGrowth.Single
import NctuCourses.FpGrowth.Exact
import NctuCourses.FpGrowth.Terminates
import NctuCourses.FpGrowth.Shortcut
import NctuCourses.FpGrowth.Mine
import NctuCourses.FpGrowth.Threshold
import NctuCourses.FpGrowth.Order
import NctuCourses.FpGrowth.Scan
import NctuCourses.Libmini.Sigset
import NctuCourses.Libmini.Setjmp
import NctuCourses.Libmini.Longjmp
import NctuCourses.Libmini.Perror
import NctuCourses.Netstat.Connections
import NctuCourses.Mpi.Prime
import NctuCourses.Mpi.Gather
import NctuCourses.OpenCl.Histogram
import NctuCourses.Cuda.Wave
import NctuCourses.Lib.Post
import NctuCourses.Lib.Simulation
import NctuCourses.Lib.BitField
import NctuCourses.Osdi.Fat.Window
import NctuCourses.Osdi.Fat.Driver
import NctuCourses.Osdi.Fat.Entry
import NctuCourses.Osdi.Fat.Chain
import NctuCourses.Osdi.Fat.File
import NctuCourses.Osdi.Fat.Alloc
import NctuCourses.Osdi.Fat.Readers
