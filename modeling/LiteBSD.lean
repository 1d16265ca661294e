import LiteBSD.Lib.Runs
import LiteBSD.Lib.Tiling
import LiteBSD.Lib.Holders
import LiteBSD.Lib.Ring
import LiteBSD.Lib.Journal
import LiteBSD.Lib.Memory
import LiteBSD.Lib.Patch
import LiteBSD.Lib.Chase
import LiteBSD.Lib.Records
import LiteBSD.Lib.Relocate
import LiteBSD.Lib.Numeral
import LiteBSD.Lib.Circle
import LiteBSD.Lib.OnesComplement
import LiteBSD.Exec
import LiteBSD.Heap.Model
import LiteBSD.Heap.Represent
import LiteBSD.Heap.Refine
import LiteBSD.Heap.Invariant
import LiteBSD.Heap.Payload
import LiteBSD.Heap.DoubleFree
import LiteBSD.Sched.Model
import LiteBSD.Sched.Steps
import LiteBSD.Sched.Runner
import LiteBSD.Sched.Resume
import LiteBSD.Sched.Chain
import LiteBSD.Sched.Orphans
import LiteBSD.Sched.Image
import LiteBSD.Sched.Break
import LiteBSD.Sched.Frames
import LiteBSD.Sched.FrameChain
import LiteBSD.Sched.Forking
import LiteBSD.Sched.WalkEnds
import LiteBSD.Sched.ReadyQueue
import LiteBSD.Sched.RoundRobin
import LiteBSD.Sched.Reports
import LiteBSD.Vfs.Path
import LiteBSD.Vfs.Model
import LiteBSD.Vfs.Steps
import LiteBSD.Vfs.Names
import LiteBSD.Vfs.Rename
import LiteBSD.Vfs.Tree
import LiteBSD.Vfs.Blobs
import LiteBSD.Vfs.Isolation
import LiteBSD.Vfs.Contents
import LiteBSD.Vfs.ReadOnly
import LiteBSD.Vfs.Entries
import LiteBSD.Vfs.Sysinfo
import LiteBSD.Vfs.Access
import LiteBSD.Vfs.Resolve
import LiteBSD.Vfs.Inodes
import LiteBSD.Vfs.Walk
import LiteBSD.Vfs.Listing
import LiteBSD.Vfs.Agreement
import LiteBSD.Vfs.Components
import LiteBSD.Vfs.Reference
import LiteBSD.Vfs.NormalForm
import LiteBSD.Vfs.Supply
import LiteBSD.Vfs.Growth
import LiteBSD.Vfs.FailedWrite
import LiteBSD.Vfs.Additions
import LiteBSD.Vfs.Pids
import LiteBSD.Vfs.Rmdir
import LiteBSD.Vfs.Links
import LiteBSD.Vfs.Transparent
import LiteBSD.Vfs.Dirents
import LiteBSD.Vfs.Writes
import LiteBSD.Execve.Model
import LiteBSD.Execve.Stack
import LiteBSD.Execve.Blocks
import LiteBSD.Execve.Vectors
import LiteBSD.Execve.Reading
import LiteBSD.Execve.Scripts
import LiteBSD.Execve.Outcome
import LiteBSD.Execve.Failure
import LiteBSD.Execve.Start
import LiteBSD.Execve.Accepted
import LiteBSD.Execve.Rewriting
import LiteBSD.Execve.Cmdline
import LiteBSD.Execve.Window
import LiteBSD.Execve.Ranges
import LiteBSD.Execve.Snapshot
import LiteBSD.Net.Socket
import LiteBSD.Net.Steps
import LiteBSD.Net.Stream
import LiteBSD.Net.Demux
import LiteBSD.Net.Ports
import LiteBSD.Net.Close
import LiteBSD.Net.Frame
import LiteBSD.Net.Arp
import LiteBSD.Net.Checksum
import LiteBSD.Net.Uplink
import LiteBSD.Net.Queues
import LiteBSD.Net.Datagrams
import LiteBSD.Net.Segments
import LiteBSD.Net.Wire
import LiteBSD.Keyboard.Model
import LiteBSD.Keyboard.Modifiers
import LiteBSD.Keyboard.Queue
import LiteBSD.Keyboard.Reader
import LiteBSD.Files.Console
import LiteBSD.Files.Model
import LiteBSD.Files.Transfer
import LiteBSD.Files.System
import LiteBSD.Files.Moves
import LiteBSD.Files.Dup
import LiteBSD.Files.Slots
import LiteBSD.Files.Backing
import LiteBSD.Files.Poll
import LiteBSD.Files.Kinds
import LiteBSD.Files.Ready
import LiteBSD.Files.Lines
import LiteBSD.Files.Pipes
import LiteBSD.Files.Counts
import LiteBSD.Files.Nodes
import LiteBSD.Files.FsRun
import LiteBSD.Files.Chunks
import LiteBSD.Programs.Memstat
import LiteBSD.Programs.Meminfo
import LiteBSD.Initrd.Model
import LiteBSD.Initrd.Range
import LiteBSD.Initrd.Names
import LiteBSD.Initrd.Archive
import LiteBSD.Initrd.Headers
import LiteBSD.Initrd.Extract
import LiteBSD.Tty.Framebuffer
import LiteBSD.Tty.Model
import LiteBSD.Tty.Range
import LiteBSD.Tty.Mirror
import LiteBSD.Tty.Alternate
import LiteBSD.Tty.Undone
import LiteBSD.Tty.Sequence
import LiteBSD.Tty.Erase
import LiteBSD.Tty.Colours
import LiteBSD.Tasks.Blocks
import LiteBSD.Tasks.Slots
import LiteBSD.Tasks.FailedPipe
import LiteBSD.Tasks.FailedOpen
import LiteBSD.Tasks.Snapshots
import LiteBSD.Tasks.Housed
import LiteBSD.Tasks.Children
import LiteBSD.Tasks.Shells
import LiteBSD.Lib.Network
import LiteBSD.Net.Delivery
import LiteBSD.Net.Lan
import LiteBSD.Net.Neighbours
import LiteBSD.Net.EndToEnd
import LiteBSD.Lib.Table
import LiteBSD.Vfs.FileMap
import LiteBSD.Vfs.Undo
import LiteBSD.Lib.Slots
import LiteBSD.Drivers.E1000
import LiteBSD.Drivers.Interrupted
import LiteBSD.Drivers.Transmit
import LiteBSD.Drivers.Wired
import LiteBSD.Lib.Teletype
import LiteBSD.Tty.Paper
import LiteBSD.Tty.Echo
import LiteBSD.Firmware.Smbios
import LiteBSD.Programs.Cpuinfo
