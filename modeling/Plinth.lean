import Plinth.Common.Tally
import Plinth.Common.Fifo
import Plinth.Common.Transition
import Plinth.Capability
import Plinth.FrameAlloc
import Plinth.Memory
import Plinth.Process
import Plinth.Endpoint
import Plinth.Rings
import Plinth.VirtioBlk
import Plinth.ProcTable
import Plinth.Kernel
import Plinth.Ipc
import Plinth.BlockIo
import Plinth.Syscall
import Plinth.Step
import Plinth.Proofs.CapTable
import Plinth.Proofs.Memory
import Plinth.Proofs.Inflights
import Plinth.Proofs.Ram
import Plinth.Ledger.State
import Plinth.Ledger.Act
import Plinth.Ledger.Sound
import Plinth.Ledger.Flow
import Plinth.Ledger.Waiting
import Plinth.Ledger.Keys
import Plinth.Ledger.Retain
import Plinth.Ledger.Requests
import Plinth.Ledger.RingFrames
import Plinth.Ledger.Endpoints
import Plinth.Ledger.Standing
import Plinth.Ledger.Frames
import Plinth.Refine.Placed
import Plinth.Refine.Endpoints
import Plinth.Refine.Memory
import Plinth.Refine.Rep
import Plinth.Refine.Calls
import Plinth.Refine.Rings
import Plinth.Refine.Permits
import Plinth.Refine.Transfer
import Plinth.Refine.Messages
import Plinth.Refine.Reclaim
import Plinth.Refine.Release
import Plinth.Refine.Exit
import Plinth.Refine.Setup
import Plinth.Refine.Spawn
import Plinth.Refine.Launch
import Plinth.Refine.Step
import Plinth.Runs.Boot
import Plinth.Runs.Counts
import Plinth.Runs.Frames
import Plinth.Runs.Standing
import Plinth.Runs.Replies
import Plinth.Runs.Waits
import Plinth.Ledger.Peers
import Plinth.Runs.Peers
import Plinth.Runs.Leaving
import Plinth.Runs.RingWork
import Plinth.Runs.RingEffects
import Plinth.Runs.RingFrames
import Plinth.Runs.RingOwners
import Plinth.Runs.Completions
import Plinth.Runs.Loans
import Plinth.Runs.Conserved
import Plinth.Runs.FailedTransfers
import Plinth.Queues.System
import Plinth.Queues.Drops
import Plinth.Queues.Laps
import Plinth.Runs.Targets
import Plinth.Queues.Virtqueue
import Plinth.Queues.Demux
import Plinth.Queues.Disk
import Plinth.Queues.Polled
import Plinth.Upcalls.System
import Plinth.Upcalls.Resume
import Plinth.Binding.Doorbell
import Plinth.Binding.InfoPointer
import Plinth.Runs.Homecoming
import Plinth.Runs.Landings
import Plinth.Spawning.Atomic
import Plinth.Spawning.Setup
import Plinth.Mapping.Calls
import Plinth.Mapping.Atomic
import Plinth.Scheduler.Queues
import Plinth.Scheduler.Placement
import Plinth.Scheduler.RoundRobin
import Plinth.Common.Checked
import Plinth.Elf.Parse
import Plinth.Elf.Plan
import Plinth.Runs.Mappings
import Plinth.Binding.Confinement
import Plinth.Runs.Rendezvous
import Plinth.Submit.Drain
import Plinth.Submit.Bounded
import Plinth.Display.Bands
import Plinth.Common.Bytes
import Plinth.Common.IndexRing
import Plinth.Executor.Reactor
import Plinth.Executor.Submissions
import Plinth.Executor.Rearm
import Plinth.Executor.Staging
import Plinth.Executor.Bound
import Plinth.Executor.BoundReads
import Plinth.Storage.Archive
import Plinth.Storage.Bitmap
import Plinth.Storage.Directory
import Plinth.Storage.Mount
import Plinth.Storage.Files
import Plinth.Libos.Allocators
import Plinth.Libos.Separation
import Plinth.Iommu.Entries
import Plinth.Iommu.Tables
import Plinth.Iommu.Rep
import Plinth.Iommu.Refines
import Plinth.Elf.Load
import Plinth.Input.Keymap
import Plinth.Input.Mouse
import Plinth.Usb.Rings
import Plinth.Usb.Reports
import Plinth.Usb.Strays
import Plinth.Storage.FileMap
import Plinth.Storage.Rollback
import Plinth.Storage.Usable
import Plinth.Storage.Loader
import Plinth.Queues.Waiters
import Plinth.Frames.Boot
import Plinth.Iommu.Windows
import Plinth.Iommu.Teardown
import Plinth.Shims.BlockRead
import Plinth.Shims.EventRecv
import Plinth.Shims.RingSetup
import Plinth.Common.Records
import Plinth.Acpi.Walks
import Plinth.Acpi.Inside
import Plinth.Storage.FirstFit
import Plinth.Pci.Capabilities
import Plinth.Irq.Routing
import Plinth.Common.Raster
import Plinth.Console.Surface
import Plinth.Console.Terminal
import Plinth.Gfx.Drawing
import Plinth.Gfx.Cursor
import Plinth.Gfx.Picture
import Plinth.Gfx.Home
import Plinth.Ledger.Traffic
import Plinth.Ledger.Trails
import Plinth.Runs.Origins
import Plinth.Ledger.Housed
import Plinth.Scheduler.Vacant
import Plinth.Runs.Exits
import Plinth.Common.LockDiscipline
import Plinth.Smp.KernelLock
import Plinth.Smp.Bringup
import Plinth.Groups.Zone
import Plinth.Groups.Calls
import Plinth.Groups.Exit
import Plinth.Groups.Apart
import Plinth.Groups.Others
