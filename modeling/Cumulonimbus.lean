import Cumulonimbus.Exec
import Cumulonimbus.Queue
import Cumulonimbus.Sio
import Cumulonimbus.Process
import Cumulonimbus.Scheduler
import Cumulonimbus.Syscall
import Cumulonimbus.Interrupts
import Cumulonimbus.Lifecycle
import Cumulonimbus.Membership
import Cumulonimbus.Refinement
import Cumulonimbus.Dispatch
import Cumulonimbus.Handlers
import Cumulonimbus.Boot
import Cumulonimbus.Conservation
import Cumulonimbus.Pids
import Cumulonimbus.Kill
import Cumulonimbus.Parents
import Cumulonimbus.Wakeup
import Cumulonimbus.ExitStatus
import Cumulonimbus.Agreement
import Cumulonimbus.Ownership
import Cumulonimbus.Fork
import Cumulonimbus.ForkMemory
import Cumulonimbus.RemovalsByPid
import Cumulonimbus.Observers
import Cumulonimbus.Sleep
import Cumulonimbus.SleepOrder
import Cumulonimbus.Readers
import Cumulonimbus.Bytes
import Cumulonimbus.SerialInput
import Cumulonimbus.SerialOutput
import Cumulonimbus.SerialLine
import Cumulonimbus.ByteMemory
import Cumulonimbus.SerialMemory
import Cumulonimbus.SyscallTable
import Cumulonimbus.Linked
import Cumulonimbus.QueueNodes
import Cumulonimbus.QueueLinks
import Cumulonimbus.QueueLists
import Cumulonimbus.QueueRuns
import Cumulonimbus.Fat64
import Cumulonimbus.Fat64Volume
import Cumulonimbus.Fat64Format
import Cumulonimbus.Fat64Calls
import Cumulonimbus.Fat64Files
import Cumulonimbus.Fat64Creation
import Cumulonimbus.Fat64Sessions
import Cumulonimbus.Fat64Safety
import Cumulonimbus.Fat64Writing
import Cumulonimbus.Fat64ReadBack
import Cumulonimbus.Fat64EndOfFile
import Cumulonimbus.Fat64Census
import Cumulonimbus.Fat64Requests
import Cumulonimbus.Fat64Handles
import Cumulonimbus.Fat64Overruns
import Cumulonimbus.Fat64Chains
import Cumulonimbus.Fat64Tidy
import Cumulonimbus.Fat64Partition
import Cumulonimbus.Fat64Removal
import Cumulonimbus.Fat64Atomic
import Cumulonimbus.Knet
import Cumulonimbus.KnetBuffers
import Cumulonimbus.Ethernet
import Cumulonimbus.Screen
import Cumulonimbus.ScreenLists
import Cumulonimbus.ScreenPictures
import Cumulonimbus.ScreenInput
import Cumulonimbus.Ring
import Cumulonimbus.InputQueues
import Cumulonimbus.Ioports
import Cumulonimbus.Waiting
import Cumulonimbus.Irqs
import Cumulonimbus.IrqLists
import Cumulonimbus.IrqRegistry
import Cumulonimbus.IrqFlag
import Cumulonimbus.Console
import Cumulonimbus.ConsoleRegion
import Cumulonimbus.Tiling
import Cumulonimbus.Kheap
import Cumulonimbus.KheapBlocks
import Cumulonimbus.KheapSteps
import Cumulonimbus.KheapRuns
import Cumulonimbus.KeyDecoding
import Cumulonimbus.SerialBlocks
import Cumulonimbus.Fat64Tags
import Cumulonimbus.Fat64Geometry
import Cumulonimbus.Zombify
import Cumulonimbus.DispatchPoints
import Cumulonimbus.DispatchOrder
import Cumulonimbus.Lockstep
import Cumulonimbus.KillArgument
import Cumulonimbus.Fields
import Cumulonimbus.Pci
import Cumulonimbus.PciRegisters
import Cumulonimbus.PciBars
import Cumulonimbus.PciHeaders
import Cumulonimbus.PciScan
import Cumulonimbus.PciEnumeration
import Cumulonimbus.Numerals
import Cumulonimbus.Printf
import Cumulonimbus.PrintfNumbers
import Cumulonimbus.PrintfFormat
import Cumulonimbus.Drawing
import Cumulonimbus.DrawingText
import Cumulonimbus.DrawingPictures
import Cumulonimbus.DrawingBuffers
import Cumulonimbus.DrawingXor
import Cumulonimbus.Kalloc
import Cumulonimbus.Memcmp
import Cumulonimbus.NumberTexts
import Cumulonimbus.BuildImage
import Cumulonimbus.ShellInput
import Cumulonimbus.Ata
import Cumulonimbus.Ide
import Cumulonimbus.IdeDisk
import Cumulonimbus.Clients
import Cumulonimbus.IdeRuns
import Cumulonimbus.Fat64ByCalls
import Cumulonimbus.Fat64Drive
import Cumulonimbus.Fat64Mount
import Cumulonimbus.Fat64Boots
import Cumulonimbus.Refining
import Cumulonimbus.Fat64Short
import Cumulonimbus.ShellCommands
import Cumulonimbus.Shelf
import Cumulonimbus.ShelfDisk
import Cumulonimbus.ShellRuns
import Cumulonimbus.ShellTexts
import Cumulonimbus.Preserving
import Cumulonimbus.ReadyLines
import Cumulonimbus.ReadyTurns
import Cumulonimbus.Starvation
