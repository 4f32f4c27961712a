import Cryptix.Memory.FreeRuns
import Cryptix.Memory.FreeMemory
import Cryptix.Memory.BootMemory
import Cryptix.Memory.AArch64Refinement
import Cryptix.Memory.RemapRegion
import Cryptix.Memory.UserRanges
import Cryptix.Memory.ProtectRange
import Cryptix.Memory.PageFaults
import Cryptix.VFS.FileOffset
import Cryptix.VFS.SynthFsFile
import Cryptix.VFS.HardLinks
import Cryptix.VFS.EntryPath
import Cryptix.VFS.ResolveParent
import Cryptix.VFS.Ext2FsINodes
import Cryptix.VFS.Ext2FsScans
import Cryptix.VFS.Fat32Names
import Cryptix.VFS.EchFsDirectory
import Cryptix.VFS.DirectoryEntries
import Cryptix.VFS.Fifo
import Cryptix.VFS.Ustar
import Cryptix.Scheduler.ValidateAddress
import Cryptix.Scheduler.Exec
import Cryptix.Executable.Stack
import Cryptix.Executable.Symbols
import Cryptix.Executable.Relocations
import Cryptix.Executable.Segments
import Cryptix.ZLib.HeaderBounds
import Cryptix.ZLib.DecodeBlock
import Cryptix.PNG.Chunks
import Cryptix.Drivers.NVMeNameSpace
import Cryptix.Drivers.NVMeQueue
import Cryptix.Drivers.NVMeTransfer
import Cryptix.Drivers.GPT
import Cryptix.Drivers.StorageDevicePartition
import Cryptix.Drivers.Teletype
import Cryptix.Drivers.EscapeValues
import Cryptix.Drivers.Erase
import Cryptix.Drivers.LineEditor
import Cryptix.Drivers.DeviceManager
import Cryptix.Drivers.PCI
import Cryptix.Drivers.Ps2Keyboard
import Cryptix.Arch.Interrupts
import Cryptix.Locking.Semaphore
import Cryptix.Locking.ConditionalVariable
import Cryptix.Locking.RecursiveSpinlock
import Cryptix.Scheduler.Tick
import Cryptix.Scheduler.WaitStatus
import Cryptix.Scheduler.Descriptors
import Cryptix.Time.Sleep
import Cryptix.Debug.Kasan
import Cryptix.Library.Stacktrace
import Cryptix.Library.ICxxAbi
import Cryptix.Boot.CommandLine
import Cryptix.Firmware.MADT
import Cryptix.Firmware.AmlTable
import Cryptix.Firmware.DeviceTree
import Cryptix.Firmware.SMBIOS
