import Eris.Loader.RelocationCorrect
import Eris.Boot.Initrd
import Eris.Sched.Wake
import Eris.Machine.WriteExecute
import Eris.Virtio.Requests
import Eris.Virtio.Callers
import Eris.Mm.Stale
import Eris.Cpu.Jobs
import Eris.Sched.Queue
import Eris.Boot.Archive
import Eris.Fs.Ext2Safety
import Eris.Proc.Isolation
import Eris.Modules.Races
import Eris.Time.Clock
import Eris.Drivers.Registry
import Eris.Loader.Removal
import Eris.Mm.Fragmentation
import Eris.Machine.Devices
import Eris.Mm.BootMap
import Eris.Proc.Segments
import Eris.Proc.Reads
import Eris.Time.Lapic
import Eris.Time.CallOrder
import Eris.Time.Handles
import Eris.Fs.Overlong
import Eris.Fs.Mounts
import Eris.Fs.RamDirectory
import Eris.Sched.Sleep
import Eris.Machine.Spawn
import Eris.Virtio.Payload
import Eris.Fs.Ext2Holes
import Eris.Fs.Ext2Names
import Eris.Fs.Ext2Mounts
import Eris.Fs.Ext2Loops
import Eris.Boot.Words
import Eris.Drivers.PciBars
import Eris.Drivers.Capabilities
import Eris.Drivers.Rtc
import Eris.Machine.Backtrace
import Eris.Cpu.Coverage
import Eris.Loader.Layout
