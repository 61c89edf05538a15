import Kyuzen.Kfs.DirRefine
import Kyuzen.Vfs.Offset
import Kyuzen.Sched.Aging
import Kyuzen.Sched.Killed
import Kyuzen.Sched.Zombie
import Kyuzen.Sync.Wakeup
import Kyuzen.Proc.Argv
import Kyuzen.Proc.ElfSound
import Kyuzen.Proc.Release
import Kyuzen.Mm.Pmm
import Kyuzen.Mm.Heap
import Kyuzen.Mm.SpaceExact
import Kyuzen.Bcache.Refine
import Kyuzen.Mm.SurfaceFrames
import Kyuzen.Kfs.Mkfs
import Kyuzen.Net.SocketRx
import Kyuzen.Net.SocketSlots
import Kyuzen.Net.Dns
import Kyuzen.Drivers.E1000
import Kyuzen.Gfx.Damage
import Kyuzen.Gfx.Marks
import Kyuzen.Shell.Shell
import Kyuzen.Browser.Page
import Kyuzen.Browser.Reference
import Kyuzen.Drivers.VirtqRings
import Kyuzen.Drivers.GpuDma
import Kyuzen.Libc.HeapSafe
import Kyuzen.Kfs.FailedWrite
import Kyuzen.Kfs.Files
import Kyuzen.Gui.ReplaceAll
import Kyuzen.Drivers.Gen12Submit
import Kyuzen.Debug.PanicLog
