import LiwusOS.Fs.JournalRecovery
import LiwusOS.Mm.HeapReserved
import LiwusOS.Sched.TaskRunning
import LiwusOS.Mm.FreeOwned
import LiwusOS.Ipc.PipeEnd
import LiwusOS.Net.TcpHandshake
import LiwusOS.Sched.ForkProcess
import LiwusOS.Exec.Sbrk
import LiwusOS.Exec.ExecArgs
import LiwusOS.Fs.InitrdOpen
import LiwusOS.Fat.ReadWrite
import LiwusOS.Fs.Leaks
import LiwusOS.Fs.ReadBack
import LiwusOS.Mm.PmmExact
import LiwusOS.Net.TcpListen
import LiwusOS.Net.TcpQueue
import LiwusOS.Net.TcpAck
import LiwusOS.Gui.EventDelivery
import LiwusOS.Gui.Siblings
import LiwusOS.Gui.LazyTransforms
import LiwusOS.Gui.TreeCalls
import LiwusOS.Fs.ChainWalks
import LiwusOS.Fat.Subdirectories
import LiwusOS.Fs.MissingParents
import LiwusOS.Fs.MountedAlloc
import LiwusOS.Sched.TaskFrame
import LiwusOS.Exec.UserChecks
import LiwusOS.Sched.Sleep
import LiwusOS.Fs.Mounts
import LiwusOS.Sched.StackChecks
import LiwusOS.Gui.Layout
import LiwusOS.Gui.Camera
import LiwusOS.Gui.TextInput
import LiwusOS.Net.Addresses
import LiwusOS.Drivers.Ata
import LiwusOS.Drivers.Rtl8139
import LiwusOS.Terminal.Parser
