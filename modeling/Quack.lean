import Quack.Util.Spinlock
import Quack.Util.FormatScan
import Quack.Util.Symtab
import Quack.Util.StringSearch
import Quack.Util.Initrd
import Quack.Genfb.Terminal
import Quack.Object.IpcQueue
import Quack.Object.GroupLock
import Quack.Proc.SchedulerSignal
import Quack.Proc.SchedulerBlock
import Quack.Proc.RoundRobin
import Quack.Proc.Groups
import Quack.Mm.BindExact
import Quack.Arch.TableRuns
import Quack.Arch.Lifetime
import Quack.Arch.WindowReach
import Quack.Arch.KernelQueries
import Quack.Arch.CtxSwitch
import Quack.Arch.IoapicVectors
import Quack.Arch.Interrupts
import Quack.Arch.StackTrace
import Quack.Arch.Smp
import Quack.Sys.HeapFailure
import Quack.Sys.Permissions
import Quack.Sys.Syscall
import Quack.Loader.Image
import Quack.Pci.Bars
import Quack.Pci.Routing
