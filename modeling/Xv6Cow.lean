import Xv6Cow.Vm.SmpSafety
import Xv6Cow.Log.Atomic
import Xv6Cow.Fs.Dangling
import Xv6Cow.Pipe.Stream
import Xv6Cow.Vm.TlbSafety
import Xv6Cow.Fs.Failures
import Xv6Cow.Log.Sched
import Xv6Cow.Vm.Kalloc
import Xv6Cow.Vm.Undo
import Xv6Cow.Vm.Counts
import Xv6Cow.Fs.MkfsKernel
import Xv6Cow.Disk.Runs
import Xv6Cow.User.HeapRuns
import Xv6Cow.Proc.Lottery
import Xv6Cow.Proc.Trap
import Xv6Cow.Exec.Failed
import Xv6Cow.Fs.Paths
import Xv6Cow.User.Grep
import Xv6Cow.Dev.Mp
import Xv6Cow.Dev.Console
import Xv6Cow.Vm.Copyout
import Xv6Cow.Fs.Dirents
import Xv6Cow.Strings
import Xv6Cow.Proc.Sleeplock
