import Xv6Kernel.KilledFlag
import Xv6Kernel.LogReservation
import Xv6Kernel.ExitWait
import Xv6Kernel.SlotFields
import Xv6Kernel.PipeWakeup
import Xv6Kernel.IdeRefinement
import Xv6Kernel.FlatDisk
import Xv6Kernel.OpenFileRuns
import Xv6Kernel.PidCalls
import Xv6Kernel.SleepLockGuard
import Xv6Kernel.BufferTruth
import Xv6Kernel.ConsoleStream
import Xv6Kernel.ShellParses
import Xv6Kernel.ChunkedWrite
import Xv6Kernel.Grep
import Xv6Kernel.ArgumentChecks
import Xv6Kernel.UserHeapLimits
import Xv6Kernel.PageUnmapping
import Xv6Kernel.IputRace
import Xv6Kernel.ExecCalls
import Xv6Kernel.MpTable
import Xv6Kernel.BootLoader
import Xv6Kernel.MkfsMount
import Xv6Kernel.DirectoryBytes
