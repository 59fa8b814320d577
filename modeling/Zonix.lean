import Zonix.Mm.FirstFitRun
import Zonix.Mm.VmRun
import Zonix.Mm.SwapRoundTrip
import Zonix.Mm.RefCount
import Zonix.Mm.SwapEntries
import Zonix.Mm.PageInitTheorems
import Zonix.Lib.Kin
import Zonix.Sched.PidTable
import Zonix.Sched.Family
import Zonix.Sched.RoundRobin
import Zonix.Sched.Interrupts
import Zonix.Sched.Switch
import Zonix.Sched.TlbTheorems
import Zonix.Sched.SchedTheorems
import Zonix.Drivers.Cga
import Zonix.Mm.SwapCount
import Zonix.Mm.PageFault
import Zonix.Mm.SwapArea
import Zonix.Mm.SwapQueues
import Zonix.Boot.E820
import Zonix.Boot.BootloadTheorems
import Zonix.Boot.Bootload
import Zonix.Cons.Stdio
import Zonix.Cons.StdioTheorems
import Zonix.Cons.Shell
import Zonix.Cons.ShellTheorems
import Zonix.Mm.SwapFifo
import Zonix.Mm.ReverseLookup
import Zonix.Mm.Failures
import Zonix.Mm.Protection
import Zonix.Mm.Descriptors
import Zonix.Mm.DirectMap
import Zonix.Mm.SwapCounter
import Zonix.Sched.Adoption
import Zonix.Sched.FirstRun
import Zonix.Sched.Fork
import Zonix.Drivers.Sectors
import Zonix.Drivers.Detect
import Zonix.Drivers.DetectTheorems
import Zonix.Cons.Dispatch
import Zonix.Cons.Numbers
import Zonix.Drivers.Capacity
import Zonix.Lib.Runs
import Zonix.Mm.PgtableItems
import Zonix.Include.ListTheorems
import Zonix.Mm.SwapClock
import Zonix.Lib.Recency
import Zonix.Mm.SwapLru
import Zonix.Lib.Gates
import Zonix.Trap.Idt
import Zonix.Trap.TrapEntry
import Zonix.Lib.Memory
import Zonix.Mm.UserMemory
import Zonix.Mm.UserMemoryTheorems
import Zonix.Cons.Terminal
import Zonix.Mm.Boot
import Zonix.Drivers.Kdb
import Zonix.Drivers.Pic
import Zonix.Trap.Trap
import Zonix.Sched.Ps
