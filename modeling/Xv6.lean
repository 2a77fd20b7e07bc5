import Xv6.Spec.OnCpu
import Xv6.Spec.SlotHygiene
import Xv6.Spec.Accumulator
import Xv6.Spec.Pids
import Xv6.Spec.Deadlock
import Xv6.Spec.NoLostWakeup
import Xv6.Spec.CfsReport
import Xv6.Spec.Admission
import Xv6.Spec.BufferPool
import Xv6.Spec.InodeCoherence
import Xv6.Spec.PipeWakeup
import Xv6.Spec.LineDiscipline
import Xv6.Mkfs.KernelView
import Xv6.Spec.SharedWrites
import Xv6.Spec.BoundedWaiting
import Xv6.Spec.WorkConserving
import Xv6.Spec.ChargeOnce
import Xv6.Spec.WaitWrites
import Xv6.Spec.WriteBudget
import Xv6.Spec.PartialWrite
import Xv6.Spec.NoHoles
import Xv6.Spec.ForkLeak
import Xv6.Spec.SysPipe
import Xv6.Spec.SysSleep
import Xv6.User.Printf
import Xv6.Spec.ExecClean
import Xv6.Spec.VirtioRequests
import Xv6.Spec.PathWalk
import Xv6.Kernel.Memmove
import Xv6.User.Umalloc
import Xv6.Kernel.Kalloc
