import Libut.Machine.System
import Libut.Machine.Counter
import Libut.Base.Lrpc
import Libut.Base.LrpcFifo
import Libut.Base.LrpcWindow
import Libut.Hwalloc.Shm
import Libut.Machine.DaryHeap
import Libut.Machine.Total
import Libut.Runtime.Timer
import Libut.Runtime.TimerHeap
import Libut.Runtime.TimerOps
import Libut.Runtime.TimerRuns
import Libut.Runtime.TimerArming
import Libut.Machine.Ring
import Libut.Machine.SwapRemove
import Libut.Machine.Checked
import Libut.Machine.RefCount
import Libut.Hwalloc.Cores
import Libut.Hwalloc.Dataplane
import Libut.Hwalloc.CoresInv
import Libut.Hwalloc.CoresAssign
import Libut.Hwalloc.CoresOps
import Libut.Hwalloc.DataplaneClients
import Libut.Hwalloc.DataplaneCalls
import Libut.Hwalloc.DataplaneRuns
import Libut.Hwalloc.Guarantees
import Libut.Hwalloc.DataplaneFrame
import Libut.Hwalloc.DataplaneRefs
import Libut.Hwalloc.ControlRx
import Libut.Runtime.Sched
import Libut.Runtime.SchedQueues
import Libut.Runtime.RunQueue
import Libut.Runtime.Detach
import Libut.Runtime.DetachRuns
import Libut.Runtime.DetachSteps
import Libut.Runtime.Stack
import Libut.Runtime.StackTokens
import Libut.Runtime.StackExclusive
import Libut.Runtime.RwMutex
import Libut.Runtime.Condvar
import Libut.Runtime.Preempt
import Libut.Runtime.StackWait
import Libut.Hwalloc.ParkWake
import Libut.Hwalloc.PendingTimer
import Libut.Runtime.ParkTimers
import Libut.Machine.Links
import Libut.Base.ListHead
import Libut.Base.ListCheck
import Libut.Runtime.WaitList
import Libut.Runtime.Barrier
import Libut.Runtime.WaitGroup
import Libut.Runtime.QueueCounters
import Libut.Machine.Chain
import Libut.Base.Slab
import Libut.Base.SlabInv
import Libut.Machine.Places
import Libut.Base.Tcache
import Libut.Base.TcacheInv
import Libut.Base.TcacheRun
import Libut.Base.SlabCache
import Libut.Hwalloc.Admission
import Libut.Base.LrpcStale
import Libut.Hwalloc.ControlComm
import Libut.Runtime.JoinKthread
import Libut.Runtime.TargetedQueue
import Libut.Runtime.ContextSwitch
import Libut.Base.SlabInit
import Libut.Base.SlabPages
import Libut.Hwalloc.Reservation
import Libut.Hwalloc.Descriptors
import Libut.Hwalloc.WorkConserving
import Libut.Hwalloc.PollBound
import Libut.Runtime.TimerSoftirq
import Libut.Runtime.Softirq
import Libut.Runtime.KthreadRegistry
import Libut.Runtime.RecycledThreads
import Libut.Base.Bitmap
import Libut.Runtime.SiblingTable
import Libut.Base.Gen
import Libut.Base.Page
import Libut.Base.LargePages
import Libut.Runtime.StackReserve
import Libut.Base.Mempool
import Libut.Base.BitmapInt
import Libut.Machine.Text
import Libut.Base.Sysfs
import Libut.Runtime.IoQueues
import Libut.Runtime.Cfg
import Libut.Bindings.Thread
