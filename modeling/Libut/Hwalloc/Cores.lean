import Libut.Base.Lrpc
import Libut.Machine.Checked
import Libut.Machine.SwapRemove
import Libut.Machine.System

/-!
The core allocator of the daemon (`hwalloc/cores.c`, `hwalloc/defs.h`,
`hwalloc/rx.c`, `hwalloc/commands.c`).

The dataplane is one thread, so each of its functions is a function on the
state. Records are kept by columns: field `f` of `struct thread` is a function
`f` of the thread, field `f` of `struct proc` a function of the proc, and the
columns that change together are in one table. An array with a count is a list.
A `BUG()` and an access outside an array stop the function with a `Fault`;
writing to an eventfd is taken to succeed.

`CORES_NOHT` is defined in `cores.c`, so the branches on hyperthread pairs are
not compiled and not here.
-/

namespace Libut.Hwalloc

open Function Machine Base

def ncpu : Nat := 256

def hwallocdMaxProc : Nat := 1024

/-- `&p->threads[idx]`. -/
structure ThreadRef (π : Type) where
  p : π
  idx : Nat
  deriving DecidableEq, Repr

inductive Fault
  /-- `BUG_ON(next && th != next)` in `core_reserve`. -/
  | reserveWaiting
  /-- `BUG_ON(!core_available(core))` in `wake_kthread_on_core`. -/
  | wakeBusyCore
  /-- `BUG_ON(bitmap_test(avail_cores, core))` in `cores_park_kthread`. -/
  | parkIdleCore
  /-- `BUG_ON(bitmap_test(p->available_threads, kthread))` there. -/
  | parkIdleThread
  /-- `BUG()` in `cores_add_core`, no thread to run. -/
  | addNoThread
  /-- `BUG_ON(!bitmap_test(p->available_threads, ..))` there. -/
  | addActiveThread
  /-- `BUG_ON(core_history[core].next)` there. -/
  | addWaiting
  /-- `BUG()` in `pick_core_for_proc`. -/
  | noCores
  /-- An index outside its array, or a null pointer. -/
  | overrun
  deriving DecidableEq, Repr

/-- The statics of `cores.c` about cores; `current`, `prev` and `next` are the
columns of `core_history`. The preemptions in flight of each proc are counted
here, since it is the history they count. -/
structure CoreTable (π : Type) where
  cpuCount : Nat
  onlineCores : Nat → Bool
  availCores : Nat → Bool
  nrAvailCores : Nat
  current : Nat → Option (ThreadRef π)
  prev : Nat → Option (ThreadRef π)
  next : Nat → Option (ThreadRef π)
  inflightPreempts : π → BitVec 32

/-- The lists `overloaded_procs` and `bursting_procs`, and the flag each proc
has for them. -/
structure ProcLists (π : Type) where
  overloadedProcs : List π
  burstingProcs : List π
  overloaded : π → Bool
  bursting : π → Bool

/-- `ts[0..nrts)` and each thread's `ts_idx`, `none` for -1. -/
structure PollArray (π : Type) where
  ts : List (ThreadRef π)
  tsIdx : ThreadRef π → Option Nat

/-- The threads of each proc: `activeThreads p` is
`p->active_threads[0..p->active_thread_count)`, and `availableThreads th` the
bit of `th` in the bitmap of its proc. -/
structure ThreadTable (π : Type) where
  parked : ThreadRef π → Bool
  core : ThreadRef π → Nat
  atIdx : ThreadRef π → Option Nat
  availableThreads : ThreadRef π → Bool
  activeThreads : π → List (ThreadRef π)
  idleThreads : π → List (ThreadRef π)

/-- The procs: `clients` is `dp.clients[0..dp.nr_clients)`. `created` are the
procs the control thread has made so far, `pending` those among them whose
`DATAPLANE_ADD_CLIENT` the dataplane has not processed. -/
structure ProcTable (π : Type) where
  clients : List π
  threadCount : π → Nat
  guaranteedCores : π → Nat
  removed : π → Bool
  created : List π
  pending : List π

/-- Reference counts, and the procs `proc_release` was called for. -/
structure RefTable (π : Type) where
  ref : π → Int
  released : List π

/-- `wakes th` are the values written to `th->park_efd` that the kthread has not
read, and `signalled th` says that a `SIGUSR1` is pending at it. -/
structure Dataplane (π : Type) where
  cores : CoreTable π
  lists : ProcLists π
  poll : PollArray π
  threads : ThreadTable π
  procs : ProcTable π
  refs : RefTable π
  waking : ThreadRef π → Bool
  wakes : ThreadRef π → List Nat
  signalled : ThreadRef π → Bool
  rxq : ThreadRef π → LrpcChanOut
  lastRqHead : ThreadRef π → BitVec 32
  lastRxqHead : ThreadRef π → BitVec 32
  launched : π → Bool
  nextThreadRr : π → BitVec 32
  pendingTimer : π → Bool
  deadlineUs : π → BitVec 64

/-- `bitmap_find_next_set(bits, nbits, 0)`. -/
def bitmapFindNextSet (bits : Nat → Bool) (nbits : Nat) : Nat :=
  ((List.range nbits).find? bits).getD nbits

def wrapsLt (a b : BitVec 32) : Bool := (a - b).slt 0

variable {π : Type} [DecidableEq π]

section Tables

def RefTable.procGet (r : RefTable π) (p : π) : RefTable π :=
  { r with ref := update r.ref p (r.ref p + 1) }

/-- `proc_put`; `proc_release` tells the control thread. -/
def RefTable.procPut (r : RefTable π) (p : π) : RefTable π where
  ref := update r.ref p (r.ref p - 1)
  released := if r.ref p - 1 = 0 then r.released ++ [p] else r.released

def ProcLists.procSetOverloaded (l : ProcLists π) (p : π) : ProcLists π :=
  if l.overloaded p then l
  else
    { l with
      overloadedProcs := p :: l.overloadedProcs
      overloaded := update l.overloaded p true }

def ProcLists.procClearOverloaded (l : ProcLists π) (p : π) : ProcLists π :=
  if l.overloaded p then
    { l with
      overloadedProcs := l.overloadedProcs.erase p
      overloaded := update l.overloaded p false }
  else l

def ProcLists.procSetBursting (l : ProcLists π) (p : π) : ProcLists π :=
  if l.bursting p then l
  else
    { l with
      burstingProcs := p :: l.burstingProcs
      bursting := update l.bursting p true }

def ProcLists.procClearBursting (l : ProcLists π) (p : π) : ProcLists π :=
  if l.bursting p then
    { l with
      burstingProcs := l.burstingProcs.erase p
      bursting := update l.bursting p false }
  else l

/-- `a[i]->idx = i` for the element that was moved into slot `i`. -/
def reindex (idx : ThreadRef π → Option Nat) (l : List (ThreadRef π))
    (i : Nat) : ThreadRef π → Option Nat :=
  match l.getLast? with
  | none => idx
  | some moved => update idx moved (some i)

/-- `ts[nrts] = th; th->ts_idx = nrts++`. -/
def PollArray.push (a : PollArray π) (th : ThreadRef π) : PollArray π where
  ts := a.ts ++ [th]
  tsIdx := update a.tsIdx th (some a.ts.length)

/-- `ts[i] = ts[--nrts]; ts[i]->ts_idx = i; th->ts_idx = -1`. -/
def PollArray.drop (a : PollArray π) (th : ThreadRef π) (i : Nat) :
    PollArray π where
  ts := swapRemove a.ts i
  tsIdx := update (reindex a.tsIdx a.ts i) th none

/-- The stores of `thread_reserve` to the thread and to the arrays of its
proc. -/
def ThreadTable.activate (t : ThreadTable π) (th : ThreadRef π) (core : Nat) :
    ThreadTable π where
  parked := update t.parked th false
  core := update t.core th core
  availableThreads := update t.availableThreads th false
  activeThreads := update t.activeThreads th.p
    (t.activeThreads th.p ++ [th])
  atIdx := update t.atIdx th (some (t.activeThreads th.p).length)
  idleThreads := update t.idleThreads th.p
    ((t.idleThreads th.p).erase th)

/-- The stores of `thread_cede` to the thread and to the arrays of its proc;
`i` is `th->at_idx`. -/
def ThreadTable.deactivate (t : ThreadTable π) (th : ThreadRef π) (i : Nat) :
    ThreadTable π where
  parked := update t.parked th true
  core := t.core
  availableThreads := update t.availableThreads th true
  activeThreads := update t.activeThreads th.p
    (swapRemove (t.activeThreads th.p) i)
  atIdx := reindex t.atIdx (t.activeThreads th.p) i
  idleThreads := update t.idleThreads th.p
    (th :: t.idleThreads th.p)

def CoreTable.reserve (c : CoreTable π) (core : Nat) (th : ThreadRef π) :
    CoreTable π :=
  { c with
    availCores := update c.availCores core false
    nrAvailCores := c.nrAvailCores - 1
    prev := update c.prev core (c.current core)
    current := update c.current core (some th)
    next := update c.next core none }

/-- `core_cede`. -/
def CoreTable.cede (c : CoreTable π) (core : Nat) : CoreTable π :=
  { c with
    availCores := update c.availCores core true
    nrAvailCores := c.nrAvailCores + 1 }

/-- `core_init`. -/
def CoreTable.init (c : CoreTable π) (core : Nat) : CoreTable π :=
  { c with
    availCores := update c.availCores core true
    onlineCores := update c.onlineCores core true
    nrAvailCores := c.nrAvailCores + 1
    current := update c.current core none
    prev := update c.prev core none }

/-- `p->inflight_preempts--` for the proc of the core's current thread. -/
def CoreTable.endPreempt (c : CoreTable π) (p : π) : CoreTable π :=
  { c with
    inflightPreempts := update c.inflightPreempts p
      (c.inflightPreempts p - 1) }

/-- `p->inflight_preempts++`, and `th` waits for the core. -/
def CoreTable.beginPreempt (c : CoreTable π) (core : Nat) (p : π)
    (th : ThreadRef π) : CoreTable π :=
  { c with
    inflightPreempts := update c.inflightPreempts p
      (c.inflightPreempts p + 1)
    next := update c.next core (some th) }

end Tables

namespace Dataplane

def pollThread (s : Dataplane π) (th : ThreadRef π) :
    Except Fault (Dataplane π) :=
  if s.poll.tsIdx th ≠ none then .ok s
  else if s.poll.ts.length < ncpu then
    .ok { s with poll := s.poll.push th, refs := s.refs.procGet th.p }
  else .error .overrun

def unpollThread (s : Dataplane π) (th : ThreadRef π) : Dataplane π :=
  match s.poll.tsIdx th with
  | none => s
  | some i =>
    { s with poll := s.poll.drop th i, refs := s.refs.procPut th.p }

def coreReserve (s : Dataplane π) (core : Nat) (th : ThreadRef π) :
    Except Fault (Dataplane π) :=
  if s.cores.next core ≠ none ∧ s.cores.next core ≠ some th then
    .error .reserveWaiting
  else
    let put := match s.cores.prev core with
      | none => s.refs
      | some old => s.refs.procPut old.p
    .ok
      { s with
        cores := s.cores.reserve core th
        refs := put.procGet th.p }

def threadReserve (s : Dataplane π) (th : ThreadRef π) (core : Nat) :
    Except Fault (Dataplane π) :=
  let threads := s.threads.activate th core
  let lists :=
    if s.procs.guaranteedCores th.p < (threads.activeThreads th.p).length then
      s.lists.procSetBursting th.p
    else s.lists
  pollThread
    { s with
      threads := threads
      lists := lists.procClearOverloaded th.p
      waking := update s.waking th true } th

def threadCede (s : Dataplane π) (th : ThreadRef π) :
    Except Fault (Dataplane π) :=
  match s.threads.atIdx th with
  | none => .error .overrun
  | some i =>
    let threads := s.threads.deactivate th i
    let lists :=
      if (threads.activeThreads th.p).length = s.procs.guaranteedCores th.p
      then s.lists.procClearBursting th.p
      else s.lists
    .ok (unpollThread { s with threads := threads, lists := lists } th)

/-- The test `lastth && lastth->p == p && lastth->parked`. -/
def reusable (s : Dataplane π) (p : π) (lastth : Option (ThreadRef π)) :
    Option (ThreadRef π) :=
  lastth.filter fun th => decide (th.p = p) && s.threads.parked th

/-- The thread `pick_thread_for_proc` returns. -/
def pickThread (s : Dataplane π) (p : π) (core : Nat) :
    Option (ThreadRef π) :=
  let idle := s.threads.idleThreads p
  if s.launched p then idle.head?
  else if s.lists.overloaded p ∧ (s.threads.activeThreads p).length = 0 then
    idle.head?
  else
    (s.reusable p (s.cores.current core)).or
      ((s.reusable p (s.cores.prev core)).or idle.getLast?)

/-- `pick_thread_for_proc`: besides its result it clears `launched`. -/
def pickThreadForProc (s : Dataplane π) (p : π) (core : Nat) :
    Dataplane π × Option (ThreadRef π) :=
  ({ s with launched := update s.launched p false }, s.pickThread p core)

/-- The test of the last loop of `pick_core_for_proc`. -/
def preemptible (s : Dataplane π) (core : Nat) : Bool :=
  match s.cores.current core with
  | none => false
  | some cur => s.lists.bursting cur.p && (s.cores.next core).isNone

/-- The second half of `pick_core_for_proc`: the lowest available core, then
the first core of a bursting proc. -/
def pickAnyCore (s : Dataplane π) : Except Fault Nat :=
  let core := bitmapFindNextSet s.cores.availCores s.cores.cpuCount
  if core ≠ s.cores.cpuCount then .ok core
  else
    match (List.range s.cores.cpuCount).find? s.preemptible with
    | some core => .ok core
    | none => .error .noCores

def pickCoreForProc (s : Dataplane π) (p : π) : Except Fault Nat :=
  match (s.threads.idleThreads p).head? with
  | none => .error .overrun
  | some t =>
    let core := s.threads.core t
    if ncpu ≤ core then .error .overrun
    else if s.cores.availCores core then .ok core
    else if s.cores.nrAvailCores = 0 ∧ s.cores.next core = none then
      match s.cores.current core with
      | none => .error .overrun
      | some cur =>
        if cur.p ≠ p ∧ s.lists.bursting cur.p = true then .ok core
        else s.pickAnyCore
    else s.pickAnyCore

/-- The test `lastth && !lastth->p->removed && proc_is_overloaded(lastth->p)`. -/
def wantsCore (s : Dataplane π) (lastth : Option (ThreadRef π)) : Option π :=
  (lastth.map ThreadRef.p).filter fun p =>
    !s.procs.removed p && s.lists.overloaded p

def pickThreadForCore (s : Dataplane π) (core : Nat) :
    Except Fault (Dataplane π × Option (ThreadRef π)) :=
  match (s.cores.next core).filter fun th => !s.procs.removed th.p with
  | some th =>
    match s.cores.current core with
    | none => .error .overrun
    | some cur => .ok ({ s with cores := s.cores.endPreempt cur.p }, some th)
  | none =>
    match s.lists.overloadedProcs with
    | [] => .ok (s, none)
    | top :: _ =>
      let p := ((s.wantsCore (s.cores.current core)).or
        (s.wantsCore (s.cores.prev core))).getD top
      .ok (s.pickThreadForProc p core)

/-- `val = th->core + 1; write(th->park_efd, &val, sizeof(val))`. -/
def writeEfd (s : Dataplane π) (th : ThreadRef π) : Dataplane π :=
  { s with
    wakes := update s.wakes th
      (s.wakes th ++ [s.threads.core th + 1]) }

def wakeKthreadOnCore (s : Dataplane π) (th : ThreadRef π) (core : Nat) :
    Except Fault (Dataplane π) :=
  if s.cores.availCores core = false then .error .wakeBusyCore
  else do
    let s ← s.coreReserve core th
    let s ← if s.threads.parked th then s.threadReserve th core else .ok s
    .ok (s.writeEfd th)

/-- The end of `cores_park_kthread`: try to find another thread to run on the
core. -/
def regrantCore (s : Dataplane π) (core : Nat) :
    Except Fault (Dataplane π) := do
  let (s, thNew) ← s.pickThreadForCore core
  match thNew with
  | none => .ok s
  | some thNew => s.wakeKthreadOnCore thNew core

/-- `cores_park_kthread` once it is clear that the kthread stays parked. -/
def releaseCore (s : Dataplane π) (th : ThreadRef π) (core : Nat) :
    Except Fault (Dataplane π) := do
  let s ← threadCede { s with cores := s.cores.cede core } th
  s.regrantCore core

/-- `cores_park_kthread`; `recvHeadWb` is what it reads from the write-back
word of the kthread's receive queue. -/
def coresParkKthread (s : Dataplane π) (th : ThreadRef π) (force : Bool)
    (recvHeadWb : BitVec 32) : Except Fault (Dataplane π × Bool) :=
  let core := s.threads.core th
  if s.cores.availCores core then .error .parkIdleCore
  else if s.threads.availableThreads th then .error .parkIdleThread
  else if s.cores.next core = none ∧ force = false then
    let s :=
      { s with
        rxq := update s.rxq th
          (lrpcPollSendTail (s.rxq th) recvHeadWb) }
    if 0 < lrpcGetCachedLength (s.rxq th) then .ok (s.writeEfd th, false)
    else (s.releaseCore th core).map fun s => (s, true)
  else (s.releaseCore th core).map fun s => (s, true)

/-- The preemption at the end of `cores_add_core`. -/
def preemptCore (s : Dataplane π) (th : ThreadRef π) (core : Nat) :
    Except Fault (Dataplane π) := do
  let s ← s.threadReserve th core
  match s.cores.current core with
  | none => .error .overrun
  | some cur =>
    if s.cores.next core ≠ none then .error .addWaiting
    else
      let lists := s.lists.procSetOverloaded cur.p
      let cores := s.cores.beginPreempt core cur.p th
      .ok
        { s with
          lists := lists
          cores := cores
          signalled := update s.signalled cur true }

def coresAddCore (s : Dataplane π) (p : π) :
    Except Fault (Dataplane π × Option (ThreadRef π)) :=
  if (s.threads.activeThreads p).length = s.procs.threadCount p then
    .ok (s, none)
  else do
    let s := { s with pendingTimer := update s.pendingTimer p false }
    let core ← s.pickCoreForProc p
    let (s, th) := s.pickThreadForProc p core
    match th with
    | none => .error .addNoThread
    | some th =>
      if s.threads.availableThreads th = false then .error .addActiveThread
      else if s.cores.availCores core then do
        let s ← s.wakeKthreadOnCore th core
        .ok (s, some th)
      else do
        let s ← s.preemptCore th core
        .ok (s, some th)

end Dataplane

end Libut.Hwalloc
