import Libut.Machine.Ring
import Libut.Machine.SwapRemove
import Libut.Runtime.Timer

/-!
Run queues and the life of a kthread (`runtime/sched.c`, `runtime/kthread.c`).

Each function that runs under a kthread's lock is a function on the kthreads it
touches, and the runtime is a system whose steps are these functions. The lock
of a kthread is held in the scheduler (`again`, `stealing`, `found`) and free
elsewhere, so another kthread can reach its queues only in the other phases.

What the environment decides comes with the step: the thread that
`softirq_run_thread` creates, whether the watchdog is due, whether a thread's
stack is still busy, whether the channels to the daemon are quiet, and whether
enough kthreads are running for one to park.
-/

namespace Libut.Runtime

open Machine

def runtimeRqSize : Nat := 32

def runtimeRrqSize : Nat := 7

inductive ThreadState
  | running
  | runnable
  | sleeping
  deriving DecidableEq, Repr

/-- The queues of `struct kthread`. `rq.head` is `rq_head`, and so on;
`qRqHead` and `qRqTail` are the copies in `q_ptrs` that the daemon reads.
`entered` and `left` record what passed through the `rq` window. -/
structure KThread (τ : Type) where
  rq : Ring 32 τ
  rqOverflow : List τ
  qRqHead : BitVec 32
  qRqTail : BitVec 32
  rrq : Ring 32 τ
  parked : Bool
  detached : Bool
  entered : List τ
  left : List τ

section Queues

variable {τ : Type}

/-- `rq[rq_head++ % RUNTIME_RQ_SIZE] = th; q_ptrs->rq_head++`. -/
def KThread.rqPush (k : KThread τ) (th : τ) : KThread τ :=
  { k with
    rq := k.rq.push runtimeRqSize th
    qRqHead := k.qRqHead + 1
    entered := k.entered ++ [th] }

/-- `rq_tail++; q_ptrs->rq_tail++`. -/
def KThread.rqPop (k : KThread τ) : KThread τ :=
  { k with
    rq := k.rq.drop 1
    qRqTail := k.qRqTail + 1
    left := k.left ++ [k.rq.front runtimeRqSize] }

/-- The loop of `drain_overflow`, with the overflow list as its argument. -/
def drainLoop (l : KThread τ) : List τ → KThread τ
  | [] => { l with rqOverflow := [] }
  | th :: rest =>
    if l.rq.length < runtimeRqSize then drainLoop (l.rqPush th) rest
    else { l with rqOverflow := th :: rest }

def drainOverflow (l : KThread τ) : KThread τ := drainLoop l l.rqOverflow

/-- `thread_ready` on the kthread that calls it. -/
def threadReady (k : KThread τ) (th : τ) : KThread τ :=
  if runtimeRqSize ≤ k.rq.length then
    { k with rqOverflow := k.rqOverflow ++ [th] }
  else k.rqPush th

/-- What `thread_throw` does to another kthread whose lock it holds. -/
def threadThrowLocked (r : KThread τ) (th : τ) : KThread τ :=
  if runtimeRrqSize ≤ r.rrq.length then
    { r with rqOverflow := r.rqOverflow ++ [th] }
  else { r with rrq := r.rrq.push runtimeRrqSize th }

/-- How `steal_work` ends. `stole` carries the softirq thread it created, if
that is what it enqueued; `detach` is the call of `kthread_detach`. -/
inductive Steal (τ : Type)
  | stole (fresh : Option τ)
  | missed
  | detach
  deriving DecidableEq, Repr

/-- Half of the window of `r` becomes the queue of `l`. -/
def stealHalf (l r : KThread τ) : KThread τ × KThread τ :=
  let avail := (r.rq.head - r.rq.tail + 2 - 1) / 2
  let taken := (List.range avail.toNat).map fun i =>
    r.rq.slots (r.rq.slot runtimeRqSize i)
  ({ l with
      rq :=
        { l.rq with
          slots := fun i =>
            if i < avail.toNat then r.rq.slots (r.rq.slot runtimeRqSize i)
            else l.rq.slots i
          head := avail }
      qRqHead := l.qRqHead + avail
      entered := l.entered ++ taken }, { r with
      rq := r.rq.drop avail
      qRqTail := r.qRqTail + avail
      left := r.left ++ taken })

/-- `l->rq[l->rq_head++] = th; l->q_ptrs->rq_head++`, without a modulus. -/
def stealEnqueue (l : KThread τ) (th : τ) : KThread τ :=
  { l with
    rq :=
      { l.rq with
        slots := Function.update l.rq.slots l.rq.head.toNat th
        head := l.rq.head + 1 }
    qRqHead := l.qRqHead + 1
    entered := l.entered ++ [th] }

/-- `steal_work` once it holds the lock of `r`. -/
def stealWork (l r : KThread τ) (softirq : Option τ) :
    KThread τ × KThread τ × Steal τ :=
  if r.detached then (l, r, .missed)
  else if r.rq.head ≠ r.rq.tail then
    ((stealHalf l r).1, (stealHalf l r).2, .stole none)
  else
    match r.rqOverflow with
    | th :: rest =>
      (stealEnqueue l th, { r with rqOverflow := rest }, .stole none)
    | [] =>
      match softirq with
      | some th => (stealEnqueue l th, r, .stole (some th))
      | none => (l, r, if r.parked then .detach else .missed)

inductive Picked (τ : Type)
  | rrq (th : τ)
  | rq (th : τ)
  | softirq (th : τ)
  | nothing
  deriving DecidableEq, Repr

/-- The code at `done` in `schedule` when no thread has been chosen. -/
def scheduleDone (l : KThread τ) : KThread τ × Picked τ :=
  (drainOverflow l.rqPop, .rq (l.rq.front runtimeRqSize))

/-- `schedule` from `again` to the search for work elsewhere. -/
def scheduleAgain (l : KThread τ) (softirq : Option τ) :
    KThread τ × Picked τ :=
  let l := drainOverflow l
  if l.rrq.head ≠ l.rrq.tail then
    (drainOverflow { l with rrq := l.rrq.drop 1 },
      .rrq (l.rrq.front runtimeRrqSize))
  else
    let l := { l with rrq := l.rrq.reset }
    if l.rq.head ≠ l.rq.tail then scheduleDone l
    else
      let l := { l with rq := l.rq.reset }
      match softirq with
      | some th => (drainOverflow l, .softirq th)
      | none => (l, .nothing)

/-- `enter_schedule`; with `nothing` it goes on to `schedule`. -/
def enterSchedule (k : KThread τ) (stackBusy watchdog : Bool) :
    KThread τ × Picked τ :=
  if k.rrq.head ≠ k.rrq.tail ∧ stackBusy = false then
    ({ k with rrq := k.rrq.drop 1 }, .rrq (k.rrq.front runtimeRrqSize))
  else if k.rq.head = k.rq.tail ∨ k.rrq.head ≠ k.rrq.tail ∨ watchdog then
    (k, .nothing)
  else (k.rqPop, .rq (k.rq.front runtimeRqSize))

/-- The draining part of `join_kthread`: the loop runs while `rq_tail` is
below `rq_head` as an unsigned number. -/
def joinDrain (k : KThread τ) : KThread τ × List τ :=
  let count := k.rq.head.toNat - k.rq.tail.toNat
  let drained := (List.range count).map fun i =>
    k.rq.slots (k.rq.slot runtimeRqSize i)
  ({ k with
      rq := k.rq.reset
      rqOverflow := []
      qRqTail := k.qRqTail + BitVec.ofNat 32 count
      left := k.left ++ drained }, drained ++ k.rqOverflow)

end Queues

/-- Where a kthread is. A preempted kthread re-enters the scheduler through
`yielding`; `leaving` lies between a thread's giving up the processor and the
end of `enter_schedule`. -/
inductive SchedPc (τ : Type)
  | thread (th : τ)
  | leaving (th : τ)
  | yielding
  | again
  | stealing
  | found
  | parked
  deriving DecidableEq, Repr

def SchedPc.unlocked {τ : Type} : SchedPc τ → Bool
  | .thread _ => true
  | .leaving _ => true
  | .yielding => true
  | .again => false
  | .stealing => false
  | .found => false
  | .parked => true

/-- The kthread executes code of a uthread, which may call `thread_ready`. -/
def SchedPc.inThread {τ : Type} : SchedPc τ → Bool
  | .thread _ => true
  | .leaving _ => true
  | .yielding => false
  | .again => false
  | .stealing => false
  | .found => false
  | .parked => false

structure SchedState (κ τ ε : Type) where
  kth : κ → KThread τ
  pc : κ → SchedPc τ
  state : τ → ThreadState
  /-- `ks[0..nrks)`, the attached kthreads. -/
  ks : List κ
  timers : TimerState κ ε

inductive SchedAct (κ τ ε : Type)
  | ready (k : κ) (th : τ)
  | throw (k r : κ) (th : τ)
  | sleep (k : κ)
  | enterSchedule (k : κ) (stackBusy watchdog : Bool)
  | watchdog (k : κ) (th : τ)
  | again (k : κ) (softirq : Option τ)
  | steal (l r : κ) (softirq : Option τ) (quiet : Bool)
  | retry (k : κ)
  | done (k : κ)
  | yieldKthread (k : κ)
  | park (k : κ)
  | noPark (k : κ)
  | unpark (k : κ)
  | join (k r : κ) (quiet : Bool)
  | timerStart (k : κ) (e : ε) (deadlineUs : Nat)
  | timerSoftirq (k r : κ) (nowUs : Nat)

variable {κ τ ε : Type} [DecidableEq κ] [DecidableEq τ] [DecidableEq ε]

namespace SchedState

def setKth (s : SchedState κ τ ε) (k : κ) (x : KThread τ) :
    SchedState κ τ ε :=
  { s with kth := Function.update s.kth k x }

def setPc (s : SchedState κ τ ε) (k : κ) (pc : SchedPc τ) :
    SchedState κ τ ε :=
  { s with pc := Function.update s.pc k pc }

def setState (s : SchedState κ τ ε) (th : τ) (x : ThreadState) :
    SchedState κ τ ε :=
  { s with state := Function.update s.state th x }

/-- `thread_ready(th)` on kthread `k`. -/
def ready (s : SchedState κ τ ε) (k : κ) (th : τ) : SchedState κ τ ε :=
  (s.setState th .runnable).setKth k (threadReady (s.kth k) th)

/-- Go on with what was picked: `jmp_thread`, or the scheduler at `pc`. -/
def resume (s : SchedState κ τ ε) (k : κ) (pc : SchedPc τ) :
    Picked τ → SchedState κ τ ε
  | .rrq th => (s.setState th .running).setPc k (.thread th)
  | .rq th => (s.setState th .running).setPc k (.thread th)
  | .softirq th => (s.setState th .running).setPc k (.thread th)
  | .nothing => s.setPc k pc

end SchedState

/-- `thread_throw(th, kidx)` on kthread `k`, with `allks[kidx] = r`. -/
def threadThrow (s : SchedState κ τ ε) (k r : κ) (th : τ) :
    SchedState κ τ ε :=
  if k = r then s.ready k th
  else if (s.pc r).unlocked ∧
      ¬ ((s.kth r).detached ∨ (s.kth r).parked) then
    (s.setState th .runnable).setKth r (threadThrowLocked (s.kth r) th)
  else s.ready k th

/-- `kthread_detach(r)` on kthread `k`. It returns early unless the channels
between `r` and the daemon are `quiet`. -/
def kthreadDetach (s : SchedState κ τ ε) (k r : κ) (quiet : Bool) :
    Option (SchedState κ τ ε) :=
  if quiet then
    if r ∈ s.ks then
      (timerMerge s.timers k r).map fun timers =>
        { s.setKth r { s.kth r with detached := true } with
          ks := swapRemove s.ks (s.ks.idxOf r)
          timers := timers }
    else none
  else some s

/-- The part of `kthread_park` after the wake-up: unpark and, if need be,
`kthread_attach`. -/
def kthreadUnpark (s : SchedState κ τ ε) (k : κ) : SchedState κ τ ε :=
  if (s.kth k).detached then
    { s.setKth k { s.kth k with parked := false, detached := false } with
      ks := s.ks ++ [k] }
  else s.setKth k { s.kth k with parked := false }

/-- `steal_work(l, r)` when it gets the lock of `r`. -/
def stealStep (s : SchedState κ τ ε) (l r : κ) (softirq : Option τ)
    (quiet : Bool) : Option (SchedState κ τ ε) :=
  match stealWork (s.kth l) (s.kth r) softirq with
  | (l', r', .stole fresh) =>
    let s := (s.setKth l l').setKth r r'
    let s := s.setPc l .found
    match fresh with
    | some th => some (s.setState th .runnable)
    | none => some s
  | (l', r', .missed) => some ((s.setKth l l').setKth r r')
  | (l', r', .detach) => kthreadDetach ((s.setKth l l').setKth r r') l r quiet

/-- The re-waking loop of `join_kthread`. -/
def rewake (s : SchedState κ τ ε) (k : κ) : List τ → SchedState κ τ ε
  | [] => s
  | th :: rest => rewake ((s.setState th .sleeping).ready k th) k rest

/-- `join_kthread(r)` on kthread `k` when it gets the lock of `r`. -/
def joinStep (s : SchedState κ τ ε) (k r : κ) (quiet : Bool) :
    Option (SchedState κ τ ε) :=
  if (s.kth r).detached ∨ ¬ (s.kth r).parked ∨ r = k then some s
  else
    let (r', tmp) := joinDrain (s.kth r)
    (kthreadDetach (s.setKth r r') k r quiet).map fun s => rewake s k tmp

def schedNext (s : SchedState κ τ ε) :
    SchedAct κ τ ε → Option (SchedState κ τ ε)
  | .ready k th => if (s.pc k).inThread then some (s.ready k th) else none
  | .throw k r th =>
    if (s.pc k).inThread then some (threadThrow s k r th) else none
  | .sleep k =>
    match s.pc k with
    | .thread th => some ((s.setState th .sleeping).setPc k (.leaving th))
    | _ => none
  | .enterSchedule k stackBusy watchdog =>
    match s.pc k with
    | .leaving _ =>
      let (k', picked) := enterSchedule (s.kth k) stackBusy watchdog
      some ((s.setKth k k').resume k .again picked)
    | _ => none
  | .watchdog k th =>
    if s.pc k = .again then
      some ((s.setKth k (drainOverflow (s.kth k))).resume k .again
        (.softirq th))
    else none
  | .again k softirq =>
    if s.pc k = .again then
      let (k', picked) := scheduleAgain (s.kth k) softirq
      some ((s.setKth k k').resume k .stealing picked)
    else none
  | .steal l r softirq quiet =>
    if s.pc l = .stealing ∧ l ≠ r ∧ (s.pc r).unlocked then
      stealStep s l r softirq quiet
    else none
  | .retry k =>
    if s.pc k = .stealing then some (s.setPc k .again) else none
  | .done k =>
    if s.pc k = .found then
      let (k', picked) := scheduleDone (s.kth k)
      some ((s.setKth k k').resume k .again picked)
    else none
  | .yieldKthread k =>
    match s.pc k with
    | .thread th =>
      some (((s.setState th .sleeping).ready k th).setPc k .yielding)
    | _ => none
  | .park k =>
    if s.pc k = .stealing ∨ s.pc k = .yielding then
      some ((s.setKth k { s.kth k with parked := true }).setPc k .parked)
    else none
  | .noPark k =>
    if s.pc k = .yielding then some (s.setPc k .again) else none
  | .unpark k =>
    if s.pc k = .parked then some ((kthreadUnpark s k).setPc k .again)
    else none
  | .join k r quiet =>
    if (s.pc k).inThread ∧ (s.pc r).unlocked then joinStep s k r quiet
    else none
  | .timerStart k e deadlineUs =>
    if (s.pc k).inThread then
      (timerStartLocked s.timers k e deadlineUs).map fun timers =>
        { s with timers := timers }
    else none
  | .timerSoftirq k r nowUs =>
    if (s.pc k).inThread then
      some { s with timers := timerSoftirq s.timers r nowUs }
    else none

def schedSystem (init : SchedState κ τ ε → Prop) :
    System (SchedState κ τ ε) (SchedAct κ τ ε) where
  init := init
  next := schedNext

end Libut.Runtime
