import Libut.Machine.System
import Libut.Runtime.Sched

/-!
Who executes on which stack (`runtime/sched.c`, `runtime/switch.S`).

A uthread that stops running is published to its wakers before the kthread has
left its stack, so the next kthread to run it must wait for `stack_busy`. The
flag is cleared in three places: by `__jmp_thread_direct` after the old frame
is saved, by `schedule()` through the kthread-local `__self`, and by the fast
path of `enter_schedule` that pops the very thread it was leaving. Each load or
store another kthread can observe is a step of its own here. Queues are kept
without their order, and any queued thread may be popped, so every policy of
`schedule()` is a run of this system.
-/

namespace Libut.Runtime

open Function Machine

/-- Where a kthread is. Its stack is that of the first thread named by
`running`, `marked`, `published` and `directWait`; in `directSaved` the frame
of `oldth` is saved and its stack is not touched again; elsewhere the kthread
is on its runtime stack. -/
inductive StackPc (τ : Type)
  | running (th : τ)
  /-- `thread_park_and_unlock_np` before it drops the waiters' lock. -/
  | marked (myth : τ)
  /-- In `enter_schedule(myth)`. -/
  | published (myth : τ)
  /-- `jmp_thread_direct`, waiting for `newth->stack_busy`. -/
  | directWait (oldth newth : τ)
  /-- `__jmp_thread_direct` between the save of the old frame and the store to
  `oldth->stack_busy`. -/
  | directSaved (oldth newth : τ)
  /-- At the first line of `schedule()`, coming from `jmp_runtime(schedule)`. -/
  | schedule
  | scanning
  | parked
  /-- `jmp_thread`, waiting for `th->stack_busy`. -/
  | jumpWait (th : τ)
  /-- `thread_finish_yield_kthread` before, and after, its `thread_ready`. -/
  | finishYield
  | yielded
  | yieldParked
  /-- At the first line of `schedule()`, coming from
  `thread_finish_yield_kthread`. -/
  | yieldSchedule
  deriving DecidableEq, Repr

/-- A runnable thread waits in the queues of a kthread, or in the list `tmp` of
a `join_kthread` that a kthread is executing. -/
inductive Place (κ : Type)
  | queues (k : κ)
  | joining (k : κ)
  deriving DecidableEq, Repr

/-- `self` is the kthread-local `__self`. `visible th` says that a waker can
find `th`, and `saved th` that the frame in `th->tf` is the one `th` last had:
it is lost when `th` starts to run and there again when the frame is saved. -/
structure StackState (κ τ : Type) where
  state : τ → ThreadState
  stackBusy : τ → Bool
  visible : τ → Bool
  saved : τ → Bool
  queue : Place κ → List τ
  pc : κ → StackPc τ
  self : κ → Option τ

inductive StackAct (κ τ : Type)
  /-- The running thread sets `SLEEPING` and `stack_busy`. -/
  | mark (k : κ)
  /-- It drops the lock under which wakers look for it. -/
  | publish (k : κ)
  /-- `thread_ready` or `thread_throw`, into the queues of `k`. -/
  | ready (k : κ) (th : τ)
  /-- `enter_schedule` pops `th` under the lock. -/
  | popDirect (k : κ) (th : τ)
  /-- `enter_schedule` takes `th` from the receive queue without the lock. -/
  | popTargeted (k : κ) (th : τ)
  | directSave (k : κ)
  | directJump (k : κ)
  /-- `jmp_runtime(schedule)`. -/
  | jmpRuntime (k : κ)
  /-- The first statement of `schedule()`. -/
  | schedule (k : κ)
  /-- `schedule()` picks `th` and calls `jmp_thread`. -/
  | pop (k : κ) (th : τ)
  | jump (k : κ)
  | steal (l r : κ) (th : τ)
  | joinDrain (k r : κ) (th : τ)
  | joinWake (k : κ) (th : τ)
  | park (k : κ)
  | unpark (k : κ)
  /-- `thread_yield_kthread`. -/
  | yieldKthread (k : κ)
  | finishYield (k : κ)
  | yieldPark (k : κ)
  /-- `kthread_park` returns inside `thread_finish_yield_kthread`. -/
  | yieldReturn (k : κ)
  deriving Repr

variable {κ τ : Type} [DecidableEq κ] [DecidableEq τ]

namespace StackState

@[simp]
def setPc (s : StackState κ τ) (k : κ) (pc : StackPc τ) : StackState κ τ :=
  { s with pc := update s.pc k pc }

@[simp]
def setSelf (s : StackState κ τ) (k : κ) (th : Option τ) : StackState κ τ :=
  { s with self := update s.self k th }

@[simp]
def setState (s : StackState κ τ) (th : τ) (x : ThreadState) :
    StackState κ τ :=
  { s with state := update s.state th x }

@[simp]
def setBusy (s : StackState κ τ) (th : τ) (b : Bool) : StackState κ τ :=
  { s with stackBusy := update s.stackBusy th b }

@[simp]
def setVisible (s : StackState κ τ) (th : τ) (b : Bool) : StackState κ τ :=
  { s with visible := update s.visible th b }

@[simp]
def setSaved (s : StackState κ τ) (th : τ) (b : Bool) : StackState κ τ :=
  { s with saved := update s.saved th b }

@[simp]
def take (s : StackState κ τ) (p : Place κ) (th : τ) : StackState κ τ :=
  { s with queue := update s.queue p ((s.queue p).erase th) }

@[simp]
def put (s : StackState κ τ) (p : Place κ) (th : τ) : StackState κ τ :=
  { s with queue := update s.queue p (s.queue p ++ [th]) }

/-- The head of `jmp_thread` and of `jmp_thread_direct`: the popped thread
becomes `__self` and `RUNNING` before its stack is known to be free. -/
def claim (s : StackState κ τ) (k : κ) (th : τ) (pc : StackPc τ) :
    StackState κ τ :=
  ((s.setSelf k th).setState th .running).setPc k pc

def ready (s : StackState κ τ) (k : κ) (th : τ) : StackState κ τ :=
  (s.setState th .runnable).put (.queues k) th

/-- `jmp_runtime` saves the frame of `thread_self()` and goes to the runtime
stack. -/
def jmpRuntime (s : StackState κ τ) (k : κ) (pc : StackPc τ) :
    Option (StackState κ τ) :=
  (s.self k).map fun th => (s.setSaved th true).setPc k pc

/-- `if (__self != NULL) { __self->stack_busy = false; __self = NULL; }` -/
def schedule (s : StackState κ τ) (k : κ) : StackState κ τ :=
  match s.self k with
  | none => s.setPc k .scanning
  | some th => ((s.setBusy th false).setSelf k none).setPc k .scanning

/-- The stores of `thread_park_and_unlock_np` under the waiters' lock. -/
def mark (s : StackState κ τ) (k : κ) (stack : τ) :
    Option (StackState κ τ) :=
  (s.self k).map fun myth =>
    (((s.setState myth .sleeping).setBusy myth true).setVisible myth
      false).setPc k (.marked stack)

/-- `enter_schedule` after popping `th` under the lock: the same thread goes on
running, another one is entered through `jmp_thread_direct`. -/
def popDirect (s : StackState κ τ) (k : κ) (myth th : τ) : StackState κ τ :=
  if th = myth then
    (((s.take (.queues k) th).setState th .running).setBusy th false).setPc k
      (.running th)
  else
    (s.take (.queues k) th).claim k th (.directWait myth th)

/-- `thread_finish_yield_kthread` up to the park: `__self` stays as it is. -/
def finishYield (s : StackState κ τ) (k : κ) : Option (StackState κ τ) :=
  (s.self k).map fun myth => (s.ready k myth).setPc k .yielded

/-- Move one runnable thread. `join_kthread` sets `SLEEPING` on it just for
`thread_ready` to set `RUNNABLE` again. -/
def move (s : StackState κ τ) (p q : Place κ) (th : τ) :
    Option (StackState κ τ) :=
  if th ∈ s.queue p then
    some (((s.take p th).setState th .runnable).put q th)
  else none

end StackState

open StackState in
def stackNext (s : StackState κ τ) :
    StackAct κ τ → Option (StackState κ τ)
  | .mark k =>
    match s.pc k with
    | .running th => s.mark k th
    | _ => none
  | .publish k =>
    match s.pc k with
    | .marked th => some ((s.setVisible th true).setPc k (.published th))
    | _ => none
  | .ready k th =>
    if s.state th = .sleeping ∧ s.visible th = true then some (s.ready k th)
    else none
  | .popDirect k th =>
    match s.pc k with
    | .published myth =>
      if th ∈ s.queue (.queues k) then some (s.popDirect k myth th)
      else none
    | _ => none
  | .popTargeted k th =>
    match s.pc k with
    | .published myth =>
      if th ∈ s.queue (.queues k) ∧ s.stackBusy th = false then
        some ((s.take (.queues k) th).claim k th (.directWait myth th))
      else none
    | _ => none
  | .directSave k =>
    match s.pc k with
    | .directWait oldth newth =>
      if s.stackBusy newth = false then
        some ((s.setSaved oldth true).setPc k (.directSaved oldth newth))
      else none
    | _ => none
  | .directJump k =>
    match s.pc k with
    | .directSaved oldth newth =>
      some (((s.setBusy oldth false).setSaved newth false).setPc k
        (.running newth))
    | _ => none
  | .jmpRuntime k =>
    match s.pc k with
    | .published _ => s.jmpRuntime k .schedule
    | _ => none
  | .schedule k =>
    match s.pc k with
    | .schedule | .yieldSchedule => some (s.schedule k)
    | _ => none
  | .pop k th =>
    match s.pc k with
    | .scanning =>
      if th ∈ s.queue (.queues k) then
        some ((s.take (.queues k) th).claim k th (.jumpWait th))
      else none
    | _ => none
  | .jump k =>
    match s.pc k with
    | .jumpWait th =>
      if s.stackBusy th = false then
        some ((s.setSaved th false).setPc k (.running th))
      else none
    | _ => none
  | .steal l r th => s.move (.queues r) (.queues l) th
  | .joinDrain k r th => s.move (.queues r) (.joining k) th
  | .joinWake k th => s.move (.joining k) (.queues k) th
  | .park k =>
    if s.pc k = .scanning then some (s.setPc k .parked) else none
  | .unpark k =>
    if s.pc k = .parked then some (s.setPc k .scanning) else none
  | .yieldKthread k =>
    match s.pc k with
    | .running _ => s.jmpRuntime k .finishYield
    | _ => none
  | .finishYield k =>
    if s.pc k = .finishYield then s.finishYield k else none
  | .yieldPark k =>
    if s.pc k = .yielded then some (s.setPc k .yieldParked) else none
  | .yieldReturn k =>
    if s.pc k = .yielded ∨ s.pc k = .yieldParked then
      some (s.setPc k .yieldSchedule)
    else none

def stackStart (s : StackState κ τ) : Prop :=
  (∀ k, s.pc k = .scanning ∧ s.self k = none) ∧ (∀ p, s.queue p = []) ∧
  ∀ th, s.state th = .sleeping ∧ s.stackBusy th = false ∧ s.saved th = true

def stackSystem (κ τ : Type) [DecidableEq κ] [DecidableEq τ] :
    System (StackState κ τ) (StackAct κ τ) where
  init := stackStart
  next := stackNext

section Reading

variable (s : StackState κ τ)

/-- The stack kthread `k` executes on, `none` for its runtime stack. -/
def StackState.onStack (k : κ) : Option τ :=
  match s.pc k with
  | .running th | .marked th | .published th | .directWait th _ => some th
  | _ => none

def StackState.enters : StackAct κ τ → Option τ
  | .directJump k =>
    match s.pc k with
    | .directSaved _ newth => some newth
    | _ => none
  | .jump k =>
    match s.pc k with
    | .jumpWait th => some th
    | _ => none
  | _ => none

end Reading

/-- What the stack handshake needs of a step: when `schedule()` is entered from
`thread_finish_yield_kthread`, where `__self` still names the thread that
yielded and was made runnable before the park, that thread is not leaving
another stack at this moment. -/
def stackOk (s : StackState κ τ) : StackAct κ τ → Prop
  | .schedule k =>
    s.pc k = .yieldSchedule → ∀ th ∈ s.self k, s.stackBusy th = false
  | _ => True

end Libut.Runtime
