import Libut.Hwalloc.Cores

/-!
The dataplane of the daemon as a system (`hwalloc/cores.c`, `hwalloc/rx.c`,
`hwalloc/commands.c`, `hwalloc/dataplane.c`, and what `hwalloc/control.c` does
to a proc before the dataplane hears of it).

A step is one call the dataplane loop makes, or one store of the control thread
that the dataplane can see. What a call reads from memory shared with runtimes
comes with the step: queue positions, write-back words, the clock.
-/

namespace Libut.Hwalloc

open Function Machine Base

variable {π : Type} [DecidableEq π]

/-- What a runtime's header tells `control_create_proc`. `next_thread_rr` is
not initialised by the code and has whatever value the memory had. -/
structure ProcConfig where
  threadCount : Nat
  guaranteedCores : Nat
  nextThreadRr : BitVec 32
  rxq : Nat → LrpcChanOut

/-- What `cores_is_proc_congested` reads: the runtime's published queue
positions and the write-back word of each receive queue, and the clock. -/
structure Observed (π : Type) where
  rqHead : ThreadRef π → BitVec 32
  rqTail : ThreadRef π → BitVec 32
  rxqWb : ThreadRef π → BitVec 32
  microtime : π → BitVec 64

/-- Store `v i` to a field of each of the first `n` threads of `p`. -/
def onThreads {β : Type} (f : ThreadRef π → β) (p : π) (n : Nat)
    (v : Nat → β) : ThreadRef π → β :=
  fun th => if th.p = p ∧ th.idx < n then v th.idx else f th

/-- `p->threads[0..thread_count)` in order. -/
def procThreads (p : π) (n : Nat) : List (ThreadRef π) :=
  (List.range n).map fun i => ⟨p, i⟩

namespace Dataplane

/-- `control_create_proc`, as far as the dataplane can see it. -/
def controlCreateProc (s : Dataplane π) (p : π) (cfg : ProcConfig) :
    Dataplane π :=
  { s with
    procs :=
      { s.procs with
        created := p :: s.procs.created
        pending := p :: s.procs.pending
        removed := update s.procs.removed p false
        guaranteedCores :=
          update s.procs.guaranteedCores p cfg.guaranteedCores
        threadCount :=
          update s.procs.threadCount p cfg.threadCount }
    refs := { s.refs with ref := update s.refs.ref p 1 }
    threads :=
      { s.threads with
        parked := onThreads s.threads.parked p cfg.threadCount fun _ => true
        atIdx := onThreads s.threads.atIdx p cfg.threadCount fun _ => none }
    poll :=
      { s.poll with
        tsIdx := onThreads s.poll.tsIdx p cfg.threadCount fun _ => none }
    rxq := onThreads s.rxq p cfg.threadCount cfg.rxq
    waking := onThreads s.waking p cfg.threadCount fun _ => false
    wakes := onThreads s.wakes p cfg.threadCount fun _ => []
    signalled := onThreads s.signalled p cfg.threadCount fun _ => false
    pendingTimer := update s.pendingTimer p false
    nextThreadRr := update s.nextThreadRr p cfg.nextThreadRr }

/-- `cores_init_proc` up to the first `cores_add_core`. -/
def resetProc (s : Dataplane π) (p : π) : Dataplane π :=
  let n := s.procs.threadCount p
  let first := bitmapFindNextSet s.cores.onlineCores ncpu
  { s with
    cores :=
      { s.cores with
        inflightPreempts := update s.cores.inflightPreempts p 0 }
    threads :=
      { s.threads with
        activeThreads := update s.threads.activeThreads p []
        availableThreads :=
          onThreads s.threads.availableThreads p n fun _ => true
        core := onThreads s.threads.core p n fun _ => first
        idleThreads :=
          update s.threads.idleThreads p (procThreads p n) }
    lists :=
      { s.lists with
        bursting := update s.lists.bursting p false
        overloaded := update s.lists.overloaded p false }
    launched := update s.launched p true }

def coresInitProc (s : Dataplane π) (p : π) : Except Fault (Dataplane π) :=
  ((s.resetProc p).coresAddCore p).map Prod.fst

/-- `dp.clients[dp.nr_clients++] = p`. -/
def pushClient (s : Dataplane π) (p : π) : Dataplane π :=
  { s with
    procs :=
      { s.procs with
        clients := s.procs.clients ++ [p]
        pending := s.procs.pending.erase p } }

def dpClientsAddClient (s : Dataplane π) (p : π) :
    Except Fault (Dataplane π) :=
  if s.procs.clients.length < hwallocdMaxProc then
    (s.pushClient p).coresInitProc p
  else .error .overrun

/-- The body of the loop of `cores_free_proc`: a thread whose bit is cleared
occupies a core. With `force` the receive queue is not looked at. -/
def freeThread (s : Dataplane π) (th : ThreadRef π) :
    Except Fault (Dataplane π) :=
  if s.threads.availableThreads th then .ok s
  else (s.coresParkKthread th true 0).map Prod.fst

def coresFreeProc (s : Dataplane π) (p : π) : Except Fault (Dataplane π) :=
  (procThreads p (s.procs.threadCount p)).foldlM freeThread
    { s with lists := (s.lists.procClearBursting p).procClearOverloaded p }

/-- `dp.clients[i] = dp.clients[--dp.nr_clients]`. -/
def dropClient (s : Dataplane π) (i : Nat) : Dataplane π :=
  { s with
    procs := { s.procs with clients := swapRemove s.procs.clients i } }

def dpClientsRemoveClient (s : Dataplane π) (p : π) :
    Except Fault (Dataplane π) :=
  match s.procs.clients.idxOf? p with
  | none => .ok s
  | some i => do
      let s ← (s.dropClient i).coresFreeProc p
      .ok { s with refs := s.refs.procPut p }

/-- `lrpc_send(&th->rxq, cmd, payload)`. -/
def rxqSend (s : Dataplane π) (th : ThreadRef π) (cmd payload : BitVec 64)
    (mem : LrpcMem) : Dataplane π × Bool :=
  let (chan, _, sent) := lrpcSend (s.rxq th) mem cmd payload
  ({ s with rxq := update s.rxq th chan }, sent)

/-- `rx_send_to_runtime`; `mem` is the memory of the receive queue it ends up
sending to. The active array has an element to pick unless it is empty. -/
def rxSendToRuntime (s : Dataplane π) (p : π) (hash : BitVec 32)
    (cmd payload : BitVec 64) (mem : LrpcMem) :
    Except Fault (Dataplane π × Bool) :=
  let active := s.threads.activeThreads p
  match active[hash.toNat % active.length]? with
  | some th => .ok (s.rxqSend th cmd payload mem)
  | none =>
    if 0 < s.procs.guaranteedCores p ∨ 0 < s.cores.nrAvailCores then do
      let (s, th) ← s.coresAddCore p
      match th with
      | none => .ok (s, false)
      | some th => .ok (s.rxqSend th cmd payload mem)
    else
      match (s.threads.idleThreads p).head? with
      | none => .error .overrun
      | some th =>
        .ok (rxqSend { s with lists := s.lists.procSetOverloaded p } th
          cmd payload mem)

def rxcmdJoin : BitVec 64 := 0

/-- `TXCMD_PARKED` in `commands_drain_queue`. -/
def cmdParked (s : Dataplane π) (t : ThreadRef π) (payload : BitVec 64)
    (recvHeadWb : BitVec 32) (mem : LrpcMem) : Except Fault (Dataplane π) := do
  let (s, stays) ← s.coresParkKthread t false recvHeadWb
  if stays = true ∧ payload ≠ 0 then
    let rr := s.nextThreadRr t.p
    let s :=
      { s with nextThreadRr := update s.nextThreadRr t.p (rr + 1) }
    (s.rxSendToRuntime t.p rr rxcmdJoin payload mem).map Prod.fst
  else .ok s

/-- `TXCMD_PARKED_LAST` in `commands_drain_queue`. -/
def cmdParkedLast (s : Dataplane π) (t : ThreadRef π) (payload : BitVec 64)
    (recvHeadWb : BitVec 32) (now : BitVec 64) :
    Except Fault (Dataplane π) := do
  let (s, stays) ← s.coresParkKthread t false recvHeadWb
  if stays = true ∧ (s.threads.activeThreads t.p).length = 0 ∧ payload ≠ 0 then
    .ok
      { s with
        pendingTimer := update s.pendingTimer t.p true
        deadlineUs := update s.deadlineUs t.p (now + payload) }
  else .ok s

/-- One pass of the loop of `cores_is_proc_congested`. -/
def checkThread (obs : Observed π) (acc : Dataplane π × Bool)
    (th : ThreadRef π) : Dataplane π × Bool :=
  let (s, congested) := acc
  let polled :=
    { s with
      rxq := update s.rxq th
        (lrpcPollSendTail (s.rxq th) (obs.rxqWb th))
      lastRqHead := update s.lastRqHead th (obs.rqHead th)
      lastRxqHead := update s.lastRxqHead th (s.rxq th).sendHead }
  if congested then (polled, true)
  else if s.waking th then
    ({ polled with waking := update s.waking th false }, false)
  else
    (polled, wrapsLt (obs.rqTail th) (s.lastRqHead th) ||
      wrapsLt (obs.rxqWb th) (s.lastRxqHead th))

def coresIsProcCongested (s : Dataplane π) (p : π) (obs : Observed π) :
    Dataplane π × Bool :=
  let (s, congested) :=
    (s.threads.activeThreads p).foldl (checkThread obs) (s, false)
  (s, congested ||
    (s.pendingTimer p && decide (s.deadlineUs p ≤ obs.microtime p)))

/-- One pass of the first loop of `cores_adjust_assignments`. The subtraction
is on unsigned integers. -/
def adjustClient (obs : Observed π) (s : Dataplane π) (p : π) :
    Except Fault (Dataplane π) :=
  let running : BitVec 32 :=
    BitVec.ofNat 32 (s.threads.activeThreads p).length -
      s.cores.inflightPreempts p
  let lists := if 0 < running then s.lists.procClearOverloaded p else s.lists
  let (s, congested) := coresIsProcCongested { s with lists := lists } p obs
  if congested = false then .ok s
  else if (s.threads.activeThreads p).length < s.procs.guaranteedCores p then
    (s.coresAddCore p).map Prod.fst
  else .ok { s with lists := s.lists.procSetOverloaded p }

/-- The second loop of `cores_adjust_assignments`. A pass takes at most the
proc it is at from the list and adds procs at its head only, so the procs still
to come are those that were behind it. -/
def grantCores (s : Dataplane π) : List π → Except Fault (Dataplane π)
  | [] => .ok s
  | p :: rest =>
    if s.cores.nrAvailCores = 0 then .ok s
    else do
      let (s, _) ← s.coresAddCore p
      s.grantCores rest

def coresAdjustAssignments (s : Dataplane π) (obs : Observed π) :
    Except Fault (Dataplane π) := do
  let s ← s.procs.clients.foldlM (adjustClient obs) s
  s.grantCores s.lists.overloadedProcs

end Dataplane

/-- The cores part of `cores_init`; `usable` are the cores on the daemon's
package that are neither its own nor a second hyperthread. -/
def coresInit (cpuCount : Nat) (usable : Nat → Bool) : CoreTable π :=
  (List.range cpuCount).foldl
    (fun c i => if usable i then c.init i else c)
    { cpuCount := cpuCount, onlineCores := fun _ => false,
      availCores := fun _ => false, nrAvailCores := 0,
      current := fun _ => none, prev := fun _ => none, next := fun _ => none,
      inflightPreempts := fun _ => 0 }

/-- The daemon after `cores_init`: no proc exists yet. -/
def Dataplane.boot (cpuCount : Nat) (usable : Nat → Bool) : Dataplane π where
  cores := coresInit cpuCount usable
  lists := ⟨[], [], fun _ => false, fun _ => false⟩
  poll := ⟨[], fun _ => none⟩
  threads :=
    { parked := fun _ => true, core := fun _ => 0, atIdx := fun _ => none,
      availableThreads := fun _ => false, activeThreads := fun _ => [],
      idleThreads := fun _ => [] }
  procs :=
    { clients := [], threadCount := fun _ => 0, guaranteedCores := fun _ => 0,
      removed := fun _ => false, created := [], pending := [] }
  refs := ⟨fun _ => 0, []⟩
  waking _ := false
  wakes _ := []
  signalled _ := false
  rxq _ := ⟨0, 0, 0, 0, 0⟩
  lastRqHead _ := 0
  lastRxqHead _ := 0
  launched _ := false
  nextThreadRr _ := 0
  pendingTimer _ := false
  deadlineUs _ := 0

inductive DpAct (π : Type)
  /-- The control thread creates `p` and sends `DATAPLANE_ADD_CLIENT`. -/
  | create (p : π) (cfg : ProcConfig)
  /-- The dataplane processes the `DATAPLANE_ADD_CLIENT` of `p`. -/
  | add (p : π)
  /-- The control thread sets `p->removed`. -/
  | setRemoved (p : π)
  /-- The dataplane processes the `DATAPLANE_REMOVE_CLIENT` of `p`. -/
  | remove (p : π)
  | parked (th : ThreadRef π) (payload : BitVec 64) (recvHeadWb : BitVec 32)
      (mem : LrpcMem)
  | parkedLast (th : ThreadRef π) (payload : BitVec 64)
      (recvHeadWb : BitVec 32) (now : BitVec 64)
  | rxSend (p : π) (hash : BitVec 32) (cmd payload : BitVec 64)
      (mem : LrpcMem)
  | adjust (obs : Observed π)

def Dataplane.Running (s : Dataplane π) (th : ThreadRef π) : Prop :=
  s.threads.parked th = false ∧
  s.cores.current (s.threads.core th) = some th

instance (s : Dataplane π) (th : ThreadRef π) : Decidable (s.Running th) :=
  inferInstanceAs (Decidable (_ ∧ _))

/-- A call of the dataplane, `none` when the environment does not make it in
this state: procs are created once, messages about a proc arrive in the order
they were sent, and park commands come from running kthreads. -/
def dpStep (s : Dataplane π) : DpAct π → Option (Except Fault (Dataplane π))
  | .create p cfg =>
    if p ∉ s.procs.created ∧ 0 < cfg.threadCount ∧ cfg.threadCount ≤ ncpu
    then some (.ok (s.controlCreateProc p cfg))
    else none
  | .add p =>
    if p ∈ s.procs.pending then some (s.dpClientsAddClient p) else none
  | .setRemoved p =>
    if p ∈ s.procs.created then
      some (.ok { s with
          procs :=
            { s.procs with
              removed := update s.procs.removed p true } })
    else none
  | .remove p =>
    if s.procs.removed p = true ∧ p ∈ s.procs.clients then
      some (s.dpClientsRemoveClient p)
    else none
  | .parked th payload recvHeadWb mem =>
    if s.Running th then some (s.cmdParked th payload recvHeadWb mem)
    else none
  | .parkedLast th payload recvHeadWb now =>
    if s.Running th then some (s.cmdParkedLast th payload recvHeadWb now)
    else none
  | .rxSend p hash cmd payload mem =>
    if p ∈ s.procs.clients then
      some ((s.rxSendToRuntime p hash cmd payload mem).map Prod.fst)
    else none
  | .adjust obs => some (s.coresAdjustAssignments obs)

def dpNext (s : Dataplane π) (a : DpAct π) : Option (Dataplane π) :=
  (dpStep s a).bind Except.toOption

def dpSystem (π : Type) [DecidableEq π] : System (Dataplane π) (DpAct π) where
  init s := ∃ cpuCount usable, cpuCount ≤ ncpu ∧
    s = Dataplane.boot cpuCount usable
  next := dpNext

end Libut.Hwalloc
