import Libut.Hwalloc.PendingTimer
import Libut.Runtime.TimerRuns

/-!
Parking with timers (`runtime/kthread.c`, `runtime/softirq.c`,
`runtime/sched.c`, with `hwalloc/commands.c` on the other side). A kthread that
parks may leave timers behind. While other kthreads run, one of them is asked
to join it and merges its timers; the last one to park tells the daemon when
the first of its timers is due.

The model puts the timer heaps of each process and the bookkeeping of
`kthread_park` on top of the kthreads and the daemon. `spinks` is 0. What the
daemon reads of the receive queues are the positions of the receivers. When to
park, steal, join and receive is up to the scheduler and left open; only the
contents of the receive queues are not kept, since joining is possible at any
time.
-/

namespace Libut.Runtime

open Function Machine Base Hwalloc

variable {π ε : Type} [DecidableEq π]

structure RuntimeState (π ε : Type) where
  park : ParkState π
  /-- The address of each `struct kthread`. -/
  addr : ThreadRef π → BitVec 64
  heaps : π → TimerState Nat ε
  runningks : π → Int
  /-- `k->parked`, `k->detached` and `k->park_us`. -/
  parked : ThreadRef π → Bool
  detached : ThreadRef π → Bool
  parkUs : ThreadRef π → BitVec 64
  /-- `voluntary` and `remaining_ks` of a kthread that has taken itself off
  `runningks` and has not unlocked its lock yet. -/
  leaving : ThreadRef π → Option (Bool × Int)
  /-- `recv_head` of each receive queue. -/
  rxHead : ThreadRef π → BitVec 32
  /-- The daemon's clock when it last took `TXCMD_PARKED_LAST` of a proc. -/
  lastUs : π → BitVec 64

def spinks : Int := 0

/-- `timer_earliest_deadline`, called on kthread `k`. -/
def timerEarliestDeadline (s : TimerState Nat ε) (k : Nat) : BitVec 64 :=
  if s.timern k = 0 then 0 else BitVec.ofNat 64 (s.timers k 0).deadlineUs

/-- The command `kthread_park` sends. -/
def parkCommand (k : BitVec 64) (voluntary : Bool) (timern : Nat)
    (remainingKs : Int) (deadlineUs now : BitVec 64) : TxMsg :=
  let payload := if voluntary then 0 else k
  if payload = 0 ∧ timern ≠ 0 then
    if remainingKs ≠ 0 then ⟨.parked, k⟩
    else if deadlineUs ≠ 0 then
      let payload := deadlineUs - now
      if payload.toInt ≤ 0 then ⟨.parked, k⟩ else ⟨.parkedLast, payload⟩
    else ⟨.parkedLast, 0⟩
  else ⟨.parked, payload⟩

/-- The kthread runs uthreads or the scheduler, outside of `kthread_park` and
`kthread_wait_to_attach`. -/
def RuntimeState.up (s : RuntimeState π ε) (th : ThreadRef π) : Bool :=
  decide (s.park.pc th = .running) && !s.parked th && !s.detached th &&
    (s.leaving th).isNone

/-- The queue has been through `lrpc_init_out`. -/
def rxqFresh (out : LrpcChanOut) : Prop :=
  isPowerOfTwo out.size = true ∧ out.sendHead = 0 ∧ out.sendTail = 0

instance (out : LrpcChanOut) : Decidable (rxqFresh out) :=
  inferInstanceAs (Decidable (_ ∧ _))

/-- Timers are started on the kthread that runs; heaps are merged by
`kthread_detach` only. -/
def ownTimer (k : Nat) : TimerAct Nat ε → Bool
  | .start l _ _ => l == k
  | .merge _ _ => false
  | _ => true

inductive RuntimeAct (π ε : Type)
  | create (p : π) (cfg : ProcConfig)
  | add (p : π)
  | adjust (rqHead rqTail : ThreadRef π → BitVec 32)
      (microtime : π → BitVec 64)
  /-- The daemon takes a command off the queue of `th`. -/
  | recv (th : ThreadRef π) (now : BitVec 64)
  /-- `kthread_park` up to the decrement of `runningks`. -/
  | park (th : ThreadRef π) (voluntary : Bool)
  /-- `kthread_park` from there to the unlock. -/
  | choose (th : ThreadRef π) (now : BitVec 64)
  | send (th : ThreadRef π)
  | read (th : ThreadRef π)
  | sigusr1 (th : ThreadRef π)
  /-- What follows the `read` in `kthread_park` and
  `kthread_wait_to_attach`. -/
  | unpark (th : ThreadRef π)
  | timer (th : ThreadRef π) (a : TimerAct Nat ε)
  /-- `kthread_detach(r)` on `th`, when stealing or joining. -/
  | detach (th r : ThreadRef π)
  /-- `softirq_gather_work` on `th` takes a command off the queue of `r`. -/
  | rxRecv (th r : ThreadRef π)

def RuntimeState.joinMem (s : RuntimeState π ε) (th : ThreadRef π)
    (msg : TxMsg) : LrpcMem where
  tbl _ := ⟨0, 0⟩
  recvHeadWb :=
    match s.park.dp.joinTarget th msg (s.rxHead th) with
    | none => 0
    | some d => s.rxHead d

def runtimeNext [DecidableEq ε] (s : RuntimeState π ε) :
    RuntimeAct π ε → Option (RuntimeState π ε)
  | .create p cfg =>
    if ∀ i < cfg.threadCount, rxqFresh (cfg.rxq i) then
      (parkNext s.park (.call (.create p cfg))).map fun park =>
        { s with
          park := park
          rxHead := onThreads s.rxHead p cfg.threadCount fun _ => 0 }
    else none
  | .add p =>
    (parkNext s.park (.call (.add p))).map fun park => { s with park := park }
  | .adjust rqHead rqTail microtime =>
    (parkNext s.park (.call
      (.adjust ⟨rqHead, rqTail, s.rxHead, microtime⟩))).map fun park =>
        { s with park := park }
  | .recv th now =>
    match s.park.txq th with
    | [] => none
    | msg :: _ =>
      (parkNext s.park
        (.recv th (s.rxHead th) (s.joinMem th msg) now)).map fun park =>
          { s with
            park := park
            lastUs :=
              if msg.cmd = .parkedLast then
                update s.lastUs th.p now
              else s.lastUs }
  | .park th voluntary =>
    if s.up th then
      let remainingKs := s.runningks th.p - 1
      -- both early returns leave everything as it was
      if s.runningks th.p ≤ spinks ∨ remainingKs < spinks then some s
      else
        some
          { s with
            runningks := update s.runningks th.p remainingKs
            leaving := update s.leaving th
              (some (voluntary, remainingKs)) }
    else none
  | .choose th now =>
    match s.leaving th with
    | none => none
    | some (voluntary, remainingKs) =>
      let msg := parkCommand (s.addr th) voluntary
        ((s.heaps th.p).timern th.idx) remainingKs
        (timerEarliestDeadline (s.heaps th.p) th.idx) now
      (parkNext s.park (.park th msg)).map fun park =>
        { s with
          park := park
          parked := update s.parked th true
          parkUs := update s.parkUs th now
          leaving := update s.leaving th none }
  | .send th =>
    (parkNext s.park (.send th)).map fun park => { s with park := park }
  | .read th =>
    (parkNext s.park (.read th)).map fun park => { s with park := park }
  | .sigusr1 th =>
    (parkNext s.park (.sigusr1 th)).map fun park => { s with park := park }
  | .unpark th =>
    if s.park.pc th = .running ∧
        (s.parked th = true ∨ s.detached th = true) then
      some
        { s with
          parked := update s.parked th false
          detached := update s.detached th false
          runningks :=
            update s.runningks th.p (s.runningks th.p + 1) }
    else none
  | .timer th a =>
    if s.up th = true ∧ ownTimer th.idx a = true then
      ((timerSystem Nat ε).next (s.heaps th.p) a).map fun heap =>
        { s with heaps := update s.heaps th.p heap }
    else none
  | .detach th r =>
    if s.up th = true ∧ r.p = th.p ∧ r ≠ th ∧ s.parked r = true ∧
        s.detached r = false ∧ s.park.txq r = [] ∧
        (s.park.dp.rxq r).sendHead = s.rxHead r then
      (timerMerge (s.heaps th.p) th.idx r.idx).map fun heap =>
        { s with
          heaps := update s.heaps th.p heap
          detached := update s.detached r true }
    else none
  | .rxRecv th r =>
    if s.up th = true ∧ r.p = th.p ∧
        (s.park.dp.rxq r).sendHead ≠ s.rxHead r then
      some
        { s with
          rxHead := update s.rxHead r (s.rxHead r + 1) }
    else none

def runtimeSystem (π ε : Type) [DecidableEq π] [DecidableEq ε] :
    System (RuntimeState π ε) (RuntimeAct π ε) where
  init s := (parkSystem π).init s.park ∧ (∀ th, s.addr th ≠ 0) ∧
    (∀ p, (timerSystem Nat ε).init (s.heaps p)) ∧
    (∀ p, s.runningks p = 0) ∧
    (∀ th, s.parked th = false ∧ s.detached th = true ∧
      s.leaving th = none ∧ s.rxHead th = 0)
  next := runtimeNext

variable {s t : RuntimeState π ε} {a : RuntimeAct π ε} {th : ThreadRef π}
  {p : π}

section Steps

inductive RuntimeStep [DecidableEq ε] (s : RuntimeState π ε) :
    RuntimeAct π ε → RuntimeState π ε → Prop
  | create {p : π} {cfg : ProcConfig} {park : ParkState π} :
      (∀ i < cfg.threadCount, rxqFresh (cfg.rxq i)) →
      parkNext s.park (.call (.create p cfg)) = some park →
      RuntimeStep s (.create p cfg)
        { s with
          park := park
          rxHead := onThreads s.rxHead p cfg.threadCount fun _ => 0 }
  | add {p : π} {park : ParkState π} :
      parkNext s.park (.call (.add p)) = some park →
      RuntimeStep s (.add p) { s with park := park }
  | adjust {rqHead rqTail : ThreadRef π → BitVec 32}
      {microtime : π → BitVec 64} {park : ParkState π} :
      parkNext s.park (.call
        (.adjust ⟨rqHead, rqTail, s.rxHead, microtime⟩)) = some park →
      RuntimeStep s (.adjust rqHead rqTail microtime) { s with park := park }
  | recv {th : ThreadRef π} {now : BitVec 64} {msg : TxMsg}
      {rest : List TxMsg} {park : ParkState π} :
      s.park.txq th = msg :: rest →
      parkNext s.park (.recv th (s.rxHead th) (s.joinMem th msg) now) =
        some park →
      RuntimeStep s (.recv th now)
        { s with
          park := park
          lastUs :=
            if msg.cmd = .parkedLast then update s.lastUs th.p now
            else s.lastUs }
  | returns {th : ThreadRef π} {voluntary : Bool} : s.up th = true →
      RuntimeStep s (.park th voluntary) s
  | leaves {th : ThreadRef π} {voluntary : Bool} : s.up th = true →
      RuntimeStep s (.park th voluntary)
        { s with
          runningks := update s.runningks th.p (s.runningks th.p - 1)
          leaving := update s.leaving th
            (some (voluntary, s.runningks th.p - 1)) }
  | choose {th : ThreadRef π} {now : BitVec 64} {voluntary : Bool}
      {remainingKs : Int} {park : ParkState π} :
      s.leaving th = some (voluntary, remainingKs) →
      parkNext s.park (.park th (parkCommand (s.addr th) voluntary
        ((s.heaps th.p).timern th.idx) remainingKs
        (timerEarliestDeadline (s.heaps th.p) th.idx) now)) = some park →
      RuntimeStep s (.choose th now)
        { s with
          park := park
          parked := update s.parked th true
          parkUs := update s.parkUs th now
          leaving := update s.leaving th none }
  | send {th : ThreadRef π} {park : ParkState π} :
      parkNext s.park (.send th) = some park →
      RuntimeStep s (.send th) { s with park := park }
  | read {th : ThreadRef π} {park : ParkState π} :
      parkNext s.park (.read th) = some park →
      RuntimeStep s (.read th) { s with park := park }
  | sigusr1 {th : ThreadRef π} {park : ParkState π} :
      parkNext s.park (.sigusr1 th) = some park →
      RuntimeStep s (.sigusr1 th) { s with park := park }
  | unpark {th : ThreadRef π} : s.park.pc th = .running →
      RuntimeStep s (.unpark th)
        { s with
          parked := update s.parked th false
          detached := update s.detached th false
          runningks :=
            update s.runningks th.p (s.runningks th.p + 1) }
  | timer {th : ThreadRef π} {a : TimerAct Nat ε} {heap : TimerState Nat ε} :
      s.up th = true →
      (timerSystem Nat ε).next (s.heaps th.p) a = some heap →
      RuntimeStep s (.timer th a)
        { s with heaps := update s.heaps th.p heap }
  | detach {th r : ThreadRef π} {heap : TimerState Nat ε} :
      s.up th = true → r.p = th.p → r ≠ th →
      timerMerge (s.heaps th.p) th.idx r.idx = some heap →
      RuntimeStep s (.detach th r)
        { s with
          heaps := update s.heaps th.p heap
          detached := update s.detached r true }
  | rxRecv {th r : ThreadRef π} : s.up th = true → r.p = th.p →
      (s.park.dp.rxq r).sendHead ≠ s.rxHead r →
      RuntimeStep s (.rxRecv th r)
        { s with rxHead := update s.rxHead r (s.rxHead r + 1) }

theorem runtimeNext_step [DecidableEq ε] (hnext : runtimeNext s a = some t) :
    RuntimeStep s a t := by
  cases a with
  | create p cfg =>
    simp only [runtimeNext] at hnext
    split_ifs at hnext with hfresh
    obtain ⟨park, hpark, rfl⟩ := Option.map_eq_some_iff.mp hnext
    exact .create hfresh hpark
  | add p =>
    obtain ⟨park, hpark, rfl⟩ := Option.map_eq_some_iff.mp hnext
    exact .add hpark
  | adjust rqHead rqTail microtime =>
    obtain ⟨park, hpark, rfl⟩ := Option.map_eq_some_iff.mp hnext
    exact .adjust hpark
  | recv th now =>
    simp only [runtimeNext] at hnext
    cases htxq : s.park.txq th with
    | nil =>
      rw [htxq] at hnext
      cases hnext
    | cons msg rest =>
      rw [htxq] at hnext
      obtain ⟨park, hpark, rfl⟩ := Option.map_eq_some_iff.mp hnext
      exact .recv htxq hpark
  | park th voluntary =>
    simp only [runtimeNext] at hnext
    split_ifs at hnext with hup hreturns
    · cases hnext
      exact .returns hup
    · cases hnext
      exact .leaves hup
  | choose th now =>
    simp only [runtimeNext] at hnext
    cases hleaving : s.leaving th with
    | none =>
      rw [hleaving] at hnext
      cases hnext
    | some r =>
      obtain ⟨voluntary, remainingKs⟩ := r
      rw [hleaving] at hnext
      obtain ⟨park, hpark, rfl⟩ := Option.map_eq_some_iff.mp hnext
      exact .choose hleaving hpark
  | send th =>
    obtain ⟨park, hpark, rfl⟩ := Option.map_eq_some_iff.mp hnext
    exact .send hpark
  | read th =>
    obtain ⟨park, hpark, rfl⟩ := Option.map_eq_some_iff.mp hnext
    exact .read hpark
  | sigusr1 th =>
    obtain ⟨park, hpark, rfl⟩ := Option.map_eq_some_iff.mp hnext
    exact .sigusr1 hpark
  | unpark th =>
    obtain ⟨hwoken, rfl⟩ := guarded hnext
    exact .unpark hwoken.1
  | timer th b =>
    simp only [runtimeNext] at hnext
    split_ifs at hnext with hup
    obtain ⟨heap, hheap, rfl⟩ := Option.map_eq_some_iff.mp hnext
    exact .timer hup.1 hheap
  | detach th r =>
    simp only [runtimeNext] at hnext
    split_ifs at hnext with hguard
    obtain ⟨heap, hheap, rfl⟩ := Option.map_eq_some_iff.mp hnext
    exact .detach hguard.1 hguard.2.1 hguard.2.2.1 hheap
  | rxRecv th r =>
    obtain ⟨hguard, rfl⟩ := guarded hnext
    exact .rxRecv hguard.1 hguard.2.1 hguard.2.2

end Steps

section Queues

/-- What holds in every run: the handshake with the daemon, and receive queues
that have room for a message and know what was received. -/
structure RuntimeInv (s : RuntimeState π ε) : Prop where
  park : ParkInv s.park
  addr : ∀ th, s.addr th ≠ 0
  rxOk : ∀ th, RxOk (s.park.dp.rxq th) (s.rxHead th)
  rxSize : ∀ th, th.p ∈ s.park.dp.procs.created →
    th.idx < s.park.dp.procs.threadCount th.p →
    (s.park.dp.rxq th).size ≠ 0

theorem RuntimeInv.of_rxKept (h : RuntimeInv s) (hpark : ParkInv t.park)
    (haddr : t.addr = s.addr) (hhead : t.rxHead = s.rxHead)
    (hrx : RxKept s.rxHead s.park.dp t.park.dp)
    (hcreated : t.park.dp.procs.created = s.park.dp.procs.created)
    (hcount : t.park.dp.procs.threadCount = s.park.dp.procs.threadCount) :
    RuntimeInv t := by
  refine ⟨hpark, ?_, fun th => ?_, fun th hth hidx => ?_⟩
  · rw [haddr]
    exact h.addr
  · rw [hhead]
    exact hrx.ok th (h.rxOk th)
  · rw [hcreated] at hth
    rw [hcount] at hidx
    rw [hrx.size th]
    exact h.rxSize th hth hidx

theorem joinMem_target {msg : TxMsg} {d : ThreadRef π}
    (hd : s.park.dp.joinTarget th msg (s.rxHead th) = some d) :
    (s.joinMem th msg).recvHeadWb = s.rxHead d := by
  simp only [RuntimeState.joinMem, hd]

theorem RuntimeInv.taken {msg : TxMsg} {rest : List TxMsg} {now : BitVec 64}
    {park : ParkState π} (h : RuntimeInv s) (htxq : s.park.txq th = msg :: rest)
    (hpark : parkNext s.park
      (.recv th (s.rxHead th) (s.joinMem th msg) now) = some park) :
    (∃ u, Handled s.rxHead s.park.dp th msg now u park.dp) ∧
      park.pc = s.park.pc ∧
      park.txq = update s.park.txq th [] := by
  obtain ⟨msg', rest', dp, htxq', hcommand, rfl⟩ := parkNext_recv hpark
  obtain ⟨rfl, rfl⟩ := List.cons.inj (htxq.symm.trans htxq')
  obtain ⟨_, hrunning, rfl, _⟩ := h.park.queued htxq
  have hclient := h.park.dp.running_client hrunning
  have hok : ParkOk s.park.dp th := fun n _ => h.park.marks n.p
  have hsize : ∀ d : ThreadRef π, d.p = th.p →
      d.idx < s.park.dp.procs.threadCount th.p →
      (s.park.dp.rxq d).size ≠ 0 := by
    intro d hd hidx
    apply h.rxSize d
    · rw [hd]
      exact h.park.dp.procs.clients_created th.p hclient
    · rwa [hd]
  exact ⟨command_handled h.park.dp hrunning hok
    (fun d hd => joinMem_target hd) h.rxOk hsize hcommand, rfl, rfl⟩

theorem rxOk_fresh {out : LrpcChanOut} (h : rxqFresh out) :
    RxOk out 0 ∧ out.size ≠ 0 := by
  obtain ⟨hpow, hhead, htail⟩ := h
  refine ⟨⟨?_, ?_⟩, ?_⟩
  · rw [htail]
    exact BitVec.le_refl _
  · rw [hhead, htail]
    bv_omega
  · rintro hsize
    rw [hsize] at hpow
    simp [isPowerOfTwo] at hpow

theorem RuntimeInv.of_same (h : RuntimeInv s) (hpark : ParkInv t.park)
    (haddr : t.addr = s.addr) (hhead : t.rxHead = s.rxHead)
    (hrxq : t.park.dp.rxq = s.park.dp.rxq)
    (hprocs : t.park.dp.procs = s.park.dp.procs) : RuntimeInv t := by
  apply h.of_rxKept hpark haddr hhead (.of_same hrxq)
  · rw [hprocs]
  · rw [hprocs]

theorem RuntimeInv.create {cfg : ProcConfig} {park : ParkState π}
    (h : RuntimeInv s)
    (hfresh : ∀ i < cfg.threadCount, rxqFresh (cfg.rxq i))
    (hpark : parkNext s.park (.call (.create p cfg)) = some park) :
    RuntimeInv { s with
      park := park
      rxHead := onThreads s.rxHead p cfg.threadCount fun _ => 0 } := by
  have hinv := h.park.next hpark
  obtain ⟨_, dp, hdp, rfl⟩ := parkNext_call hpark
  have hstep := dpNext_iff.mp hdp
  obtain ⟨hguard, ⟨⟩⟩ := guarded hstep
  have hrxq : ∀ th : ThreadRef π, th.p = p ∧ th.idx < cfg.threadCount →
      (s.park.dp.controlCreateProc p cfg).rxq th = cfg.rxq th.idx ∧
      onThreads s.rxHead p cfg.threadCount (fun _ => 0) th = 0 :=
    fun th hth => ⟨if_pos hth, if_pos hth⟩
  have hold : ∀ th : ThreadRef π, ¬ (th.p = p ∧ th.idx < cfg.threadCount) →
      (s.park.dp.controlCreateProc p cfg).rxq th = s.park.dp.rxq th ∧
      onThreads s.rxHead p cfg.threadCount (fun _ => 0) th = s.rxHead th :=
    fun th hth => ⟨if_neg hth, if_neg hth⟩
  refine ⟨hinv, h.addr, fun th => ?_, fun th hcreated hidx => ?_⟩
  · by_cases hth : th.p = p ∧ th.idx < cfg.threadCount
    · simp only [hrxq th hth]
      exact (rxOk_fresh (hfresh th.idx hth.2)).1
    · simp only [hold th hth]
      exact h.rxOk th
  · by_cases hth : th.p = p ∧ th.idx < cfg.threadCount
    · simp only [hrxq th hth]
      exact (rxOk_fresh (hfresh th.idx hth.2)).2
    · simp only [hold th hth]
      have hne : th.p ≠ p := by
        intro hp
        apply hth
        refine ⟨hp, ?_⟩
        simpa [Dataplane.controlCreateProc, hp] using hidx
      apply h.rxSize th
      · exact List.mem_of_ne_of_mem hne hcreated
      · simpa [Dataplane.controlCreateProc, hne] using hidx

variable [DecidableEq ε]

theorem RuntimeInv.next (h : RuntimeInv s) (hnext : runtimeNext s a = some t) :
    RuntimeInv t := by
  cases runtimeNext_step hnext with
  | create hfresh hpark => exact h.create hfresh hpark
  | add hpark =>
    have hinv := h.park.next hpark
    obtain ⟨_, dp, hdp, rfl⟩ := parkNext_call hpark
    have hprocs := dpNext_procs hdp
    refine h.of_rxKept hinv rfl rfl ?_ ?_ ?_
    · exact (add_frame h.park.dp hdp).polled.rxKept
    · change dp.procs.created = s.park.dp.procs.created
      rw [hprocs]
      rfl
    · change dp.procs.threadCount = s.park.dp.procs.threadCount
      rw [hprocs]
      rfl
  | adjust hpark =>
    have hinv := h.park.next hpark
    obtain ⟨_, dp, hdp, rfl⟩ := parkNext_call hpark
    have hprocs := dpNext_procs hdp
    refine h.of_rxKept hinv rfl rfl ?_ ?_ ?_
    · exact (adjust_frame h.park.dp hdp).polled.rxKept
    · exact congrArg ProcTable.created hprocs
    · exact congrArg ProcTable.threadCount hprocs
  | recv htxq hpark =>
    have hinv := h.park.next hpark
    obtain ⟨⟨u, hhandled⟩, _, _⟩ := h.taken htxq hpark
    have hprocs := hhandled.procs.trans hhandled.kept.2
    refine h.of_rxKept hinv rfl rfl hhandled.rx ?_ ?_
    · exact congrArg ProcTable.created hprocs
    · exact congrArg ProcTable.threadCount hprocs
  | returns => exact h
  | leaves | unpark | timer | detach => exact { h with }
  | choose _ hpark =>
    have hinv := h.park.next hpark
    obtain ⟨_, rfl⟩ := parkNext_park hpark
    exact h.of_same hinv rfl rfl rfl rfl
  | send hpark =>
    have hinv := h.park.next hpark
    obtain ⟨_, _, rfl⟩ := parkNext_send hpark
    exact h.of_same hinv rfl rfl rfl rfl
  | read hpark =>
    have hinv := h.park.next hpark
    obtain ⟨_, _, rfl⟩ := parkNext_read hpark
    exact h.of_same hinv rfl rfl rfl rfl
  | sigusr1 hpark =>
    have hinv := h.park.next hpark
    obtain rfl := parkNext_sigusr1 hpark
    exact h.of_same hinv rfl rfl rfl rfl
  | @rxRecv th r _ _ hbusy =>
    refine ⟨h.park, h.addr, fun th' => ?_, h.rxSize⟩
    rcases eq_or_ne th' r with rfl | hne
    · simpa using (h.rxOk th').recv hbusy
    · simpa [hne] using h.rxOk th'

theorem runtimeSystem_inv (hs : (runtimeSystem π ε).Reach anyStep s) :
    RuntimeInv s := by
  apply hs.invariant
  · rintro s ⟨hpark, haddr, _, _, hkthreads⟩
    have hinv : ParkInv s.park := parkSystem_inv (.init hpark)
    obtain ⟨⟨cpuCount, usable, _, hboot⟩, _⟩ := hpark
    refine ⟨hinv, haddr, fun th => ?_, fun th hth => ?_⟩
    · rw [hboot, (hkthreads th).2.2.2]
      refine ⟨BitVec.le_refl _, ?_⟩
      change (0 : BitVec 32) - 0 ≤ 0
      decide
    · rw [hboot] at hth
      exact absurd hth List.not_mem_nil
  · exact fun s a t h _ hnext => h.next hnext

end Queues

section Covered

def InFlight (s : ParkState π) (th : ThreadRef π) (msg : TxMsg) : Prop :=
  s.pc th = .parking msg ∨ msg ∈ s.txq th

/-- Some kthread of the process will run again whatever its timers do: a
message waits in a receive queue, a kthread is being woken, or a command on
its way asks for a join. -/
inductive Stirring (p : π) (s : RuntimeState π ε) : Prop
  | queued {th : ThreadRef π} : th.p = p →
      th.idx < s.park.dp.procs.threadCount p →
      (s.park.dp.rxq th).sendHead ≠ s.rxHead th → Stirring p s
  | alert : Alert s.park.dp p → Stirring p s
  | joins {th : ThreadRef π} {msg : TxMsg} : th.p = p →
      InFlight s.park th msg → msg.cmd = .parked → msg.payload ≠ 0 →
      Stirring p s

def OnlyTimers (s : TimerState Nat ε) (k : Nat) : Prop :=
  ∀ l, l ≠ k → s.timern l = 0

def RuntimeState.remainingUs (s : RuntimeState π ε) (th : ThreadRef π) :
    BitVec 64 :=
  BitVec.ofNat 64 ((s.heaps th.p).timers th.idx 0).deadlineUs - s.parkUs th

/-- Why the timers of a process are not forgotten while none of its kthreads
runs. -/
inductive Covered (p : π) (s : RuntimeState π ε) : Prop
  | idle : (∀ k, (s.heaps p).timern k = 0) → Covered p s
  | stirring : Stirring p s → Covered p s
  | last {th : ThreadRef π} {msg : TxMsg} : th.p = p →
      OnlyTimers (s.heaps p) th.idx → InFlight s.park th msg →
      msg.cmd = .parkedLast → msg.payload ≠ 0 →
      msg.payload = s.remainingUs th → Covered p s
  | pending {th : ThreadRef π} : th.p = p →
      OnlyTimers (s.heaps p) th.idx →
      (∀ th', th'.p = p → s.park.dp.threads.parked th' = true) →
      s.park.dp.pendingTimer p = true →
      s.park.dp.deadlineUs p = s.lastUs p + s.remainingUs th → Covered p s

structure SameRuntime (p : π) (s t : RuntimeState π ε) : Prop where
  inFlight : ∀ th msg, th.p = p → InFlight s.park th msg →
    InFlight t.park th msg
  heap : t.heaps p = s.heaps p
  parkUs : ∀ th, th.p = p → t.parkUs th = s.parkUs th
  rxHead : ∀ th, th.p = p → t.rxHead th = s.rxHead th
  lastUs : t.lastUs p = s.lastUs p

section

omit [DecidableEq π]

theorem SameRuntime.remainingUs (h : SameRuntime p s t) (hp : th.p = p) :
    t.remainingUs th = s.remainingUs th := by
  unfold RuntimeState.remainingUs
  rw [hp, h.heap, h.parkUs th hp]

theorem Stirring.imp (h : Stirring p s)
    (hcount : t.park.dp.procs.threadCount p =
      s.park.dp.procs.threadCount p) (hbusy : ∀ th, th.p = p →
      (s.park.dp.rxq th).sendHead ≠ s.rxHead th →
      (t.park.dp.rxq th).sendHead ≠ t.rxHead th)
    (halert : Alert s.park.dp p → Alert t.park.dp p)
    (hflight : ∀ th msg, th.p = p → msg.cmd = .parked → msg.payload ≠ 0 →
      InFlight s.park th msg → InFlight t.park th msg) : Stirring p t := by
  cases h with
  | @queued th hp hidx hqueued =>
    apply Stirring.queued hp
    · rwa [hcount]
    · exact hbusy th hp hqueued
  | alert h => exact .alert (halert h)
  | @joins th msg hp hmsg hcmd hpayload =>
    exact .joins hp (hflight th msg hp hcmd hpayload hmsg) hcmd hpayload

theorem Stirring.step (h : Stirring p s) (hsame : SameRuntime p s t)
    (hstep : DaemonStep p s.rxHead s.park.dp t.park.dp) : Stirring p t := by
  apply h.imp hstep.count
  · intro th hp hbusy
    rw [hsame.rxHead th hp]
    exact hstep.busy th hp hbusy
  · exact fun halert => halert.advance fun th hp _ => hstep.advance th hp
  · exact fun th msg hp _ _ => hsame.inFlight th msg hp

theorem Covered.step (h : Covered p s) (hsame : SameRuntime p s t)
    (hstep : DaemonStep p s.rxHead s.park.dp t.park.dp) : Covered p t := by
  cases h with
  | idle hidle =>
    apply Covered.idle
    rwa [hsame.heap]
  | stirring hstirring => exact .stirring (hstirring.step hsame hstep)
  | last hp honly hmsg hcmd hpayload hremaining =>
    apply Covered.last hp ?_ (hsame.inFlight _ _ hp hmsg) hcmd hpayload
    · rw [hremaining, hsame.remainingUs hp]
    · rwa [hsame.heap]
  | pending hp honly hparked hpending hdeadline =>
    by_cases halert : Alert t.park.dp p
    · exact .stirring (.alert halert)
    · obtain ⟨hpending', hdeadline'⟩ := hstep.timers.resolve_left halert
      apply Covered.pending hp
      · rwa [hsame.heap]
      · -- a kthread that is no longer parked has been woken
        intro th' hp'
        by_contra hunparked
        apply halert
        have hasleep : ¬ s.park.dp.Running th' := fun hrunning =>
          Bool.noConfusion ((hparked th' hp').symm.trans hrunning.1)
        exact ((hstep.advance th' hp').asleep hasleep).alert hp'
          (Bool.not_eq_true _ ▸ hunparked)
      · rw [hpending', hpending]
      · rw [hdeadline', hdeadline, hsame.lastUs, hsame.remainingUs hp]

end

end Covered

section Parking

theorem parkCommand_forced {k : BitVec 64} (hk : k ≠ 0) (timern : Nat)
    (remainingKs : Int) (deadlineUs now : BitVec 64) :
    parkCommand k false timern remainingKs deadlineUs now = ⟨.parked, k⟩ := by
  unfold parkCommand
  simp only [Bool.false_eq_true, if_false]
  rw [if_neg fun h => hk h.1]

theorem parkCommand_timers (k : BitVec 64) {timern : Nat} (htimern : timern ≠ 0)
    (remainingKs : Int) {deadlineUs : BitVec 64} (hdeadline : deadlineUs ≠ 0)
    (now : BitVec 64) :
    parkCommand k true timern remainingKs deadlineUs now = ⟨.parked, k⟩ ∨
    parkCommand k true timern remainingKs deadlineUs now =
      ⟨.parkedLast, deadlineUs - now⟩ ∧ deadlineUs - now ≠ 0 := by
  unfold parkCommand
  simp only [if_true]
  rw [if_pos ⟨trivial, htimern⟩]
  split_ifs with hremaining hpast
  · exact .inl rfl
  · exact .inl rfl
  · refine .inr ⟨rfl, fun hzero => hpast ?_⟩
    rw [hzero]
    decide

/-- No kthread of the process is outside of `read`, or about to leave it. -/
def Quiet (p : π) (s : RuntimeState π ε) : Prop :=
  ∀ th, th.p = p → s.park.pc th ≠ .running

/-- The condition under which no timers of process `p` are stranded.

A kthread that parks of its own accord after all others leaves no timers on
them, unless one of them will run again anyway, and its own first timer is not
due at time 0. When the daemon takes `TXCMD_PARKED_LAST` from a kthread with
timers and all kthreads have parked, no other kthread is active, again unless
one will run anyway. And timers are started and cancelled as the heaps
require. -/
def strandOk (p : π) (s : RuntimeState π ε) : RuntimeAct π ε → Prop
  | .choose th _ => th.p = p →
      (∀ th', th'.p = p → th' ≠ th → s.park.pc th' ≠ .running) →
      (s.leaving th).map Prod.fst = some true →
      Stirring p s ∨ OnlyTimers (s.heaps p) th.idx ∧
        ((s.heaps p).timern th.idx ≠ 0 →
          timerEarliestDeadline (s.heaps p) th.idx ≠ 0)
  | .recv th _ => th.p = p →
      (s.park.txq th).head?.map TxMsg.cmd = some .parkedLast →
      (s.heaps p).timern th.idx ≠ 0 → Quiet p s →
      Stirring p s ∨ s.park.dp.threads.activeThreads p = [th]
  | .timer th a => th.p = p → heapOp (s.heaps p) a
  | _ => True

structure TimersInv (p : π) (s : RuntimeState π ε) : Prop
    extends RuntimeInv s where
  heap : TimerInv (s.heaps p)
  fresh : p ∉ s.park.dp.procs.created → ∀ k, (s.heaps p).timern k = 0
  covered : Quiet p s → Covered p s

/-- `kthread_park` decides what to send, after all other kthreads have. -/
theorem TimersInv.chosen {now : BitVec 64} {voluntary : Bool}
    {remainingKs : Int} (h : TimersInv p s) (hp : th.p = p)
    (hpc : s.park.pc th = .running)
    (hleaving : s.leaving th = some (voluntary, remainingKs))
    (hothers : ∀ th', th'.p = p → th' ≠ th → s.park.pc th' ≠ .running)
    (hok : strandOk p s (.choose th now)) {msg : TxMsg}
    (hmsg : msg = parkCommand (s.addr th) voluntary
      ((s.heaps th.p).timern th.idx) remainingKs
      (timerEarliestDeadline (s.heaps th.p) th.idx) now)
    (hpark : t.park = { s.park with
      pc := update s.park.pc th (.parking msg) }) (hheap : t.heaps = s.heaps)
    (hhead : t.rxHead = s.rxHead) (hus : t.parkUs = update s.parkUs th now) :
    Covered p t := by
  have hflight : InFlight t.park th msg := by
    rw [hpark]
    exact .inl (update_self ..)
  have hjoins : msg = ⟨.parked, s.addr th⟩ → Covered p t := by
    rintro rfl
    exact .stirring (.joins hp hflight rfl (h.addr th))
  cases voluntary with
  | false =>
    apply hjoins
    rw [hmsg, parkCommand_forced (h.addr th)]
  | true =>
    have hchoice := hok hp hothers (by rw [hleaving]; rfl)
    rcases hchoice with hstirring | ⟨honly, hnonzero⟩
    · apply Covered.stirring
      apply hstirring.imp
      · rw [hpark]
      · intro th' _ hbusy
        rwa [hpark, hhead]
      · rw [hpark]
        exact fun halert => halert
      · -- a kthread that runs has nothing on its way
        intro th' msg' _ _ _ hmsg'
        have hempty := (h.park.outside (by rw [hpc]; rfl)).2.1
        have hne : th' ≠ th := by
          rintro rfl
          rcases hmsg' with hparking | hqueued
          · rw [hpc] at hparking
            cases hparking
          · rw [hempty] at hqueued
            exact List.not_mem_nil hqueued
        rw [hpark]
        apply hmsg'.imp_left
        exact fun hparking => (update_of_ne hne ..).trans hparking
    · by_cases htimern : (s.heaps p).timern th.idx = 0
      · apply Covered.idle
        rw [hheap]
        intro k
        rcases eq_or_ne k th.idx with rfl | hne
        · exact htimern
        · exact honly k hne
      · have hdeadline := hnonzero htimern
        rw [hp] at hmsg
        rcases parkCommand_timers (s.addr th) htimern remainingKs hdeadline
          now with hjoin | ⟨hlast, hpayload⟩
        · exact hjoins (hmsg.trans hjoin)
        · rw [hlast] at hmsg
          subst hmsg
          apply Covered.last hp ?_ hflight rfl hpayload
          · unfold RuntimeState.remainingUs
            rw [hheap, hus, hp, update_self]
            simp only [timerEarliestDeadline, if_neg htimern]
          · rwa [hheap]

section Taken

variable {msg : TxMsg} {now : BitVec 64} {u : Dataplane π}

theorem inFlight_taken {park park' : ParkState π} (hpark : park'.pc = park.pc ∧
      park'.txq = update park.txq th []) {th' : ThreadRef π} {msg' : TxMsg}
    (hne : th' ≠ th) (hmsg : InFlight park th' msg') :
    InFlight park' th' msg' := by
  unfold InFlight
  rwa [hpark.1, hpark.2, update_of_ne hne]

theorem Stirring.taken (h : Stirring p s) (hinv : RuntimeInv s)
    (htxq : s.park.txq th = [msg])
    (hhandled : Handled s.rxHead s.park.dp th msg now u t.park.dp)
    (hpark : t.park.pc = s.park.pc ∧
      t.park.txq = update s.park.txq th []) (hhead : t.rxHead = s.rxHead)
    (hjoin : msg.cmd = .parked → msg.payload = 0) : Stirring p t := by
  obtain ⟨hyields, hrunning, _, hwakes⟩ := hinv.park.queued htxq
  apply h.imp
  · rw [hhandled.procs, hhandled.kept.2]
  · intro th' _ hbusy
    rw [hhead]
    exact hhandled.rx.busy th' hbusy
  · intro halert
    have hu := halert.parks hhandled.parks hrunning hwakes
    exact hu.advance fun th' _ _ => hhandled.advance th'
  · intro th' msg' _ hcmd hpayload hmsg
    apply inFlight_taken hpark ?_ hmsg
    rintro rfl
    rcases hmsg with hparking | hqueued
    · rw [hyields] at hparking
      cases hparking
    · rw [htxq] at hqueued
      obtain rfl := List.mem_singleton.mp hqueued
      exact hpayload (hjoin hcmd)

theorem TimersInv.taken (h : TimersInv p s) (hp : th.p = p) (hquiet : Quiet p s)
    (htxq : s.park.txq th = [msg]) (hok : strandOk p s (.recv th now))
    (hhandled : Handled s.rxHead s.park.dp th msg now u t.park.dp)
    (hpark : t.park.pc = s.park.pc ∧
      t.park.txq = update s.park.txq th []) (hheap : t.heaps = s.heaps)
    (hhead : t.rxHead = s.rxHead) (hus : t.parkUs = s.parkUs)
    (hlastUs : msg.cmd = .parkedLast → t.lastUs p = now) : Covered p t := by
  obtain ⟨hyields, hrunning, _, hwakes⟩ := h.park.queued htxq
  have hawake : Awake s.rxHead t.park.dp p → Covered p t := by
    rintro (halert | ⟨d, hd, hidx, hbusy⟩)
    · exact .stirring (.alert halert)
    · apply Covered.stirring
      apply Stirring.queued hd hidx
      rwa [hhead]
  by_cases hjoin : msg.cmd = .parked ∧ msg.payload ≠ 0
  · apply hawake
    rw [← hp]
    exact hhandled.joins hjoin.1 hjoin.2
  · have hstirring : Stirring p s → Covered p t := fun hs =>
      .stirring (hs.taken h.toRuntimeInv htxq hhandled hpark hhead
        fun hcmd => by_contra fun hpayload => hjoin ⟨hcmd, hpayload⟩)
    cases h.covered hquiet with
    | idle hidle =>
      apply Covered.idle
      rwa [hheap]
    | stirring hs => exact hstirring hs
    | @last th' msg' hp' honly hmsg hcmd hpayload hremaining =>
      have hremaining' : t.remainingUs th' = s.remainingUs th' := by
        unfold RuntimeState.remainingUs
        rw [hheap, hus]
      rcases eq_or_ne th' th with rfl | hne
      · -- this is the command of the last kthread
        have hsame : msg' = msg := by
          rcases hmsg with hparking | hqueued
          · rw [hyields] at hparking
            cases hparking
          · rw [htxq] at hqueued
            exact List.mem_singleton.mp hqueued
        subst hsame
        by_cases htimern : (s.heaps p).timern th'.idx = 0
        · apply Covered.idle
          rw [hheap]
          intro k
          rcases eq_or_ne k th'.idx with rfl | hk
          · exact htimern
          · exact honly k hk
        · have htaken := hok hp (by rw [htxq]; simp [hcmd]) htimern hquiet
          rcases htaken with hs | hactive
          · exact hstirring hs
          · rcases hhandled.last hcmd hpayload with
              hawakes | hsome | ⟨hnone, hpending, hdeadline⟩
            · exact hawake (hp ▸ hawakes)
            · have halert := hhandled.woken h.park.dp (hp ▸ hactive) hsome
              exact hawake (.inl (hp ▸ halert))
            · by_cases halert : Alert t.park.dp p
              · exact hawake (.inl halert)
              · rw [hp] at hpending hdeadline
                apply Covered.pending hp
                · rwa [hheap]
                · exact hhandled.all_parked hp hnone halert
                · exact hpending
                · rw [hdeadline, hlastUs hcmd, hremaining', hremaining]
      · apply Covered.last hp' ?_ (inFlight_taken hpark hne hmsg) hcmd
          hpayload
        · rw [hremaining, hremaining']
        · rwa [hheap]
    | pending _ _ hparked =>
      exact Bool.noConfusion ((hparked th hp).symm.trans hrunning.1)

end Taken

end Parking

section Runs

variable [DecidableEq ε]

omit [DecidableEq ε] in
theorem RuntimeInv.created (h : RuntimeInv s) (hpc : s.park.pc th = .running) :
    th.p ∈ s.park.dp.procs.created := by
  have hrunning := (h.park.outside (by rw [hpc]; rfl)).1
  exact h.park.dp.procs.clients_created th.p (h.park.dp.running_client hrunning)

omit [DecidableEq π] [DecidableEq ε] in
theorem running_of_up [DecidableEq π] (hup : s.up th = true) :
    s.park.pc th = .running := by
  simp only [RuntimeState.up, Bool.and_eq_true, decide_eq_true_eq] at hup
  exact hup.1.1.1

theorem heaps_next (hnext : runtimeNext s a = some t)
    (hchanged : t.heaps p ≠ s.heaps p) :
    ∃ th b, th.p = p ∧ s.park.pc th = .running ∧
      (timerSystem Nat ε).next (s.heaps p) b = some (t.heaps p) ∧
      (a = .timer th b ∨ ∃ k r, b = .merge k r) := by
  cases runtimeNext_step hnext with
  | create | add | adjust | recv | returns | leaves | choose | send | read
  | sigusr1 | unpark | rxRecv => exact absurd rfl hchanged
  | @timer th b heap hup hheap =>
    rcases eq_or_ne p th.p with rfl | hne
    · refine ⟨th, b, rfl, running_of_up hup, ?_, .inl rfl⟩
      simp only [hheap, update_self]
    · exact absurd (update_of_ne hne ..) hchanged
  | @detach th r heap hup hp hr hheap =>
    rcases eq_or_ne p th.p with rfl | hne
    · refine ⟨th, .merge th.idx r.idx, rfl, running_of_up hup, ?_,
        .inr ⟨_, _, rfl⟩⟩
      have hidx : th.idx ≠ r.idx := by
        intro hidx
        apply hr
        cases th
        cases r
        simp_all
      simp only [update_self, ← hheap]
      exact if_neg hidx
    · exact absurd (update_of_ne hne ..) hchanged

theorem created_next (h : RuntimeInv s) (hnext : runtimeNext s a = some t)
    (hp : p ∈ s.park.dp.procs.created) : p ∈ t.park.dp.procs.created := by
  cases runtimeNext_step hnext with
  | @create q cfg park _ hpark =>
    obtain ⟨_, dp, hdp, rfl⟩ := parkNext_call hpark
    change p ∈ dp.procs.created
    rw [dpNext_procs hdp]
    exact List.mem_cons_of_mem q hp
  | add hpark | adjust hpark =>
    obtain ⟨_, dp, hdp, rfl⟩ := parkNext_call hpark
    change p ∈ dp.procs.created
    rw [dpNext_procs hdp]
    exact hp
  | recv htxq hpark =>
    obtain ⟨⟨u, hhandled⟩, _, _⟩ := h.taken htxq hpark
    rw [hhandled.procs, hhandled.kept.2]
    exact hp
  | choose _ hpark =>
    obtain ⟨_, rfl⟩ := parkNext_park hpark
    exact hp
  | send hpark =>
    obtain ⟨_, _, rfl⟩ := parkNext_send hpark
    exact hp
  | read hpark =>
    obtain ⟨_, _, rfl⟩ := parkNext_read hpark
    exact hp
  | sigusr1 hpark =>
    obtain rfl := parkNext_sigusr1 hpark
    exact hp
  | returns | leaves | unpark | timer | detach | rxRecv => exact hp

omit [DecidableEq π] [DecidableEq ε] in
theorem SameRuntime.of_same (hpc : ∀ th, th.p = p →
      t.park.pc th = s.park.pc th ∧ t.park.txq th = s.park.txq th)
    (hheap : t.heaps p = s.heaps p)
    (hus : ∀ th, th.p = p → t.parkUs th = s.parkUs th)
    (hhead : ∀ th, th.p = p → t.rxHead th = s.rxHead th)
    (hlast : t.lastUs p = s.lastUs p) : SameRuntime p s t := by
  refine ⟨fun th msg hp hmsg => ?_, hheap, hus, hhead, hlast⟩
  unfold InFlight
  rwa [(hpc th hp).1, (hpc th hp).2]

omit [DecidableEq π] [DecidableEq ε] in
theorem ne_of_proc (hne : th.p ≠ p) (th' : ThreadRef π) (hp : th'.p = p) :
    th' ≠ th := by
  rintro rfl
  exact hne hp

omit [DecidableEq ε] in
theorem Quiet.before {th' : ThreadRef π} {pc : KthreadPc}
    (hquiet : Quiet p t)
    (hpc : t.park.pc = update s.park.pc th pc)
    (hp : th'.p = p) (hne : th' ≠ th) : s.park.pc th' ≠ .running := by
  have hth' := hquiet th' hp
  rwa [hpc, update_of_ne hne] at hth'

omit [DecidableEq ε] in
theorem TimersInv.create {q : π} {cfg : ProcConfig} {park : ParkState π}
    (h : TimersInv p s)
    (hpark : parkNext s.park (.call (.create q cfg)) = some park)
    (hquiet : Quiet p { s with
      park := park
      rxHead := onThreads s.rxHead q cfg.threadCount fun _ => 0 }) :
    Covered p { s with
      park := park
      rxHead := onThreads s.rxHead q cfg.threadCount fun _ => 0 } := by
  obtain ⟨_, dp, hdp, rfl⟩ := parkNext_call hpark
  have hstep := dpNext_iff.mp hdp
  obtain ⟨hfresh, ⟨⟩⟩ := guarded hstep
  rcases eq_or_ne p q with rfl | hne
  · exact .idle (h.fresh hfresh.1)
  · apply (h.covered hquiet).step
    · refine SameRuntime.of_same (fun _ _ => ⟨rfl, rfl⟩) rfl (fun _ _ => rfl)
        (fun th hp => ?_) rfl
      change onThreads s.rxHead q cfg.threadCount (fun _ => 0) th = _
      exact onThreads_other (by rwa [hp])
    · exact create_daemonStep h.park.dp hfresh.1 h.park.quiet_asleep hne

theorem TimersInv.covered_next (h : TimersInv p s) (hok : strandOk p s a)
    (hnext : runtimeNext s a = some t) (hquiet : Quiet p t) : Covered p t := by
  -- for a step that concerns another process, or none
  have hother : Quiet p s → SameRuntime p s t →
      DaemonStep p s.rxHead s.park.dp t.park.dp → Covered p t :=
    fun hs hsame hstep => (h.covered hs).step hsame hstep
  cases runtimeNext_step hnext with
  | create _ hpark => exact h.create hpark hquiet
  | add hpark =>
    obtain ⟨_, dp, hdp, rfl⟩ := parkNext_call hpark
    refine hother hquiet ?_ ?_
    · exact .of_same (fun _ _ => ⟨rfl, rfl⟩) rfl (fun _ _ => rfl)
        (fun _ _ => rfl) rfl
    · apply (add_frame h.park.dp hdp).daemonStep
      · exact dpNext_advance h.park.dp h.park.quiet_asleep rfl hdp
      · rw [dpNext_procs hdp]
        rfl
  | adjust hpark =>
    obtain ⟨_, dp, hdp, rfl⟩ := parkNext_call hpark
    refine hother hquiet ?_ ?_
    · exact .of_same (fun _ _ => ⟨rfl, rfl⟩) rfl (fun _ _ => rfl)
        (fun _ _ => rfl) rfl
    · apply (adjust_frame h.park.dp hdp).daemonStep
      · exact dpNext_advance h.park.dp h.park.quiet_asleep rfl hdp
      · rw [dpNext_procs hdp]
        rfl
  | @recv th now msg rest park htxq hpark =>
    obtain ⟨⟨u, hhandled⟩, hpc, htxq'⟩ := h.toRuntimeInv.taken htxq hpark
    obtain ⟨_, _, rfl, _⟩ := h.park.queued htxq
    have hquiet' : Quiet p s := fun th' hp' => hpc ▸ hquiet th' hp'
    rcases eq_or_ne p th.p with rfl | hne
    · refine h.taken rfl hquiet' htxq hok hhandled ⟨hpc, htxq'⟩ rfl rfl rfl
        fun hcmd => ?_
      simp [hcmd]
    · refine hother hquiet' ?_ (hhandled.daemonStep hne)
      refine .of_same (fun th' hp' => ⟨?_, ?_⟩) rfl (fun _ _ => rfl)
        (fun _ _ => rfl) ?_
      · exact congrFun hpc th'
      · change park.txq th' = s.park.txq th'
        rw [htxq']
        apply update_of_ne
        rintro rfl
        exact hne hp'.symm
      · simp only
        split_ifs
        · exact update_of_ne hne ..
        · rfl
  | returns => exact h.covered hquiet
  | leaves | unpark =>
    refine hother hquiet ?_ (.refl _)
    exact .of_same (fun _ _ => ⟨rfl, rfl⟩) rfl (fun _ _ => rfl)
      (fun _ _ => rfl) rfl
  | @choose th now voluntary remainingKs park hleaving hpark =>
    obtain ⟨hpc, rfl⟩ := parkNext_park hpark
    have hothers : ∀ th', th'.p = p → th' ≠ th →
        s.park.pc th' ≠ .running := by
      intro th' hp' hne
      exact hquiet.before rfl hp' hne
    rcases eq_or_ne th.p p with hp | hne
    · exact h.chosen hp hpc hleaving hothers hok rfl rfl rfl rfl rfl
    · have hne' := ne_of_proc hne
      refine hother (fun th' hp' => hothers th' hp' (hne' th' hp')) ?_
        (.refl _)
      exact .of_same (fun th' hp' =>
          ⟨update_of_ne (hne' th' hp') .., rfl⟩) rfl
        (fun th' hp' => update_of_ne (hne' th' hp') ..)
        (fun _ _ => rfl) rfl
  | @send th park hpark =>
    obtain ⟨msg, hpc, rfl⟩ := parkNext_send hpark
    refine hother (fun th' hp' => ?_) ?_ (.refl _)
    · rcases eq_or_ne th' th with rfl | hne
      · rw [hpc]
        exact fun hrunning => KthreadPc.noConfusion hrunning
      · exact hquiet.before rfl hp' hne
    · refine ⟨fun th' msg' _ hmsg => ?_, rfl, fun _ _ => rfl, fun _ _ => rfl,
        rfl⟩
      rcases eq_or_ne th' th with rfl | hne
      · right
        rcases hmsg with hparking | hqueued
        · rw [hpc] at hparking
          cases hparking
          simp
        · simp [hqueued]
      · simpa [InFlight, hne] using hmsg
  | @read th park hpark =>
    obtain ⟨_, _, rfl⟩ := parkNext_read hpark
    rcases eq_or_ne th.p p with hp | hne
    · exact absurd (update_self ..) (hquiet th hp)
    · have hne' := ne_of_proc hne
      refine hother (fun th' hp' => ?_) ?_ ?_
      · exact hquiet.before rfl hp' (hne' th' hp')
      · exact .of_same (fun th' hp' =>
            ⟨update_of_ne (hne' th' hp') .., rfl⟩) rfl
          (fun _ _ => rfl) (fun _ _ => rfl) rfl
      · refine ⟨fun th' hp' => ?_, fun _ _ hbusy => hbusy, .inr ⟨rfl, rfl⟩, rfl⟩
        exact Advance.of_same Iff.rfl (.inl rfl)
          (update_of_ne (hne' th' hp') ..) rfl
  | sigusr1 hpark =>
    obtain rfl := parkNext_sigusr1 hpark
    refine hother hquiet ?_ ?_
    · exact .of_same (fun _ _ => ⟨rfl, rfl⟩) rfl (fun _ _ => rfl)
        (fun _ _ => rfl) rfl
    · refine ⟨fun th' _ => ?_, fun _ _ hbusy => hbusy, .inr ⟨rfl, rfl⟩, rfl⟩
      exact Advance.of_same Iff.rfl (.inl rfl) rfl rfl
  | @timer th _ _ hup | @detach th _ _ hup =>
    have hne : p ≠ th.p := by
      rintro rfl
      have hrunning := running_of_up hup
      exact hquiet th rfl hrunning
    refine hother hquiet ?_ (.refl _)
    exact .of_same (fun _ _ => ⟨rfl, rfl⟩) (update_of_ne hne ..)
      (fun _ _ => rfl) (fun _ _ => rfl) rfl
  | @rxRecv th r hup hr =>
    have hne : th.p ≠ p := by
      rintro rfl
      exact hquiet th rfl (running_of_up hup)
    have hne' : ∀ th', th'.p = p → th' ≠ r := ne_of_proc (hr ▸ hne)
    refine hother hquiet ?_ (.refl _)
    exact .of_same (fun _ _ => ⟨rfl, rfl⟩) rfl (fun _ _ => rfl)
      (fun th' hp' => update_of_ne (hne' th' hp') ..) rfl

theorem TimersInv.next (h : TimersInv p s) (hok : strandOk p s a)
    (hnext : runtimeNext s a = some t) : TimersInv p t := by
  refine ⟨h.toRuntimeInv.next hnext, ?_, fun hfresh => ?_,
    h.covered_next hok hnext⟩
  · by_cases hsame : t.heaps p = s.heaps p
    · rw [hsame]
      exact h.heap
    · obtain ⟨th, b, hp, _, hheap, hact⟩ := heaps_next hnext hsame
      apply timerInv_next h.heap ?_ hheap
      rcases hact with rfl | ⟨k, r, rfl⟩
      · exact hok hp
      · trivial
  · by_cases hsame : t.heaps p = s.heaps p
    · rw [hsame]
      apply h.fresh
      exact fun hp => hfresh (created_next h.toRuntimeInv hnext hp)
    · obtain ⟨th, _, rfl, hpc, _⟩ := heaps_next hnext hsame
      have hcreated := h.toRuntimeInv.created hpc
      exact absurd (created_next h.toRuntimeInv hnext hcreated) hfresh

theorem runtimeSystem_timers (hs : (runtimeSystem π ε).Reach (strandOk p) s) :
    TimersInv p s := by
  apply hs.invariant
  · rintro s hinit
    have hbase : RuntimeInv s := runtimeSystem_inv (.init hinit)
    obtain ⟨_, _, hheaps, _⟩ := hinit
    refine ⟨hbase, timerInv_init (hheaps p), fun _ => (hheaps p).1,
      fun _ => .idle (hheaps p).1⟩
  · exact fun s a t h hok hnext => h.next hok hnext

def Drained (p : π) (s : RuntimeState π ε) : Prop :=
  ∀ th, th.p = p → th.idx < s.park.dp.procs.threadCount p →
    (s.park.pc th).reads = true ∧ s.park.dp.threads.parked th = true ∧
    s.park.txq th = [] ∧ (s.park.dp.rxq th).sendHead = s.rxHead th ∧
    s.park.dp.wakes th = []

section

omit [DecidableEq ε]

theorem RuntimeInv.asleep (h : RuntimeInv s) (hdrained : Drained p s)
    (hp : th.p = p) :
    (s.park.pc th).reads = true ∧ s.park.dp.threads.parked th = true ∧
      s.park.txq th = [] ∧ s.park.dp.wakes th = [] := by
  have hparked : s.park.dp.threads.parked th = true := by
    by_contra hunparked
    have hidx := (h.park.dp.threads.live th (by simpa using hunparked)).2
    rw [hp] at hidx
    exact hunparked (hdrained th hp hidx).2.1
  have hasleep : ¬ s.park.dp.Running th := fun hrunning =>
    Bool.noConfusion (hparked.symm.trans hrunning.1)
  cases h.park.kthreads th with
  | runs _ hrunning | sent _ _ hrunning | woken _ hrunning =>
    exact absurd hrunning hasleep
  | sleeps hpc _ htxq hwakes => exact ⟨hpc, hparked, htxq, hwakes⟩

theorem RuntimeInv.not_inFlight (h : RuntimeInv s) (hdrained : Drained p s)
    (hp : th.p = p) (msg : TxMsg) : ¬ InFlight s.park th msg := by
  obtain ⟨hpc, _, htxq, _⟩ := h.asleep hdrained hp
  rintro (hparking | hqueued)
  · rw [hparking] at hpc
    cases hpc
  · rw [htxq] at hqueued
    exact List.not_mem_nil hqueued

theorem RuntimeInv.not_stirring (h : RuntimeInv s) (hdrained : Drained p s) :
    ¬ Stirring p s := by
  intro hstirring
  cases hstirring with
  | @queued th hp hidx hqueued =>
    exact hqueued (hdrained th hp hidx).2.2.2.1
  | alert halert =>
    obtain ⟨th, hp, hwoken⟩ := halert
    obtain ⟨_, hparked, _, hwakes⟩ := h.asleep hdrained hp
    rcases hwoken with hwoken | ⟨hunparked, _⟩
    · exact hwoken hwakes
    · exact Bool.noConfusion (hparked.symm.trans hunparked)
  | joins hp hmsg => exact h.not_inFlight hdrained hp _ hmsg

end

/-- When all kthreads of a process are parked and nothing is on its way, the
daemon knows about the timers they left: the deadline it has is its clock when
it was told, plus what the earliest of them had left when its kthread parked. -/
theorem no_stranded_timers (hs : (runtimeSystem π ε).Reach (strandOk p) s)
    (hdrained : Drained p s) (htimers : ∃ k, 0 < (s.heaps p).timern k) :
    (s.park.dp.pendingTimer p = true ∧
      ∃ th, th.p = p ∧ 0 < (s.heaps p).timern th.idx ∧
        (∀ k i, i < (s.heaps p).timern k →
          ((s.heaps p).timers th.idx 0).deadlineUs ≤
            ((s.heaps p).timers k i).deadlineUs) ∧
        s.park.dp.deadlineUs p = s.lastUs p + s.remainingUs th) ∨
    s.park.dp.lists.overloaded p = true := by
  have h := runtimeSystem_timers hs
  have hquiet : Quiet p s := by
    intro th hp hrunning
    have hpc := (h.asleep hdrained hp).1
    rw [hrunning] at hpc
    cases hpc
  obtain ⟨k, hk⟩ := htimers
  cases h.covered hquiet with
  | idle hidle => exact absurd (hidle k) hk.ne'
  | stirring hstirring => exact absurd hstirring (h.not_stirring hdrained)
  | last hp _ hmsg => exact absurd hmsg (h.not_inFlight hdrained hp _)
  | @pending th hp honly _ hpending hdeadline =>
    have hown : ∀ l, 0 < (s.heaps p).timern l → l = th.idx := by
      intro l hl
      by_contra hne
      exact hl.ne' (honly l hne)
    left
    refine ⟨hpending, th, hp, hown k hk ▸ hk, fun l i hi => ?_, hdeadline⟩
    obtain rfl := hown l (by omega)
    exact (h.heap.ordered th.idx).root_le hi

def soloConfig : ProcConfig := ⟨1, 1, 0, fun _ => ⟨0, 0, 0, 0, 4⟩⟩

def pairConfig : ProcConfig := ⟨2, 2, 0, fun _ => ⟨0, 0, 0, 0, 4⟩⟩

def bootState : RuntimeState Nat Nat where
  park := ⟨.boot 2 fun _ => true, fun _ => .attaching, fun _ => [], fun _ => 0⟩
  addr _ := 1
  heaps _ := ⟨fun _ _ => ⟨0, 0⟩, fun _ => 0, fun _ => ⟨false, 0, none⟩, []⟩
  runningks _ := 0
  parked _ := false
  detached _ := true
  parkUs _ := 0
  leaving _ := none
  rxHead _ := 0
  lastUs _ := 0

def kthreadA : ThreadRef Nat := ⟨0, 0⟩

def kthreadB : ThreadRef Nat := ⟨0, 1⟩

theorem bootState_init : (runtimeSystem Nat Nat).init bootState := by
  refine ⟨⟨⟨2, fun _ => true, by decide, rfl⟩, fun _ => rfl, fun _ => rfl⟩,
    fun _ => ?_, fun _ => ⟨fun _ => rfl, fun _ => ⟨rfl, rfl⟩, rfl⟩,
    fun _ => rfl, fun _ => ⟨rfl, rfl, rfl, rfl⟩⟩
  change (1 : BitVec 64) ≠ 0
  decide

/-- The kthread starts a timer and takes itself off `runningks`. -/
def soloLeaves : List (RuntimeAct Nat Nat) :=
  [.create 0 soloConfig, .add 0, .adjust (fun _ => 1) (fun _ => 0) (fun _ => 0),
    .read kthreadA, .unpark kthreadA, .timer kthreadA (.start 0 0 100),
    .park kthreadA true]

theorem soloLeaves_isSome :
    ((runtimeSystem Nat Nat).exec bootState soloLeaves).isSome := by
  with_unfolding_all decide

def soloLeaving : RuntimeState Nat Nat :=
  ((runtimeSystem Nat Nat).exec bootState soloLeaves).get
    soloLeaves_isSome

theorem soloLeaving_timern :
    (soloLeaving.heaps 0).timern = update (fun _ => 0) 0 1 := by
  with_unfolding_all rfl

theorem soloLeaving_reach :
    (runtimeSystem Nat Nat).Reach (strandOk 0) soloLeaving := by
  apply System.Reach.exec_of (.init bootState_init) soloLeaves
  · intro s a ha
    fin_cases ha <;> simp [strandOk, heapOp]
  · exact (Option.some_get soloLeaves_isSome).symm

theorem soloChosen_isSome : ((runtimeSystem Nat Nat).next soloLeaving
    (.choose kthreadA 10)).isSome := by
  with_unfolding_all decide

def soloChosen : RuntimeState Nat Nat :=
  ((runtimeSystem Nat Nat).next soloLeaving (.choose kthreadA 10)).get
    soloChosen_isSome

theorem soloChosen_reach :
    (runtimeSystem Nat Nat).Reach (strandOk 0) soloChosen := by
  apply soloLeaving_reach.step ?_ (Option.some_get soloChosen_isSome).symm
  intro _ _ _
  right
  constructor
  · intro l hl
    rw [soloLeaving_timern]
    exact update_of_ne hl ..
  · intro _
    with_unfolding_all decide

theorem soloSent_isSome : ((runtimeSystem Nat Nat).next soloChosen
    (.send kthreadA)).isSome := by
  with_unfolding_all decide

def soloSent : RuntimeState Nat Nat :=
  ((runtimeSystem Nat Nat).next soloChosen (.send kthreadA)).get
    soloSent_isSome

theorem soloParked_isSome : ((runtimeSystem Nat Nat).next soloSent
    (.recv kthreadA 20)).isSome := by
  with_unfolding_all decide

def soloParked : RuntimeState Nat Nat :=
  ((runtimeSystem Nat Nat).next soloSent (.recv kthreadA 20)).get
    soloParked_isSome

theorem soloParked_reach :
    (runtimeSystem Nat Nat).Reach (strandOk 0) soloParked := by
  have hsent : (runtimeSystem Nat Nat).Reach (strandOk 0) soloSent := by
    refine soloChosen_reach.step ?_ (Option.some_get soloSent_isSome).symm
    trivial
  apply hsent.step ?_ (Option.some_get soloParked_isSome).symm
  intro _ _ _ _
  right
  with_unfolding_all decide

theorem soloParked_drained : Drained 0 soloParked := by
  rintro ⟨p, i⟩ rfl hidx
  have hcount : soloParked.park.dp.procs.threadCount 0 = 1 := by
    with_unfolding_all decide
  rw [hcount] at hidx
  obtain rfl : i = 0 := Nat.lt_one_iff.mp hidx
  with_unfolding_all decide

theorem no_stranded_timers_solo :
    Drained 0 soloParked ∧ (∃ k, 0 < (soloParked.heaps 0).timern k) ∧
    ((soloParked.park.dp.pendingTimer 0 = true ∧
      ∃ th, th.p = 0 ∧ 0 < (soloParked.heaps 0).timern th.idx ∧
        (∀ k i, i < (soloParked.heaps 0).timern k →
          ((soloParked.heaps 0).timers th.idx 0).deadlineUs ≤
            ((soloParked.heaps 0).timers k i).deadlineUs) ∧
        soloParked.park.dp.deadlineUs 0 =
          soloParked.lastUs 0 + soloParked.remainingUs th) ∨
    soloParked.park.dp.lists.overloaded 0 = true) := by
  have htimers : ∃ k, 0 < (soloParked.heaps 0).timern k :=
    ⟨0, by with_unfolding_all decide⟩
  exact ⟨soloParked_drained, htimers,
    no_stranded_timers soloParked_reach soloParked_drained htimers⟩

/-- Two kthreads park at the same time. `B` is the last to leave `runningks`
and has a timer, but its `TXCMD_PARKED_LAST` arrives before the
`TXCMD_PARKED` of `A`, so that the daemon drops it. -/
def strandRun : List (RuntimeAct Nat Nat) :=
  [.create 0 pairConfig, .add 0, .adjust (fun _ => 1) (fun _ => 0) (fun _ => 0),
    .adjust (fun _ => 1) (fun _ => 0) (fun _ => 0),
    .read kthreadA, .unpark kthreadA, .read kthreadB, .unpark kthreadB,
    .timer kthreadB (.start 1 0 100), .park kthreadA true, .choose kthreadA 10,
    .park kthreadB true, .choose kthreadB 10,
    .send kthreadB, .recv kthreadB 20, .send kthreadA, .recv kthreadA 21]

theorem strandRun_isSome :
    ((runtimeSystem Nat Nat).exec bootState strandRun).isSome := by
  with_unfolding_all decide

def stranded : RuntimeState Nat Nat :=
  ((runtimeSystem Nat Nat).exec bootState strandRun).get
    strandRun_isSome

theorem stranded_drained : Drained 0 stranded := by
  rintro ⟨p, i⟩ rfl hidx
  have hcount : stranded.park.dp.procs.threadCount 0 = 2 := by
    with_unfolding_all decide
  rw [hcount] at hidx
  change i < 2 at hidx
  obtain rfl | rfl : i = 0 ∨ i = 1 := by omega
  · with_unfolding_all decide
  · with_unfolding_all decide

/-- The timer of `B` is pending and the daemon does not know. -/
theorem timers_stranded :
    (runtimeSystem Nat Nat).Reach anyStep stranded ∧
    Drained 0 stranded ∧ (stranded.heaps 0).timern 1 = 1 ∧
    stranded.park.dp.pendingTimer 0 = false ∧
    stranded.park.dp.lists.overloaded 0 = false := by
  refine ⟨?_, stranded_drained, ?_⟩
  · apply System.Reach.exec (.init bootState_init) strandRun
    exact (Option.some_get strandRun_isSome).symm
  · with_unfolding_all decide

end Runs

end Libut.Runtime
