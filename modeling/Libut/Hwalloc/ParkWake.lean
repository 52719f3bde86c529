import Libut.Hwalloc.DataplaneRuns

/-!
The handshake between kthreads and the daemon (`runtime/kthread.c`,
`hwalloc/commands.c`, `hwalloc/cores.c`). A kthread that parks sends a command
on its transmit queue and blocks on its eventfd. The daemon takes the command,
gives the core to somebody else or wakes the kthread again, and later wakes it
with the number of the core it is to run on. The eventfd adds up what is written
to it, so two wakes in a row would name a core that does not exist.

A step is one call of the dataplane loop, or one action of one kthread. A call
of the dataplane shares nothing with a kthread but the eventfd it writes, the
signal it sends and the queue it reads at the start, so it is one step.
-/

namespace Libut.Hwalloc

open Function Machine Base

variable {π : Type} [DecidableEq π]

/-- `TXCMD_PARKED` and `TXCMD_PARKED_LAST`. -/
inductive TxCmd
  | parked
  | parkedLast
  deriving DecidableEq, Repr

structure TxMsg where
  cmd : TxCmd
  payload : BitVec 64
  deriving DecidableEq, Repr

/-- Where a kthread stands. -/
inductive KthreadPc
  /-- In `kthread_wait_to_attach`, before it is woken for the first time. -/
  | attaching
  | running
  /-- In `kthread_park`, about to send the command. -/
  | parking (msg : TxMsg)
  /-- In `kthread_yield_to_iokernel`, with the command sent. -/
  | yielding
  deriving DecidableEq, Repr

/-- The kthread is in `read(k->park_efd, ..)`, or about to call it. -/
def KthreadPc.reads : KthreadPc → Bool
  | .attaching => true
  | .yielding => true
  | _ => false

/-- The daemon, and for each kthread where it stands, what is on its transmit
queue, and the core it was told to run on. -/
structure ParkState (π : Type) where
  dp : Dataplane π
  pc : ThreadRef π → KthreadPc
  txq : ThreadRef π → List TxMsg
  currCpu : ThreadRef π → Nat

/-- The `switch` of `commands_drain_queue`. -/
def Dataplane.command (s : Dataplane π) (th : ThreadRef π) (msg : TxMsg)
    (recvHeadWb : BitVec 32) (mem : LrpcMem) (now : BitVec 64) :
    Except Fault (Dataplane π) :=
  match msg.cmd with
  | .parkedLast => s.cmdParkedLast th msg.payload recvHeadWb now
  | .parked => s.cmdParked th msg.payload recvHeadWb mem

def DpAct.isCall : DpAct π → Bool
  | .create _ _ => true
  | .add _ => true
  | .rxSend _ _ _ _ _ => true
  | .adjust _ => true
  | _ => false

inductive ParkAct (π : Type)
  | call (a : DpAct π)
  /-- `commands_drain_queue` takes a command off a queue. It goes on with the
  queue of a thread that has just left the polling array, so this is not asked
  for. -/
  | recv (th : ThreadRef π) (recvHeadWb : BitVec 32) (mem : LrpcMem)
      (now : BitVec 64)
  /-- The kthread calls `kthread_park`, of its own accord or from the handler
  of `SIGUSR1`, and decides what to send. -/
  | park (th : ThreadRef π) (msg : TxMsg)
  | send (th : ThreadRef π)
  /-- `read` returns what the eventfd has added up. -/
  | read (th : ThreadRef π)
  /-- The handler of `SIGUSR1` runs; a `read` that blocks is tried again. -/
  | sigusr1 (th : ThreadRef π)

def parkNext (s : ParkState π) : ParkAct π → Option (ParkState π)
  | .call a =>
    if a.isCall then (dpNext s.dp a).map fun dp => { s with dp := dp }
    else none
  | .recv th recvHeadWb mem now =>
    match s.txq th with
    | [] => none
    | msg :: rest =>
      (s.dp.command th msg recvHeadWb mem now).toOption.map fun dp =>
        { s with dp := dp, txq := update s.txq th rest }
  | .park th msg =>
    if s.pc th = .running then
      some { s with pc := update s.pc th (.parking msg) }
    else none
  | .send th =>
    match s.pc th with
    | .parking msg =>
      some
        { s with
          pc := update s.pc th .yielding
          txq := update s.txq th (s.txq th ++ [msg]) }
    | _ => none
  | .read th =>
    if (s.pc th).reads = true ∧ (s.dp.wakes th).sum ≠ 0 then
      some
        { s with
          dp := { s.dp with wakes := update s.dp.wakes th [] }
          pc := update s.pc th .running
          currCpu := update s.currCpu th
            ((s.dp.wakes th).sum - 1) }
    else none
  | .sigusr1 th =>
    if s.dp.signalled th then
      some
        { s with
          dp :=
            { s.dp with
              signalled := update s.dp.signalled th false } }
    else none

def parkSystem (π : Type) [DecidableEq π] :
    System (ParkState π) (ParkAct π) where
  init s := (dpSystem π).init s.dp ∧ (∀ th, s.pc th = .attaching) ∧
    ∀ th, s.txq th = []
  next := parkNext

section Advance

variable {s t u : Dataplane π} {th : ThreadRef π} {p : π} {core : Nat}

def Slept (s t : Dataplane π) (th : ThreadRef π) : Prop :=
  ¬ t.Running th ∧ t.wakes th = s.wakes th ∨
  t.Running th ∧ t.wakes th = s.wakes th ++ [t.threads.core th + 1]

/-- What a call does to a thread that it does not park: one that runs goes on
and hears nothing, one that does not is woken at most once. -/
structure Advance (s t : Dataplane π) (th : ThreadRef π) : Prop where
  running : s.Running th → t.Running th ∧
    t.threads.core th = s.threads.core th ∧ t.wakes th = s.wakes th
  asleep : ¬ s.Running th → Slept s t th
  unparked : s.threads.parked th = false → t.threads.parked th = false

section

omit [DecidableEq π]

theorem Advance.refl (s : Dataplane π) (th : ThreadRef π) : Advance s s th :=
  ⟨fun hth => ⟨hth, rfl, rfl⟩, fun hth => .inl ⟨hth, rfl⟩, fun hth => hth⟩

theorem Slept.advance (h : Slept s t th) (h' : Advance t u th) :
    Slept s u th := by
  rcases h with ⟨hasleep, hwakes⟩ | ⟨hrunning, hwakes⟩
  · rcases h'.asleep hasleep with ⟨hasleep', hwakes'⟩ | ⟨hrunning', hwakes'⟩
    · exact .inl ⟨hasleep', hwakes'.trans hwakes⟩
    · right
      rw [← hwakes]
      exact ⟨hrunning', hwakes'⟩
  · obtain ⟨hrunning', hcore, hwakes'⟩ := h'.running hrunning
    right
    rw [hcore]
    exact ⟨hrunning', hwakes'.trans hwakes⟩

theorem Advance.trans (h : Advance s t th) (h' : Advance t u th) :
    Advance s u th := by
  refine ⟨fun hth => ?_, fun hth => (h.asleep hth).advance h',
    fun hth => h'.unparked (h.unparked hth)⟩
  obtain ⟨hrunning, hcore, hwakes⟩ := h.running hth
  obtain ⟨hrunning', hcore', hwakes'⟩ := h'.running hrunning
  exact ⟨hrunning', hcore'.trans hcore, hwakes'.trans hwakes⟩

theorem Advance.of_same (hrunning : t.Running th ↔ s.Running th)
    (hcore : t.threads.core th = s.threads.core th ∨ ¬ s.Running th)
    (hwakes : t.wakes th = s.wakes th)
    (hparked : t.threads.parked th = s.threads.parked th) : Advance s t th := by
  refine ⟨fun hth => ⟨hrunning.mpr hth, ?_, hwakes⟩, fun hth => ?_,
    fun hth => hparked.trans hth⟩
  · exact hcore.resolve_right (not_not_intro hth)
  · exact .inl ⟨fun hth' => hth (hrunning.mp hth'), hwakes⟩

end

theorem Granted.advance (h : Granted s th core t)
    (hfree : ∀ th', s.Running th' → s.threads.core th' ≠ core)
    (hth : s.threads.parked th = true) (th' : ThreadRef π) :
    Advance s t th' := by
  rcases eq_or_ne th' th with rfl | hne
  · have hasleep : ¬ s.Running th' := fun hrunning =>
      Bool.noConfusion (hth.symm.trans hrunning.1)
    have hrunning : t.Running th' := by
      simp [Dataplane.Running, h.threads, h.cores, ThreadTable.activate,
        CoreTable.reserve]
    refine ⟨fun hr => absurd hr hasleep, fun _ => .inr ⟨hrunning, ?_⟩,
      fun _ => hrunning.1⟩
    simp [h.wakes, h.threads, ThreadTable.activate]
  · have hparked : t.threads.parked th' = s.threads.parked th' := by
      simp [h.threads, ThreadTable.activate, hne]
    have hcore : t.threads.core th' = s.threads.core th' := by
      simp [h.threads, ThreadTable.activate, hne]
    have hcurrent : t.cores.current (s.threads.core th') = some th' ↔
        s.cores.current (s.threads.core th') = some th' ∧
          s.threads.core th' ≠ core := by
      rw [h.cores]
      rcases eq_or_ne (s.threads.core th') core with heq | hdc
      · simp [CoreTable.reserve, heq, hne.symm]
      · simp [CoreTable.reserve, hdc]
    apply Advance.of_same ?_ (.inl hcore) ?_ hparked
    · unfold Dataplane.Running
      rw [hparked, hcore, hcurrent]
      constructor
      · exact fun hr => ⟨hr.1, hr.2.1⟩
      · exact fun hr => ⟨hr.1, hr.2, hfree th' hr⟩
    · simp [h.wakes, hne]

theorem Regranted.advance (h : Regranted s core t)
    (hfree : ∀ th', s.Running th' → s.threads.core th' ≠ core)
    (th' : ThreadRef π) : Advance s t th' := by
  cases h with
  | idle _ hcores hthreads hwakes =>
    apply Advance.of_same
    · unfold Dataplane.Running
      rw [hcores, hthreads]
    · rw [hthreads]
      exact .inl rfl
    · rw [hwakes]
    · rw [hthreads]
  | granted _ hth hgranted => exact hgranted.advance hfree hth th'

theorem Preempted.advance {cur : ThreadRef π} (h : Preempted s th core cur t)
    (hcur : s.cores.current core = some cur) (hne : cur ≠ th)
    (hth : s.threads.parked th = true) (th' : ThreadRef π) :
    Advance s t th' := by
  have hwakes : t.wakes th' = s.wakes th' := by rw [h.wakes]
  rcases eq_or_ne th' th with rfl | hthne
  · have hasleep : ¬ s.Running th' := fun hrunning =>
      Bool.noConfusion (hth.symm.trans hrunning.1)
    have hwaits : ¬ t.Running th' := by
      simp [Dataplane.Running, h.threads, h.cores, ThreadTable.activate,
        CoreTable.beginPreempt, hcur, hne]
    refine ⟨fun hr => absurd hr hasleep, fun _ => .inl ⟨hwaits, hwakes⟩,
      fun hr => Bool.noConfusion (hth.symm.trans hr)⟩
  · apply Advance.of_same
    · simp [Dataplane.Running, h.threads, h.cores, ThreadTable.activate,
        CoreTable.beginPreempt, hthne]
    · simp [h.threads, ThreadTable.activate, hthne]
    · exact hwakes
    · simp [h.threads, ThreadTable.activate, hthne]

theorem DpInv.running_ne (h : DpInv none s)
    (hcore : s.cores.availCores core = true) (th' : ThreadRef π)
    (hth' : s.Running th') : s.threads.core th' ≠ core := by
  rintro rfl
  have hbusy := (h.cores.placed th' hth'.1).2.1
  exact Bool.noConfusion (hbusy.symm.trans hcore)

theorem CoreAdded.advance {r : Option (ThreadRef π)} (h : CoreAdded s p t r)
    (hinv : DpInv none s) (th' : ThreadRef π) : Advance s t th' := by
  cases h with
  | full => exact .refl s th'
  | granted hcore _ hth hgranted =>
    exact hgranted.advance (hinv.running_ne hcore) hth th'
  | @preempted th cur core t hnone honline hcur hbursting hnext _ hth
      hpreempted =>
      apply hpreempted.advance hcur ?_ hth th'
      rintro rfl
      -- the core is busy, so its current thread is not parked
      have hbusy : s.cores.availCores core = false := by
        by_contra havail
        rw [Bool.not_eq_false] at havail
        have hpos : 0 < s.cores.available.card := Finset.card_pos.mpr
          ⟨core, by simp [CoreTable.available, havail,
            hinv.cores.core_lt honline]⟩
        rw [hinv.cores.nr_avail] at hnone
        omega
      obtain ⟨cur', hcur', hparked, _⟩ := hinv.cores.busy core honline hbusy
      cases hcur.symm.trans hcur'
      exact Bool.noConfusion (hth.symm.trans hparked)

structure Parks (s : Dataplane π) (th : ThreadRef π) (t : Dataplane π) :
    Prop where
  others : ∀ th', th' ≠ th → Advance s t th'
  slept : Slept s t th

omit [DecidableEq π] in
theorem Parks.advance (h : Parks s th t) (h' : ∀ th', Advance t u th') :
    Parks s th u :=
  ⟨fun th' hne => (h.others th' hne).trans (h' th'), h.slept.advance (h' th)⟩

omit [DecidableEq π] in
theorem running_core_ne (hth : s.Running th) {th' : ThreadRef π}
    (hth' : s.Running th') (hne : th' ≠ th) :
    s.threads.core th' ≠ s.threads.core th := by
  intro heq
  have hcur := hth'.2
  rw [heq, hth.2] at hcur
  exact hne (Option.some.inj hcur).symm

theorem CoreReleased.parks (h : CoreReleased s th t) (hth : s.Running th)
    (hinv : DpInv none s) : Parks s th t := by
  cases h with
  | @regranted s₁ i hnext hprocs hcores hthreads hwakes hregranted =>
    have hleft : ¬ s₁.Running th := by
      simp [Dataplane.Running, hthreads, ThreadTable.deactivate]
    have hsame : ∀ th', th' ≠ th → (s₁.Running th' ↔ s.Running th') := by
      intro th' hne
      simp [Dataplane.Running, hthreads, hcores, ThreadTable.deactivate,
        CoreTable.cede, hne]
    have hcede : Parks s th s₁ := by
      refine ⟨fun th' hne => ?_, .inl ⟨hleft, by rw [hwakes]⟩⟩
      apply Advance.of_same (hsame th' hne)
      · rw [hthreads]
        exact .inl rfl
      · rw [hwakes]
      · simp [hthreads, ThreadTable.deactivate, hne]
    apply hcede.advance
    apply hregranted.advance
    intro th' hth'
    have hne : th' ≠ th := by
      rintro rfl
      exact hleft hth'
    rw [hthreads]
    exact running_core_ne hth ((hsame th' hne).mp hth') hne
  | @handed n i hnext hn hprocs hcores hthreads hwakes =>
    obtain ⟨hnparked, hncore, hncur⟩ := hinv.cores.waiting _ n hnext
    refine ⟨fun th' hne => ?_, .inl ⟨?_, ?_⟩⟩
    · have hparked : t.threads.parked th' = s.threads.parked th' := by
        simp [hthreads, ThreadTable.deactivate, hne]
      have hcore : t.threads.core th' = s.threads.core th' := by
        rw [hthreads]
        rfl
      rcases eq_or_ne th' n with rfl | hnn
      · -- the thread that waited now has the core
        have hasleep : ¬ s.Running th' := by
          rintro ⟨_, hcur⟩
          rw [hncore] at hcur
          exact hncur hcur
        have hrunning : t.Running th' := by
          refine ⟨hparked.trans hnparked, ?_⟩
          rw [hcore, hncore, hcores]
          simp [CoreTable.reserve]
        refine ⟨fun hr => absurd hr hasleep, fun _ => .inr ⟨hrunning, ?_⟩,
          fun _ => hrunning.1⟩
        rw [hwakes, hcore, hncore, update_self]
      · apply Advance.of_same ?_ (.inl hcore) ?_ hparked
        · unfold Dataplane.Running
          rw [hparked, hcore, hcores]
          rcases eq_or_ne (s.threads.core th') (s.threads.core th) with
            heq | hdc
          · rw [heq, hth.2]
            simp [CoreTable.reserve, hne.symm, hnn.symm]
          · simp [CoreTable.reserve, CoreTable.endPreempt, CoreTable.cede, hdc]
        · rw [hwakes, update_of_ne hnn]
    · simp [Dataplane.Running, hthreads, ThreadTable.deactivate]
    · rw [hwakes, update_of_ne hn.symm]

theorem Raced.parks (h : Raced s th t) (hth : s.Running th) : Parks s th t := by
  have hrunning : ∀ th', t.Running th' ↔ s.Running th' := by
    intro th'
    unfold Dataplane.Running
    rw [h.threads, h.cores]
  refine ⟨fun th' hne => ?_, .inr ⟨(hrunning th).mpr hth, ?_⟩⟩
  · apply Advance.of_same (hrunning th')
    · rw [h.threads]
      exact .inl rfl
    · rw [h.wakes, update_of_ne hne]
    · rw [h.threads]
  · rw [h.wakes, h.threads, update_self]

end Advance

section Calls

variable {s t : Dataplane π} {th : ThreadRef π} {p : π}

omit [DecidableEq π] in
theorem SameRecords.advance (h : SameRecords s t) (th : ThreadRef π) :
    Advance s t th := by
  apply Advance.of_same
  · unfold Dataplane.Running
    rw [h.threads, h.cores]
  · rw [h.threads]
    exact .inl rfl
  · rw [h.wakes]
  · rw [h.threads]

theorem advance_callInv (s : Dataplane π) {J : Dataplane π → Prop}
    (hJ : ∀ {t u}, J t → (∀ th, Advance t u th) → J u) :
    CallInv Fault.Exhausted (· ∈ s.procs.clients)
      fun t => Kept s t ∧ J t := by
  constructor
  · exact (kept_callInv s).overrun
  · rintro t u ⟨ht, hj⟩ hsame
    exact ⟨(kept_callInv s).quiet ht hsame, hJ hj hsame.advance⟩
  · rintro t p ⟨ht, hj⟩ hp
    refine ⟨(kept_callInv s).overload ht hp, hJ hj fun th => ?_⟩
    exact Advance.of_same Iff.rfl (.inl rfl) rfl rfl
  · rintro t p ⟨ht, hj⟩
    refine ⟨(kept_callInv s).unload p ht, hJ hj fun th => ?_⟩
    exact Advance.of_same Iff.rfl (.inl rfl) rfl rfl
  · rintro t p ⟨⟨ht, hprocs⟩, hj⟩ hp _
    apply ((coresAddCore_meets ht (client_of_procs hprocs hp)).weaken
      Dataplane.Starved.exhausted).imp
    rintro r ⟨hr, hadded⟩
    exact ⟨⟨hr, hadded.procs.trans hprocs⟩, hJ hj (hadded.advance ht)⟩
  · exact fun ht => (kept_callInv s).clients ht.1
  · exact fun ht => (kept_callInv s).listed ht.1

theorem advances_callInv (s : Dataplane π) :
    CallInv Fault.Exhausted (· ∈ s.procs.clients)
      fun t => Kept s t ∧ ∀ th, Advance s t th := by
  apply advance_callInv s
  exact fun ht hu th => (ht th).trans (hu th)

theorem command_parks (h : DpInv none s) (hth : s.Running th)
    (hok : ParkOk s th) {msg : TxMsg} {wb : BitVec 32} {mem : LrpcMem}
    {now : BitVec 64} (hcommand : s.command th msg wb mem now = .ok t) :
    Kept s t ∧ Parks s th t := by
  have hparks := advance_callInv s
    fun {t u} (ht : Parks s th t) hu => ht.advance hu
  have hpark : Meets Fault.Exhausted (s.coresParkKthread th false wb)
      fun r => Kept s r.1 ∧ Parks s th r.1 := by
    apply ((coresParkKthread_meets h hth hok false wb).weaken fun _ => .inr).imp
    rintro r ⟨hr, hparked⟩
    refine ⟨⟨hr, (parked_released hparked).procs⟩, ?_⟩
    rcases hparked with ⟨_, _, hraced⟩ | ⟨_, hreleased⟩
    · exact hraced.parks hth
    · exact hreleased.parks hth h
  unfold Dataplane.command at hcommand
  cases hcmd : msg.cmd with
  | parked =>
    rw [hcmd] at hcommand
    exact (hparks.cmdParked (h.running_client hth) hpark msg.payload
      mem).of_ok hcommand
  | parkedLast =>
    rw [hcmd] at hcommand
    exact (hparks.cmdParkedLast hpark msg.payload now).of_ok hcommand

theorem reset_advance (h : DpInv none s) (hpending : p ∈ s.procs.pending)
    (th : ThreadRef π) : Advance s ((s.pushClient p).resetProc p) th := by
  have hclient : p ∉ s.procs.clients := fun hmem =>
    h.procs.clients_started p hmem hpending
  rcases eq_or_ne th.p p with heq | hne
  · have hparked : s.threads.parked th = true :=
      h.parked_of_not_client hclient heq
    have hasleep : ∀ {c}, ¬ (s.threads.parked th = false ∧ c) := by
      rintro c ⟨hth, _⟩
      exact Bool.noConfusion (hparked.symm.trans hth)
    exact Advance.of_same (iff_of_false hasleep hasleep) (.inr hasleep) rfl rfl
  · have hcore : ((s.pushClient p).resetProc p).threads.core th =
        s.threads.core th := by
      apply onThreads_other (f := s.threads.core)
        (n := s.procs.threadCount p)
        (v := fun _ => bitmapFindNextSet s.cores.onlineCores ncpu) hne
    apply Advance.of_same ?_ (.inl hcore) rfl rfl
    unfold Dataplane.Running
    rw [hcore]
    rfl

theorem create_advance (h : DpInv none s) (hfresh : p ∉ s.procs.created)
    (hwakes : ∀ th, ¬ s.Running th → s.wakes th = []) (cfg : ProcConfig)
    (th : ThreadRef π) : Advance s (s.controlCreateProc p cfg) th := by
  have hclient : p ∉ s.procs.clients := fun hmem =>
    hfresh (h.procs.clients_created p hmem)
  have hparked : ∀ th : ThreadRef π, th.p = p → s.threads.parked th = true :=
    fun _ => h.parked_of_not_client hclient
  have hasleep : ∀ th : ThreadRef π, th.p = p → ¬ s.Running th :=
    fun th hp hth => Bool.noConfusion ((hparked th hp).symm.trans hth.1)
  have hsame : onThreads s.threads.parked p cfg.threadCount (fun _ => true) =
      s.threads.parked := onThreads_same hparked
  have hempty : onThreads s.wakes p cfg.threadCount (fun _ => []) =
      s.wakes := onThreads_same fun th hp => hwakes th (hasleep th hp)
  unfold Dataplane.controlCreateProc
  rw [hsame, hempty]
  exact Advance.of_same Iff.rfl (.inl rfl) rfl rfl

/-- A call that is not a command of a kthread parks nobody. -/
theorem dpNext_advance {a : DpAct π} (h : DpInv none s)
    (hwakes : ∀ th, ¬ s.Running th → s.wakes th = []) (hcall : a.isCall = true)
    (hnext : dpNext s a = some t) (th : ThreadRef π) : Advance s t th := by
  have hstep := dpNext_iff.mp hnext
  cases a with
  | create p cfg =>
    obtain ⟨hfresh, ⟨⟩⟩ := guarded hstep
    exact create_advance h hfresh.1 hwakes cfg th
  | add p =>
    simp only [dpStep] at hstep
    split_ifs at hstep with hpending
    obtain ⟨h₁, _, _, hadded⟩ := (dpClientsAddClient_added h hpending).of_ok
      (Option.some.inj hstep)
    exact (reset_advance h hpending th).trans (hadded.advance h₁ th)
  | rxSend p hash cmd payload mem =>
    simp only [dpStep] at hstep
    split_ifs at hstep with hclient
    have hsent : Meets Fault.Exhausted
        ((s.rxSendToRuntime p hash cmd payload mem).map Prod.fst)
        fun t => Kept s t ∧ ∀ th, Advance s t th :=
      ((advances_callInv s).rxSendToRuntime ⟨⟨h, rfl⟩, Advance.refl s⟩
        hclient hash cmd payload mem).map
    exact (hsent.of_ok (Option.some.inj hstep)).2 th
  | adjust obs =>
    have hadjusted := (advances_callInv s).coresAdjustAssignments
      ⟨⟨h, rfl⟩, Advance.refl s⟩ obs
    exact (hadjusted.of_ok (Option.some.inj hstep)).2 th
  | setRemoved | remove | parked | parkedLast =>
    exact Bool.noConfusion hcall

end Calls

section Runs

variable {s t : ParkState π} {th : ThreadRef π} {a : ParkAct π}

inductive KthreadOk (s : ParkState π) (th : ThreadRef π) : Prop
  | runs (hpc : (s.pc th).reads = false) (hrunning : s.dp.Running th)
      (htxq : s.txq th = []) (hwakes : s.dp.wakes th = [])
      (hcpu : s.currCpu th = s.dp.threads.core th)
  | sent (msg : TxMsg) (hpc : s.pc th = .yielding)
      (hrunning : s.dp.Running th) (htxq : s.txq th = [msg])
      (hwakes : s.dp.wakes th = [])
  | sleeps (hpc : (s.pc th).reads = true) (hasleep : ¬ s.dp.Running th)
      (htxq : s.txq th = []) (hwakes : s.dp.wakes th = [])
  | woken (hpc : (s.pc th).reads = true) (hrunning : s.dp.Running th)
      (htxq : s.txq th = [])
      (hwakes : s.dp.wakes th = [s.dp.threads.core th + 1])

structure ParkInv (s : ParkState π) : Prop where
  dp : DpInv none s.dp
  marks : ∀ p, s.dp.procs.removed p = false
  kthreads : ∀ th, KthreadOk s th

omit [DecidableEq π] in
theorem KthreadOk.of_slept (hslept : Slept s.dp t.dp th)
    (hwakes : s.dp.wakes th = []) (hpc : (t.pc th).reads = true)
    (htxq : t.txq th = []) : KthreadOk t th := by
  rw [Slept, hwakes] at hslept
  rcases hslept with ⟨hasleep, hwakes'⟩ | ⟨hrunning, hwakes'⟩
  · exact .sleeps hpc hasleep htxq hwakes'
  · exact .woken hpc hrunning htxq hwakes'

omit [DecidableEq π] in
theorem KthreadOk.advance (h : KthreadOk s th) (hadv : Advance s.dp t.dp th)
    (hpc : t.pc th = s.pc th) (htxq : t.txq th = s.txq th)
    (hcpu : t.currCpu th = s.currCpu th) : KthreadOk t th := by
  cases h with
  | runs hreads hrunning hempty hwakes hcore =>
    obtain ⟨hrunning', hcore', hwakes'⟩ := hadv.running hrunning
    apply KthreadOk.runs
    · rwa [hpc]
    · exact hrunning'
    · rwa [htxq]
    · rwa [hwakes']
    · rw [hcpu, hcore', hcore]
  | sent msg hyields hrunning hqueued hwakes =>
    obtain ⟨hrunning', _, hwakes'⟩ := hadv.running hrunning
    apply KthreadOk.sent msg
    · rwa [hpc]
    · exact hrunning'
    · rwa [htxq]
    · rwa [hwakes']
  | sleeps hreads hasleep hempty hwakes =>
    apply KthreadOk.of_slept (hadv.asleep hasleep) hwakes
    · rwa [hpc]
    · rwa [htxq]
  | woken hreads hrunning hempty hwakes =>
    obtain ⟨hrunning', hcore', hwakes'⟩ := hadv.running hrunning
    apply KthreadOk.woken
    · rwa [hpc]
    · exact hrunning'
    · rwa [htxq]
    · rwa [hwakes', hcore']

section

variable (h : ParkInv s)
include h

theorem ParkInv.quiet_asleep (th : ThreadRef π) (hth : ¬ s.dp.Running th) :
    s.dp.wakes th = [] := by
  cases h.kthreads th with
  | runs _ hrunning | sent _ _ hrunning | woken _ hrunning =>
    exact absurd hrunning hth
  | sleeps _ _ _ hwakes => exact hwakes

theorem ParkInv.call {b : DpAct π} {dp : Dataplane π} (hcall : b.isCall = true)
    (hnext : dpNext s.dp b = some dp) :
    ParkInv { s with dp := dp } := by
  have hok : noRemoval s.dp b := by
    cases b with
    | setRemoved | remove => exact Bool.noConfusion hcall
    | create | add | parked | parkedLast | rxSend | adjust => trivial
  obtain ⟨hinv, hmarks⟩ :=
    dpNext_inv h.dp (removalOk_of_noRemoval h.marks hok) hnext
  refine ⟨hinv, fun p => ?_, fun th => ?_⟩
  · rw [hmarks]
    exact removedAfter_of_noRemoval h.marks hok p
  · have hadv := dpNext_advance h.dp h.quiet_asleep hcall hnext th
    exact (h.kthreads th).advance hadv rfl rfl rfl

theorem ParkInv.queued {msg : TxMsg} {rest : List TxMsg}
    (htxq : s.txq th = msg :: rest) :
    s.pc th = .yielding ∧ s.dp.Running th ∧ rest = [] ∧
      s.dp.wakes th = [] := by
  cases h.kthreads th with
  | runs _ _ hempty | sleeps _ _ hempty | woken _ _ hempty =>
    exact absurd (htxq.symm.trans hempty) (by simp)
  | sent _ hyields hrunning hqueued hwakes =>
    exact ⟨hyields, hrunning, (List.cons.inj (htxq.symm.trans hqueued)).2,
      hwakes⟩

theorem ParkInv.recv {msg : TxMsg} {rest : List TxMsg} {wb : BitVec 32}
    {mem : LrpcMem} {now : BitVec 64} {dp : Dataplane π}
    (htxq : s.txq th = msg :: rest)
    (hcommand : s.dp.command th msg wb mem now = .ok dp) :
    ParkInv { s with dp := dp, txq := update s.txq th rest } := by
  obtain ⟨hyields, hrunning, hrest, hwakes⟩ := h.queued htxq
  have hok : ParkOk s.dp th := fun n _ => h.marks n.p
  obtain ⟨⟨hinv, hprocs⟩, hparks⟩ := command_parks h.dp hrunning hok hcommand
  refine ⟨hinv, fun p => ?_, fun th' => ?_⟩
  · change dp.procs.removed p = false
    rw [hprocs]
    exact h.marks p
  · rcases eq_or_ne th' th with rfl | hne
    · apply KthreadOk.of_slept hparks.slept hwakes
      · change (s.pc th').reads = true
        rw [hyields]
        rfl
      · exact (update_self ..).trans hrest
    · exact (h.kthreads th').advance (hparks.others th' hne) rfl
        (update_of_ne hne ..) rfl

theorem ParkInv.own (th : ThreadRef π) (hdp : DpInv none t.dp)
    (hprocs : t.dp.procs = s.dp.procs) (hth : KthreadOk t th)
    (hother : ∀ th', th' ≠ th → Advance s.dp t.dp th' ∧
      t.pc th' = s.pc th' ∧ t.txq th' = s.txq th' ∧
      t.currCpu th' = s.currCpu th') : ParkInv t := by
  refine ⟨hdp, fun p => ?_, fun th' => ?_⟩
  · rw [hprocs]
    exact h.marks p
  · rcases eq_or_ne th' th with rfl | hne
    · exact hth
    · obtain ⟨hadv, hpc, htxq, hcpu⟩ := hother th' hne
      exact (h.kthreads th').advance hadv hpc htxq hcpu

theorem ParkInv.outside (hpc : (s.pc th).reads = false) :
    s.dp.Running th ∧ s.txq th = [] ∧ s.dp.wakes th = [] ∧
      s.currCpu th = s.dp.threads.core th := by
  cases h.kthreads th with
  | runs _ hrunning hempty hwakes hcore =>
    exact ⟨hrunning, hempty, hwakes, hcore⟩
  | sent _ hyields =>
    rw [hyields] at hpc
    exact Bool.noConfusion hpc
  | sleeps hreads | woken hreads =>
    exact Bool.noConfusion (hpc.symm.trans hreads)

theorem ParkInv.readable (hwake : (s.dp.wakes th).sum ≠ 0) :
    s.dp.Running th ∧ s.txq th = [] ∧
      s.dp.wakes th = [s.dp.threads.core th + 1] := by
  cases h.kthreads th with
  | runs _ _ _ hwakes | sent _ _ _ _ hwakes | sleeps _ _ _ hwakes =>
    exact absurd (by rw [hwakes]; rfl) hwake
  | woken _ hrunning hempty hwakes => exact ⟨hrunning, hempty, hwakes⟩

end

theorem parkNext_call {b : DpAct π} (hnext : parkNext s (.call b) = some t) :
    b.isCall = true ∧ ∃ dp, dpNext s.dp b = some dp ∧
      t = { s with dp := dp } := by
  simp only [parkNext] at hnext
  split_ifs at hnext with hcall
  obtain ⟨dp, hdp, rfl⟩ := Option.map_eq_some_iff.mp hnext
  exact ⟨hcall, dp, hdp, rfl⟩

theorem parkNext_recv {wb : BitVec 32} {mem : LrpcMem} {now : BitVec 64}
    (hnext : parkNext s (.recv th wb mem now) = some t) :
    ∃ msg rest dp, s.txq th = msg :: rest ∧
      s.dp.command th msg wb mem now = .ok dp ∧
      t = { s with dp := dp, txq := update s.txq th rest } := by
  simp only [parkNext] at hnext
  cases htxq : s.txq th with
  | nil =>
    rw [htxq] at hnext
    cases hnext
  | cons msg rest =>
    rw [htxq] at hnext
    obtain ⟨dp, hdp, rfl⟩ := Option.map_eq_some_iff.mp hnext
    exact ⟨msg, rest, dp, rfl, toOption_eq_some.mp hdp, rfl⟩

theorem parkNext_park {msg : TxMsg}
    (hnext : parkNext s (.park th msg) = some t) :
    s.pc th = .running ∧
      t = { s with pc := update s.pc th (.parking msg) } := by
  obtain ⟨hpc, rfl⟩ := guarded hnext
  exact ⟨hpc, rfl⟩

theorem parkNext_send (hnext : parkNext s (.send th) = some t) :
    ∃ msg, s.pc th = .parking msg ∧
      t = { s with
        pc := update s.pc th .yielding
        txq := update s.txq th (s.txq th ++ [msg]) } := by
  simp only [parkNext] at hnext
  cases hpc : s.pc th with
  | parking msg =>
    rw [hpc] at hnext
    cases hnext
    exact ⟨msg, rfl, rfl⟩
  | attaching | running | yielding =>
    rw [hpc] at hnext
    cases hnext

theorem parkNext_read (hnext : parkNext s (.read th) = some t) :
    (s.pc th).reads = true ∧ (s.dp.wakes th).sum ≠ 0 ∧
      t = { s with
        dp := { s.dp with wakes := update s.dp.wakes th [] }
        pc := update s.pc th .running
        currCpu := update s.currCpu th
          ((s.dp.wakes th).sum - 1) } := by
  obtain ⟨hread, rfl⟩ := guarded hnext
  exact ⟨hread.1, hread.2, rfl⟩

theorem parkNext_sigusr1 (hnext : parkNext s (.sigusr1 th) = some t) :
    t = { s with
      dp := { s.dp with
        signalled := update s.dp.signalled th false } } := by
  obtain ⟨-, rfl⟩ := guarded hnext
  rfl

theorem ParkInv.next (h : ParkInv s) (hnext : parkNext s a = some t) :
    ParkInv t := by
  cases a with
  | call b =>
    obtain ⟨hcall, dp, hdp, rfl⟩ := parkNext_call hnext
    exact h.call hcall hdp
  | recv th wb mem now =>
    obtain ⟨msg, rest, dp, htxq, hcommand, rfl⟩ := parkNext_recv hnext
    exact h.recv htxq hcommand
  | park th msg =>
    obtain ⟨hpc, rfl⟩ := parkNext_park hnext
    have hreads : (s.pc th).reads = false := by rw [hpc]; rfl
    obtain ⟨hrunning, hempty, hwakes, hcore⟩ := h.outside hreads
    apply h.own th
    · exact h.dp
    · rfl
    · refine KthreadOk.runs ?_ hrunning hempty hwakes hcore
      simp [KthreadPc.reads]
    · intro th' hne
      exact ⟨.refl _ th', update_of_ne hne .., rfl, rfl⟩
  | send th =>
    obtain ⟨msg, hpc, rfl⟩ := parkNext_send hnext
    have hreads : (s.pc th).reads = false := by rw [hpc]; rfl
    obtain ⟨hrunning, hempty, hwakes, _⟩ := h.outside hreads
    apply h.own th
    · exact h.dp
    · rfl
    · refine KthreadOk.sent msg ?_ hrunning ?_ hwakes
      · simp
      · simp [hempty]
    · intro th' hne
      exact ⟨.refl _ th', update_of_ne hne .., update_of_ne hne .., rfl⟩
  | read th =>
    obtain ⟨_, hwake, rfl⟩ := parkNext_read hnext
    obtain ⟨hrunning, hempty, hwakes⟩ := h.readable hwake
    apply h.own th
    · exact { h.dp with }
    · rfl
    · refine KthreadOk.runs ?_ hrunning hempty ?_ ?_
      · simp [KthreadPc.reads]
      · simp
      · simp [hwakes]
    · intro th' hne
      refine ⟨?_, update_of_ne hne .., rfl, update_of_ne hne ..⟩
      exact Advance.of_same Iff.rfl (.inl rfl)
        (update_of_ne hne ..) rfl
  | sigusr1 th =>
    obtain rfl := parkNext_sigusr1 hnext
    refine ⟨{ h.dp with }, h.marks, fun th' => ?_⟩
    refine (h.kthreads th').advance ?_ rfl rfl rfl
    exact Advance.of_same Iff.rfl (.inl rfl) rfl rfl

theorem parkSystem_inv (hs : (parkSystem π).Reach anyStep s) : ParkInv s := by
  apply hs.invariant
  · rintro s ⟨⟨cpuCount, usable, hcpus, hboot⟩, hpc, htxq⟩
    refine ⟨?_, fun p => ?_, fun th => ?_⟩
    · rw [hboot]
      exact boot_inv hcpus usable
    · rw [hboot]
      rfl
    · apply KthreadOk.sleeps
      · rw [hpc]
        rfl
      · rw [hboot]
        exact fun hrunning => Bool.noConfusion hrunning.1
      · exact htxq th
      · rw [hboot]
        rfl
  · exact fun s a t h _ hnext => h.next hnext

/-- The daemon marks a kthread parked only for the command it is waiting to
have handled. -/
theorem ParkInv.marked (h : ParkInv s) (hnext : parkNext s a = some t)
    (hth : s.dp.threads.parked th = false)
    (hth' : t.dp.threads.parked th = true) :
    s.pc th = .yielding ∧ s.txq th ≠ [] ∧ t.txq th = [] := by
  have hkept : t.dp.threads = s.dp.threads → False := by
    intro heq
    rw [heq] at hth'
    exact Bool.noConfusion (hth.symm.trans hth')
  cases a with
  | call b =>
    obtain ⟨hcall, dp, hdp, rfl⟩ := parkNext_call hnext
    have hadv := dpNext_advance h.dp h.quiet_asleep hcall hdp th
    exact Bool.noConfusion (hth'.symm.trans (hadv.unparked hth))
  | recv th₀ wb mem now =>
    obtain ⟨msg, rest, dp, htxq, hcommand, rfl⟩ := parkNext_recv hnext
    obtain ⟨hyields, hrunning, hrest, _⟩ := h.queued htxq
    have hok : ParkOk s.dp th₀ := fun n _ => h.marks n.p
    obtain ⟨_, hparks⟩ := command_parks h.dp hrunning hok hcommand
    rcases eq_or_ne th th₀ with rfl | hne
    · refine ⟨hyields, ?_, (update_self ..).trans hrest⟩
      rw [htxq]
      exact List.cons_ne_nil msg rest
    · have hunparked := (hparks.others th hne).unparked hth
      exact Bool.noConfusion (hth'.symm.trans hunparked)
  | park th₀ msg =>
    obtain ⟨_, rfl⟩ := parkNext_park hnext
    exact (hkept rfl).elim
  | send th₀ =>
    obtain ⟨_, _, rfl⟩ := parkNext_send hnext
    exact (hkept rfl).elim
  | read th₀ =>
    obtain ⟨_, _, rfl⟩ := parkNext_read hnext
    exact (hkept rfl).elim
  | sigusr1 th₀ =>
    obtain rfl := parkNext_sigusr1 hnext
    exact (hkept rfl).elim

/-- In every interleaving of kthreads and daemon without removals: an eventfd
holds at most one wake; a `read` returns the core the daemon has the kthread on;
a kthread is marked parked only after it has sent its command and stays so only
until it reads; and outside of `read` it is on the core the daemon knows. -/
theorem park_wake_consistent (hs : (parkSystem π).Reach anyStep s)
    (th : ThreadRef π) :
    (s.dp.wakes th).length ≤ 1 ∧
    (∀ t, parkNext s (.read th) = some t →
      (s.dp.wakes th).sum = s.dp.threads.core th + 1 ∧ s.dp.Running th ∧
        t.currCpu th = s.dp.threads.core th ∧ t.dp.wakes th = []) ∧
    (s.dp.threads.parked th = true →
      s.pc th = .attaching ∨ s.pc th = .yielding) ∧
    (∀ a t, parkNext s a = some t → s.dp.threads.parked th = false →
      t.dp.threads.parked th = true → s.pc th = .yielding ∧
        s.txq th ≠ [] ∧ t.txq th = []) ∧
    ((s.pc th).reads = false →
      s.currCpu th = s.dp.threads.core th ∧ s.dp.Running th) := by
  have h := parkSystem_inv hs
  refine ⟨?_, fun t hnext => ?_, fun hparked => ?_,
    fun a t hnext => h.marked hnext, fun hpc => ?_⟩
  · cases h.kthreads th with
    | runs _ _ _ hwakes | sent _ _ _ _ hwakes | sleeps _ _ _ hwakes
    | woken _ _ _ hwakes => simp [hwakes]
  · obtain ⟨_, hwake, rfl⟩ := parkNext_read hnext
    obtain ⟨hrunning, _, hwakes⟩ := h.readable hwake
    refine ⟨?_, hrunning, ?_, ?_⟩ <;> simp [hwakes]
  · have hreads : (s.pc th).reads = true := by
      by_contra hpc
      have hrunning := (h.outside (Bool.not_eq_true _ ▸ hpc)).1
      exact Bool.noConfusion (hparked.symm.trans hrunning.1)
    cases hpc : s.pc th with
    | attaching => exact .inl rfl
    | yielding => exact .inr rfl
    | running | parking =>
      rw [hpc] at hreads
      exact Bool.noConfusion hreads
  · obtain ⟨hrunning, _, _, hcore⟩ := h.outside hpc
    exact ⟨hcore, hrunning⟩

/-- On one core, proc 0 runs until proc 1 comes in and is given the core. -/
def handOver : List (ParkAct Nat) :=
  [.call (.create 0 (oneThread 0)), .call (.add 0), .read ⟨0, 0⟩,
    .call (.create 1 (oneThread 1)), .call (.add 1), .sigusr1 ⟨0, 0⟩,
    .park ⟨0, 0⟩ ⟨.parked, 1⟩, .send ⟨0, 0⟩,
    .recv ⟨0, 0⟩ 0 ⟨fun _ => ⟨0, 0⟩, 0⟩ 0]

def unstarted : ParkState Nat where
  dp := oneCore
  pc _ := .attaching
  txq _ := []
  currCpu _ := 0

theorem handOver_isSome :
    ((parkSystem Nat).exec unstarted handOver).isSome := by
  decide

def handedOver : ParkState Nat :=
  ((parkSystem Nat).exec unstarted handOver).get handOver_isSome

theorem handedOver_isSome : (parkNext handedOver (.read ⟨1, 0⟩)).isSome := by
  decide

theorem park_wake_consistent_handedOver :
    handedOver.dp.threads.parked ⟨0, 0⟩ = true ∧
      handedOver.pc ⟨0, 0⟩ = .yielding ∧
      (handedOver.dp.wakes ⟨1, 0⟩).sum =
        handedOver.dp.threads.core ⟨1, 0⟩ + 1 ∧
      handedOver.dp.Running ⟨1, 0⟩ := by
  have hs : (parkSystem Nat).Reach anyStep handedOver :=
    System.Reach.exec (.init ⟨oneCore_init, fun _ => rfl, fun _ => rfl⟩)
      handOver (Option.some_get handOver_isSome).symm
  have hparked : handedOver.dp.threads.parked ⟨0, 0⟩ = true := by decide
  have hread := (park_wake_consistent hs ⟨1, 0⟩).2.1 _
    (Option.some_get handedOver_isSome).symm
  have hpc := (park_wake_consistent hs ⟨0, 0⟩).2.2.1 hparked
  refine ⟨hparked, hpc.resolve_left ?_, hread.1, hread.2.1⟩
  decide

end Runs

end Libut.Hwalloc
