import Libut.Hwalloc.DataplaneFrame
import Libut.Hwalloc.ParkWake

/-!
What a call of the dataplane does to receive queues and to the pending timers
of procs. A queue the daemon has sent to stays non-empty until the runtime
receives from it, also when the message finds the queue full. A pending timer
is taken back only by a call that wakes a kthread of the proc, or asks for a
core for one.
-/

namespace Libut.Hwalloc

open Function Machine Base

section Queues

variable {out : LrpcChanOut} {head : BitVec 32}

/-- The positions of the sender of a receive queue, beside the receiver's own:
the tail the sender remembers is one the receiver has passed. -/
structure RxOk (out : LrpcChanOut) (head : BitVec 32) : Prop where
  window : out.sendHead - head ≤ out.sendHead - out.sendTail
  room : out.sendHead - out.sendTail ≤ out.size

theorem RxOk.poll (h : RxOk out head) :
    RxOk (lrpcPollSendTail out head) head := by
  obtain ⟨hwindow, hroom⟩ := h
  exact ⟨BitVec.le_refl _, BitVec.le_trans hwindow hroom⟩

theorem RxOk.recv (h : RxOk out head) (hne : out.sendHead ≠ head) :
    RxOk out (head + 1) := by
  obtain ⟨hwindow, hroom⟩ := h
  refine ⟨?_, hroom⟩
  bv_omega

theorem RxOk.send (h : RxOk out head) (hsize : out.size ≠ 0) {mem : LrpcMem}
    (hmem : mem.recvHeadWb = head) (cmd payload : BitVec 64) :
    RxOk (lrpcSend out mem cmd payload).1 head ∧
      (lrpcSend out mem cmd payload).1.sendHead ≠ head := by
  obtain ⟨hwindow, hroom⟩ := h
  unfold lrpcSend
  split_ifs with hlow
  · unfold lrpcSendSlow
    simp only [lrpcPollSendTail, hmem]
    split_ifs with hfull
    · refine ⟨⟨BitVec.le_refl _, ?_⟩, ?_⟩
      · bv_omega
      · bv_omega
    · refine ⟨⟨BitVec.le_refl _, ?_⟩, ?_⟩
      · bv_omega
      · bv_omega
  · refine ⟨⟨?_, ?_⟩, ?_⟩
    · bv_omega
    · bv_omega
    · bv_omega

theorem lrpcSend_size (out : LrpcChanOut) (mem : LrpcMem)
    (cmd payload : BitVec 64) :
    (lrpcSend out mem cmd payload).1.size = out.size := by
  unfold lrpcSend lrpcSendSlow lrpcPollSendTail
  split_ifs
  · simp only
    split_ifs <;> rfl
  · rfl

end Queues

variable {π : Type} [DecidableEq π] {s t u : Dataplane π} {th : ThreadRef π}
  {p : π} {head : ThreadRef π → BitVec 32}

section Alert

def Alert (s : Dataplane π) (p : π) : Prop :=
  ∃ th, th.p = p ∧
    (s.wakes th ≠ [] ∨ s.threads.parked th = false ∧ ¬ s.Running th)

section

omit [DecidableEq π]

theorem Slept.alert (h : Slept s t th) (hp : th.p = p)
    (hth : t.threads.parked th = false) : Alert t p := by
  refine ⟨th, hp, ?_⟩
  rcases h with ⟨hasleep, _⟩ | ⟨_, hwakes⟩
  · exact .inr ⟨hth, hasleep⟩
  · left
    rw [hwakes]
    simp

theorem Alert.advance (h : Alert s p) (hadv : ∀ th, th.p = p →
      s.wakes th ≠ [] ∨ s.threads.parked th = false ∧ ¬ s.Running th →
      Advance s t th) : Alert t p := by
  obtain ⟨th, hp, hth⟩ := h
  have hstep := hadv th hp hth
  by_cases hrunning : s.Running th
  · obtain ⟨_, _, hwakes⟩ := hstep.running hrunning
    refine ⟨th, hp, .inl ?_⟩
    rw [hwakes]
    exact hth.resolve_right fun hwaits => hwaits.2 hrunning
  · rcases hth with hwakes | hwaits
    · refine ⟨th, hp, .inl ?_⟩
      rcases hstep.asleep hrunning with ⟨_, hsame⟩ | ⟨_, hmore⟩
      · rwa [hsame]
      · rw [hmore]
        simp
    · exact (hstep.asleep hrunning).alert hp (hstep.unparked hwaits.1)

theorem Alert.parks (h : Alert s p) (hparks : Parks s th t) (hth : s.Running th)
    (hwakes : s.wakes th = []) : Alert t p := by
  apply h.advance
  rintro th' _ hth'
  apply hparks.others
  rintro rfl
  rcases hth' with hwoken | hwaits
  · exact hwoken hwakes
  · exact hwaits.2 hth

end

theorem CoreAdded.alert {th : ThreadRef π} (h : CoreAdded s p t (some th))
    (hinv : DpInv none s) :
    th.p = p ∧ t.threads.parked th = false ∧ Alert t p := by
  have hadded : th.p = p ∧ s.threads.parked th = true ∧
      t.threads.parked th = false := by
    cases h with
    | granted _ hp hth hgranted =>
      refine ⟨hp, hth, ?_⟩
      simp [hgranted.threads, ThreadTable.activate]
    | preempted _ _ _ _ _ hp hth hpreempted =>
      refine ⟨hp, hth, ?_⟩
      simp [hpreempted.threads, ThreadTable.activate]
  obtain ⟨hp, hparked, hunparked⟩ := hadded
  have hasleep : ¬ s.Running th := fun hrunning =>
    Bool.noConfusion (hparked.symm.trans hrunning.1)
  have hslept := (h.advance hinv th).asleep hasleep
  exact ⟨hp, hunparked, hslept.alert hp hunparked⟩

end Alert

section Frame

def Polled (head : ThreadRef π → BitVec 32) (s t : Dataplane π) : Prop :=
  ∀ th, t.rxq th = s.rxq th ∨
    t.rxq th = lrpcPollSendTail (s.rxq th) (head th)

omit [DecidableEq π] in
theorem Polled.refl (s : Dataplane π) : Polled head s s := fun _ => .inl rfl

omit [DecidableEq π] in
theorem Polled.trans (h : Polled head s t) (h' : Polled head t u) :
    Polled head s u := by
  intro th
  rcases h th with hs | hs
  · rcases h' th with ht | ht
    · exact .inl (ht.trans hs)
    · rw [ht, hs]
      exact .inr rfl
  · right
    rcases h' th with ht | ht
    · exact ht.trans hs
    · rw [ht, hs]
      rfl

structure RxKept (head : ThreadRef π → BitVec 32) (s t : Dataplane π) :
    Prop where
  ok : ∀ th, RxOk (s.rxq th) (head th) → RxOk (t.rxq th) (head th)
  size : ∀ th, (t.rxq th).size = (s.rxq th).size
  busy : ∀ th, (s.rxq th).sendHead ≠ head th → (t.rxq th).sendHead ≠ head th

section

omit [DecidableEq π]

theorem RxKept.of_same (h : t.rxq = s.rxq) : RxKept head s t := by
  refine ⟨fun th hth => ?_, fun th => ?_, fun th hth => ?_⟩
  · rwa [h]
  · rw [h]
  · rwa [h]

theorem RxKept.trans (h : RxKept head s t) (h' : RxKept head t u) :
    RxKept head s u :=
  ⟨fun th hth => h'.ok th (h.ok th hth),
    fun th => (h'.size th).trans (h.size th),
    fun th hth => h'.busy th (h.busy th hth)⟩

theorem Polled.rxKept (h : Polled head s t) : RxKept head s t := by
  refine ⟨fun th hth => ?_, fun th => ?_, fun th hth => ?_⟩
  · rcases h th with ht | ht
    · rwa [ht]
    · rw [ht]
      exact hth.poll
  · rcases h th with ht | ht
    · rw [ht]
    · rw [ht]
      rfl
  · rcases h th with ht | ht
    · rwa [ht]
    · rw [ht]
      exact hth

end

theorem rxqSend_rxKept {d : ThreadRef π} (hok : RxOk (s.rxq d) (head d))
    (hsize : (s.rxq d).size ≠ 0) {mem : LrpcMem}
    (hmem : mem.recvHeadWb = head d) (cmd payload : BitVec 64) :
    RxKept head s (s.rxqSend d cmd payload mem).1 ∧
      ((s.rxqSend d cmd payload mem).1.rxq d).sendHead ≠ head d := by
  have hsent := hok.send hsize hmem cmd payload
  have hself : (s.rxqSend d cmd payload mem).1.rxq d =
      (lrpcSend (s.rxq d) mem cmd payload).1 := update_self ..
  have hother : ∀ th, th ≠ d →
      (s.rxqSend d cmd payload mem).1.rxq th = s.rxq th :=
    fun th hne => update_of_ne hne ..
  rw [hself]
  refine ⟨⟨fun th hth => ?_, fun th => ?_, fun th hth => ?_⟩, hsent.2⟩
  · rcases eq_or_ne th d with rfl | hne
    · rw [hself]
      exact hsent.1
    · rwa [hother th hne]
  · rcases eq_or_ne th d with rfl | hne
    · rw [hself, lrpcSend_size]
    · rw [hother th hne]
  · rcases eq_or_ne th d with rfl | hne
    · rw [hself]
      exact hsent.2
    · rwa [hother th hne]

/-- What a call leaves of the queues and of the pending timers: a timer it
takes back is that of a proc it alerts. -/
structure TimerFrame (head : ThreadRef π → BitVec 32) (s t : Dataplane π) :
    Prop where
  polled : Polled head s t
  timers : ∀ p, Alert t p ∨ t.pendingTimer p = s.pendingTimer p ∧
    t.deadlineUs p = s.deadlineUs p

omit [DecidableEq π] in
theorem TimerFrame.refl (s : Dataplane π) : TimerFrame head s s :=
  ⟨.refl s, fun _ => .inr ⟨rfl, rfl⟩⟩

omit [DecidableEq π] in
theorem TimerFrame.trans (h : TimerFrame head s t) (h' : TimerFrame head t u)
    (hadv : ∀ th, Advance t u th) : TimerFrame head s u := by
  refine ⟨h.polled.trans h'.polled, fun p => ?_⟩
  rcases h'.timers p with halert | ⟨hpending', hdeadline'⟩
  · exact .inl halert
  · rcases h.timers p with halert | ⟨hpending, hdeadline⟩
    · exact .inl (halert.advance fun th _ _ => hadv th)
    · exact .inr ⟨hpending'.trans hpending, hdeadline'.trans hdeadline⟩

theorem coresAddCore_frame (h : DpInv none s) (hp : p ∈ s.procs.clients) :
    Meets Fault.Exhausted (s.coresAddCore p) fun r =>
      (DpInv none r.1 ∧ CoreAdded s p r.1 r.2) ∧ TimerFrame head s r.1 := by
  have hadds := (coresAddCore_meets h hp).weaken Dataplane.Starved.exhausted
  apply (hadds.and (coresAddCore_untouched s p)).imp
  rintro ⟨t, r⟩ ⟨⟨ht, hadded⟩, huntouched⟩
  refine ⟨⟨ht, hadded⟩, ?_⟩
  cases r with
  | none =>
    cases hadded with
    | full => exact .refl _
  | some th =>
    obtain ⟨_, _, halert⟩ := hadded.alert h
    have huntouched := huntouched.resolve_left (by simp)
    refine ⟨fun th' => .inl (congrFun huntouched.rxq th'), fun q => ?_⟩
    rcases eq_or_ne q p with rfl | hne
    · exact .inl halert
    · right
      rw [huntouched.pendingTimer, huntouched.deadlineUs]
      exact ⟨update_of_ne hne .., rfl⟩

theorem frame_addInv (s : Dataplane π) {J : Dataplane π → Prop}
    (hJ : ∀ {t u}, J t → (∀ th, Advance t u th) → J u) :
    AddInv Fault.Exhausted (· ∈ s.procs.clients)
      fun t => (Kept s t ∧ J t) ∧ TimerFrame head s t := by
  constructor
  · exact .inr rfl
  · rintro t p ⟨ht, hframe⟩ hp
    refine ⟨(advance_callInv s hJ).overload ht hp, ?_⟩
    exact ⟨hframe.polled, hframe.timers⟩
  · rintro t p ⟨⟨⟨ht, hprocs⟩, hj⟩, hframe⟩ hp _
    apply (coresAddCore_frame ht (client_of_procs hprocs hp)).imp
    rintro r ⟨⟨hr, hadded⟩, hframe'⟩
    have hadv := hadded.advance ht
    exact ⟨⟨⟨hr, hadded.procs.trans hprocs⟩, hJ hj hadv⟩,
      hframe.trans hframe' hadv⟩

theorem checkThread_frame (obs : Observed π) (acc : Dataplane π × Bool)
    (th : ThreadRef π) :
    Polled obs.rxqWb acc.1 (Dataplane.checkThread obs acc th).1 ∧
      (Dataplane.checkThread obs acc th).1.pendingTimer =
        acc.1.pendingTimer ∧
      (Dataplane.checkThread obs acc th).1.deadlineUs =
        acc.1.deadlineUs := by
  obtain ⟨s, congested⟩ := acc
  have hpolled : ∀ th', update s.rxq th
      (lrpcPollSendTail (s.rxq th) (obs.rxqWb th)) th' = s.rxq th' ∨
      update s.rxq th
        (lrpcPollSendTail (s.rxq th) (obs.rxqWb th)) th' =
        lrpcPollSendTail (s.rxq th') (obs.rxqWb th') := by
    intro th'
    rcases eq_or_ne th' th with rfl | hne
    · exact .inr (update_self ..)
    · exact .inl (update_of_ne hne ..)
  unfold Dataplane.checkThread
  simp only
  split_ifs <;> exact ⟨hpolled, rfl, rfl⟩

theorem coresIsProcCongested_frame (s : Dataplane π) (p : π)
    (obs : Observed π) :
    TimerFrame obs.rxqWb s (s.coresIsProcCongested p obs).1 := by
  have hlook := coresIsProcCongested_rel obs
    (R := fun s t => Polled obs.rxqWb s t ∧
      t.pendingTimer = s.pendingTimer ∧ t.deadlineUs = s.deadlineUs)
    (fun s => ⟨.refl s, rfl, rfl⟩)
    (fun h h' => ⟨h.1.trans h'.1, h'.2.1.trans h.2.1, h'.2.2.trans h.2.2⟩)
    (checkThread_frame obs) s p
  obtain ⟨hpolled, hpending, hdeadline⟩ := hlook
  refine ⟨hpolled, fun q => .inr ⟨?_, ?_⟩⟩
  · rw [hpending]
  · rw [hdeadline]

theorem frame_adjustInv (s : Dataplane π) (obs : Observed π) :
    AdjustInv Fault.Exhausted (· ∈ s.procs.clients) obs
      fun t => (Kept s t ∧ ∀ th, Advance s t th) ∧
        TimerFrame obs.rxqWb s t := by
  refine ⟨frame_addInv s fun ht hu th => (ht th).trans (hu th), ?_, ?_, ?_⟩
  · rintro t p ⟨ht, hframe⟩
    refine ⟨(advances_callInv s).adjustLook ht obs p, ?_⟩
    have hlists : TimerFrame obs.rxqWb s
        { t with lists := adjustLists t p } := ⟨hframe.polled, hframe.timers⟩
    apply hlists.trans (coresIsProcCongested_frame _ p obs)
    exact (coresIsProcCongested_same _ p obs).advance
  · exact fun ht => (advances_callInv s).clients ht.1
  · exact fun ht => (advances_callInv s).listed ht.1

theorem coresAdjustAssignments_frame (h : DpInv none s) (obs : Observed π) :
    Meets Fault.Exhausted (s.coresAdjustAssignments obs)
      (TimerFrame obs.rxqWb s) := by
  apply ((frame_adjustInv s obs).coresAdjustAssignments
    ⟨⟨⟨h, rfl⟩, Advance.refl s⟩, .refl s⟩).imp
  exact fun t ht => ht.2

theorem dpClientsAddClient_frame (h : DpInv none s)
    (hpending : p ∈ s.procs.pending) :
    Meets Fault.Exhausted (s.dpClientsAddClient p) (TimerFrame head s) := by
  apply dpClientsAddClient_adds h hpending
  intro h₁
  have hclient : p ∈ ((s.pushClient p).resetProc p).procs.clients :=
    List.mem_append_right _ (by simp)
  apply (coresAddCore_frame h₁ hclient).imp
  exact fun r hr => ⟨hr.2.polled, hr.2.timers⟩

end Frame

section Park

/-- `p->next_thread_rr++`. -/
def Dataplane.countJoin (s : Dataplane π) (p : π) : Dataplane π :=
  { s with
    nextThreadRr :=
      update s.nextThreadRr p (s.nextThreadRr p + 1) }

/-- The thread `commands_drain_queue` sends `RXCMD_JOIN` to. -/
def Dataplane.joinTarget (s : Dataplane π) (th : ThreadRef π) (msg : TxMsg)
    (recvHeadWb : BitVec 32) : Option (ThreadRef π) :=
  match msg.cmd with
  | .parkedLast => none
  | .parked =>
    match s.coresParkKthread th false recvHeadWb with
    | .error _ => none
    | .ok (t, stays) =>
      if stays = true ∧ msg.payload ≠ 0 then
        match (t.countJoin th.p).rxTarget th.p (t.nextThreadRr th.p) with
        | .error _ => none
        | .ok r => r.2
      else none

theorem coresParkKthread_frame (s : Dataplane π) (th : ThreadRef π) :
    Meets anyFailure (s.coresParkKthread th false (head th)) fun r =>
      TimerFrame head s r.1 := by
  have hpolled : Polled head s
      { s with
        rxq := update s.rxq th
          (lrpcPollSendTail (s.rxq th) (head th)) } := by
    intro th'
    rcases eq_or_ne th' th with rfl | hne
    · exact .inr (update_self ..)
    · exact .inl (update_of_ne hne ..)
  unfold Dataplane.coresParkKthread
  simp only
  split_ifs
  · trivial
  · trivial
  · exact ⟨hpolled, fun _ => .inr ⟨rfl, rfl⟩⟩
  · apply Meets.map
    apply (releaseCore_untouched _ th _).imp
    intro t ht
    refine ⟨hpolled.trans fun th' => .inl (congrFun ht.rxq th'), fun p => ?_⟩
    rw [ht.pendingTimer, ht.deadlineUs]
    exact .inr ⟨rfl, rfl⟩
  · apply Meets.map
    apply (releaseCore_untouched s th _).imp
    intro t ht
    refine ⟨fun th' => .inl (congrFun ht.rxq th'), fun p => ?_⟩
    rw [ht.pendingTimer, ht.deadlineUs]
    exact .inr ⟨rfl, rfl⟩

theorem rxTarget_own (h : DpInv none s) (hp : p ∈ s.procs.clients)
    (hcount : 0 < s.procs.threadCount p) (hash : BitVec 32) :
    Meets Fault.Exhausted (s.rxTarget p hash) fun r =>
      ∃ d, r.2 = some d ∧ d.p = p ∧ d.idx < s.procs.threadCount p := by
  have hlive : ∀ {t : Dataplane π} {d : ThreadRef π}, DpInv none t →
      t.procs = s.procs → d.p = p → t.threads.parked d = false →
      d.idx < s.procs.threadCount p := by
    rintro t d ht hprocs rfl hd
    rw [← hprocs]
    exact (ht.threads.live d hd).2
  unfold Dataplane.rxTarget
  simp only
  split
  · rename_i d hd
    obtain ⟨hdp, hparked⟩ :=
      (h.threads.mem_active p d).mp (List.mem_of_getElem? hd)
    exact ⟨d, rfl, hdp, hlive h rfl hdp hparked⟩
  · rename_i hnone
    have hactive := no_active_of_slot hnone
    split_ifs
    · apply ((coresAddCore_meets h hp).weaken Dataplane.Starved.exhausted).imp
      rintro ⟨t, r⟩ ⟨ht, hadded⟩
      cases r with
      | none =>
        cases hadded with
        | full hfull =>
          rw [hactive] at hfull
          exact absurd hfull.symm hcount.ne'
      | some d =>
        obtain ⟨hdp, hparked, _⟩ := hadded.alert h
        exact ⟨d, rfl, hdp, hlive ht hadded.procs hdp hparked⟩
    · split
      · exact .inr rfl
      · rename_i d hd
        have hpending : p ∉ s.procs.pending := h.procs.clients_started p hp
        obtain ⟨hdp, hidx, _⟩ := (h.threads.mem_idle p hpending d).mp
          (List.mem_of_mem_head? hd)
        exact ⟨d, rfl, hdp, hidx⟩

/-- What taking a command ends with, in the state `u` in which its kthread is
parked and a receive queue is chosen. -/
inductive CommandEnds (head : ThreadRef π → BitVec 32) (th : ThreadRef π)
    (msg : TxMsg) (now : BitVec 64) (u : Dataplane π) : Dataplane π → Prop
  /-- Nothing is left to do: no join was asked for, or the kthread was woken
  again; and for the last kthread, others of the proc are active. -/
  | done : (msg.cmd = .parked → msg.payload ≠ 0 → Alert u th.p) →
      (msg.cmd = .parkedLast → msg.payload ≠ 0 →
        Alert u th.p ∨ u.threads.activeThreads th.p ≠ []) →
      CommandEnds head th msg now u u
  | joined {d : ThreadRef π} {mem : LrpcMem} : d.p = th.p →
      d.idx < u.procs.threadCount th.p → mem.recvHeadWb = head d →
      CommandEnds head th msg now u
        (u.rxqSend d Dataplane.rxcmdJoin msg.payload mem).1
  | armed : msg.cmd = .parkedLast → u.threads.activeThreads th.p = [] →
      CommandEnds head th msg now u
        { u with
          pendingTimer := update u.pendingTimer th.p true
          deadlineUs :=
            update u.deadlineUs th.p (now + msg.payload) }

theorem coresParkKthread_parks (h : DpInv none s) (hth : s.Running th)
    (hok : ParkOk s th) :
    Meets Fault.Exhausted (s.coresParkKthread th false (head th)) fun r =>
      ((Kept s r.1 ∧ Parks s th r.1) ∧ TimerFrame head s r.1) ∧
        (r.2 = false → Alert r.1 th.p) := by
  have hkeeps : Meets anyFailure (s.coresParkKthread th false (head th))
      fun r => TimerFrame head s r.1 := coresParkKthread_frame s th
  have hpark := (coresParkKthread_meets h hth hok false (head th)).and hkeeps
  apply (hpark.weaken fun _ => .inr).imp
  rintro ⟨t, stays⟩ ⟨⟨ht, hparked⟩, hframe⟩
  have hprocs := (parked_released hparked).procs
  rcases hparked with ⟨_, _, hraced⟩ | ⟨hstays, hreleased⟩
  · refine ⟨⟨⟨⟨ht, hprocs⟩, hraced.parks hth⟩, hframe⟩, fun _ => ?_⟩
    refine ⟨th, rfl, .inl ?_⟩
    rw [hraced.wakes, update_self]
    simp
  · refine ⟨⟨⟨⟨ht, hprocs⟩, hreleased.parks hth h⟩, hframe⟩, fun hraced => ?_⟩
    exact Bool.noConfusion (hraced.symm.trans hstays)

theorem cmdParked_ends (h : DpInv none s) (hth : s.Running th)
    (hok : ParkOk s th) {payload : BitVec 64} {mem : LrpcMem} (now : BitVec 64)
    (hmem : ∀ d, s.joinTarget th ⟨.parked, payload⟩ (head th) = some d →
      mem.recvHeadWb = head d) :
    Meets Fault.Exhausted (s.cmdParked th payload (head th) mem) fun t =>
      ∃ u, (Kept s u ∧ Parks s th u) ∧ TimerFrame head s u ∧
        CommandEnds head th ⟨.parked, payload⟩ now u t := by
  have hclient := h.running_client hth
  unfold Dataplane.cmdParked
  apply (coresParkKthread_parks h hth hok).bind_ok
  rintro ⟨u, stays⟩ hparks ⟨⟨hu, hframe⟩, hraced⟩
  simp only
  split_ifs with hjoins
  · have hadv : ∀ th', Advance u (u.countJoin th.p) th' := fun _ =>
      Advance.of_same Iff.rfl (.inl rfl) rfl rfl
    have hu' : (Kept s (u.countJoin th.p) ∧ Parks s th (u.countJoin th.p)) ∧
        TimerFrame head s (u.countJoin th.p) :=
      ⟨⟨⟨{ hu.1.1 with }, hu.1.2⟩, hu.2.advance hadv⟩,
        hframe.polled, hframe.timers⟩
    have hcount : 0 < u.procs.threadCount th.p := by
      rw [hu.1.2]
      exact (Nat.zero_le _).trans_lt (h.threads.live th hth.1).2
    have htarget := (frame_addInv s
      fun {t u} (ht : Parks s th t) hu => ht.advance hu).rxTarget hu' hclient
      (u.nextThreadRr th.p)
    have hown := rxTarget_own hu'.1.1.1
      (client_of_procs hu'.1.1.2 hclient) hcount (u.nextThreadRr th.p)
    apply Meets.map
    rw [rxSendToRuntime_eq]
    apply Meets.map
    change Meets _ ((u.countJoin th.p).rxTarget th.p (u.nextThreadRr th.p)) _
    cases hr : (u.countJoin th.p).rxTarget th.p (u.nextThreadRr th.p) with
    | error f => exact hown.of_error hr
    | ok r =>
      obtain ⟨v, dst⟩ := r
      obtain ⟨hv, hframe'⟩ := htarget.of_ok hr
      obtain ⟨d, rfl, hd, hidx⟩ := hown.of_ok hr
      refine ⟨v, hv, hframe', .joined hd ?_ (hmem d ?_)⟩
      · rw [hv.1.2, ← hu'.1.1.2]
        exact hidx
      · simp only [Dataplane.joinTarget, hparks, if_pos hjoins, hr]
  · refine ⟨u, hu, hframe, .done (fun _ hpayload => ?_) (by simp)⟩
    apply hraced
    by_contra hstays
    exact hjoins ⟨by simpa using hstays, hpayload⟩

theorem cmdParkedLast_ends (h : DpInv none s) (hth : s.Running th)
    (hok : ParkOk s th) (payload now : BitVec 64) :
    Meets Fault.Exhausted (s.cmdParkedLast th payload (head th) now) fun t =>
      ∃ u, (Kept s u ∧ Parks s th u) ∧ TimerFrame head s u ∧
        CommandEnds head th ⟨.parkedLast, payload⟩ now u t := by
  unfold Dataplane.cmdParkedLast
  apply (coresParkKthread_parks h hth hok).bind
  rintro ⟨u, stays⟩ ⟨⟨hu, hframe⟩, hraced⟩
  simp only
  split_ifs with hlast
  · exact ⟨u, hu, hframe, .armed rfl (List.length_eq_zero_iff.mp hlast.2.1)⟩
  · refine ⟨u, hu, hframe, .done (by simp) fun _ hpayload => ?_⟩
    by_cases hstays : stays = true
    · right
      intro hactive
      exact hlast ⟨hstays, by rw [hactive]; rfl, hpayload⟩
    · exact .inl (hraced (by simpa using hstays))

theorem command_ends (h : DpInv none s) (hth : s.Running th) (hok : ParkOk s th)
    {msg : TxMsg} {mem : LrpcMem} {now : BitVec 64}
    (hmem : ∀ d, s.joinTarget th msg (head th) = some d →
      mem.recvHeadWb = head d)
    (hcommand : s.command th msg (head th) mem now = .ok t) :
    ∃ u, (Kept s u ∧ Parks s th u) ∧ TimerFrame head s u ∧
      CommandEnds head th msg now u t := by
  obtain ⟨cmd, payload⟩ := msg
  unfold Dataplane.command at hcommand
  cases cmd with
  | parked => exact (cmdParked_ends h hth hok now hmem).of_ok hcommand
  | parkedLast =>
    exact (cmdParkedLast_ends h hth hok payload now).of_ok hcommand

end Park

section Steps

structure DaemonStep (p : π) (head : ThreadRef π → BitVec 32)
    (s t : Dataplane π) : Prop where
  advance : ∀ th, th.p = p → Advance s t th
  busy : ∀ th, th.p = p → (s.rxq th).sendHead ≠ head th →
    (t.rxq th).sendHead ≠ head th
  timers : Alert t p ∨ t.pendingTimer p = s.pendingTimer p ∧
    t.deadlineUs p = s.deadlineUs p
  count : t.procs.threadCount p = s.procs.threadCount p

omit [DecidableEq π] in
theorem DaemonStep.refl (s : Dataplane π) : DaemonStep p head s s :=
  ⟨fun th _ => .refl s th, fun _ _ h => h, .inr ⟨rfl, rfl⟩, rfl⟩

omit [DecidableEq π] in
theorem TimerFrame.daemonStep (h : TimerFrame head s t)
    (hadv : ∀ th, Advance s t th)
    (hcount : t.procs.threadCount p = s.procs.threadCount p) :
    DaemonStep p head s t :=
  ⟨fun th _ => hadv th, fun th _ => h.polled.rxKept.busy th, h.timers p, hcount⟩

theorem add_frame {q : π} (h : DpInv none s)
    (hnext : dpNext s (.add q) = some t) : TimerFrame head s t := by
  have hstep := dpNext_iff.mp hnext
  simp only [dpStep] at hstep
  split_ifs at hstep with hpending
  exact (dpClientsAddClient_frame h hpending).of_ok (Option.some.inj hstep)

theorem adjust_frame {obs : Observed π} (h : DpInv none s)
    (hnext : dpNext s (.adjust obs) = some t) : TimerFrame obs.rxqWb s t :=
  (coresAdjustAssignments_frame h obs).of_ok
    (Option.some.inj (dpNext_iff.mp hnext))

section Command

variable {msg : TxMsg} {now : BitVec 64}

section

variable (h : CommandEnds head th msg now u t)
include h

theorem CommandEnds.advance (th' : ThreadRef π) : Advance u t th' := by
  cases h with
  | done => exact .refl _ th'
  | joined | armed => exact Advance.of_same Iff.rfl (.inl rfl) rfl rfl

theorem CommandEnds.procs : t.procs = u.procs := by
  cases h <;> rfl

theorem CommandEnds.rxKept (hok : ∀ d, RxOk (u.rxq d) (head d))
    (hsize : ∀ d, d.p = th.p → d.idx < u.procs.threadCount th.p →
      (u.rxq d).size ≠ 0) : RxKept head u t := by
  cases h with
  | done | armed => exact ⟨fun _ h => h, fun _ => rfl, fun _ h => h⟩
  | @joined d mem hd hidx hmem =>
    exact (rxqSend_rxKept (hok d) (hsize d hd hidx) hmem _ _).1

theorem CommandEnds.timers (hne : p ≠ th.p) :
    t.pendingTimer p = u.pendingTimer p ∧
      t.deadlineUs p = u.deadlineUs p := by
  cases h with
  | done | joined => exact ⟨rfl, rfl⟩
  | armed =>
    exact ⟨update_of_ne hne .., update_of_ne hne ..⟩

end

def Awake (head : ThreadRef π → BitVec 32) (s : Dataplane π) (p : π) : Prop :=
  Alert s p ∨ ∃ d : ThreadRef π, d.p = p ∧ d.idx < s.procs.threadCount p ∧
    (s.rxq d).sendHead ≠ head d

/-- What has become of the dataplane when a command is handled: its kthread
was parked in `u`, which ended in `t`. -/
structure Handled (head : ThreadRef π → BitVec 32) (s : Dataplane π)
    (th : ThreadRef π) (msg : TxMsg) (now : BitVec 64) (u t : Dataplane π) :
    Prop where
  kept : Kept s u
  parks : Parks s th u
  frame : TimerFrame head s u
  advance : ∀ th', Advance u t th'
  procs : t.procs = u.procs
  rx : RxKept head s t
  others : ∀ p, p ≠ th.p → t.pendingTimer p = u.pendingTimer p ∧
    t.deadlineUs p = u.deadlineUs p
  joins : msg.cmd = .parked → msg.payload ≠ 0 → Awake head t th.p
  last : msg.cmd = .parkedLast → msg.payload ≠ 0 →
    Awake head t th.p ∨ u.threads.activeThreads th.p ≠ [] ∨
      u.threads.activeThreads th.p = [] ∧ t.pendingTimer th.p = true ∧
        t.deadlineUs th.p = now + msg.payload

theorem CommandEnds.joins (h : CommandEnds head th msg now u t)
    (hok : ∀ d, RxOk (u.rxq d) (head d))
    (hsize : ∀ d, d.p = th.p → d.idx < u.procs.threadCount th.p →
      (u.rxq d).size ≠ 0) (hcmd : msg.cmd = .parked)
    (hpayload : msg.payload ≠ 0) : Awake head t th.p := by
  cases h with
  | done hjoin => exact .inl (hjoin hcmd hpayload)
  | @joined d mem hd hidx hmem =>
    have hsent := (rxqSend_rxKept (hok d) (hsize d hd hidx) hmem
      Dataplane.rxcmdJoin msg.payload).2
    exact .inr ⟨d, hd, hidx, hsent⟩
  | armed hlast =>
    rw [hcmd] at hlast
    cases hlast

theorem CommandEnds.last (h : CommandEnds head th msg now u t)
    (hok : ∀ d, RxOk (u.rxq d) (head d))
    (hsize : ∀ d, d.p = th.p → d.idx < u.procs.threadCount th.p →
      (u.rxq d).size ≠ 0) (hcmd : msg.cmd = .parkedLast)
    (hpayload : msg.payload ≠ 0) :
    Awake head t th.p ∨ u.threads.activeThreads th.p ≠ [] ∨
      u.threads.activeThreads th.p = [] ∧ t.pendingTimer th.p = true ∧
        t.deadlineUs th.p = now + msg.payload := by
  cases h with
  | done _ hlast =>
    exact (hlast hcmd hpayload).imp .inl fun hactive => .inl hactive
  | @joined d mem hd hidx hmem =>
    have hsent := (rxqSend_rxKept (hok d) (hsize d hd hidx) hmem
      Dataplane.rxcmdJoin msg.payload).2
    exact .inl (.inr ⟨d, hd, hidx, hsent⟩)
  | armed _ hidle =>
    exact .inr (.inr ⟨hidle, update_self .., update_self ..⟩)

theorem command_handled (h : DpInv none s) (hth : s.Running th)
    (hok : ParkOk s th) {mem : LrpcMem}
    (hmem : ∀ d, s.joinTarget th msg (head th) = some d →
      mem.recvHeadWb = head d) (hrx : ∀ d, RxOk (s.rxq d) (head d))
    (hsize : ∀ d, d.p = th.p → d.idx < s.procs.threadCount th.p →
      (s.rxq d).size ≠ 0)
    (hcommand : s.command th msg (head th) mem now = .ok t) :
    ∃ u, Handled head s th msg now u t := by
  obtain ⟨u, ⟨hkept, hparks⟩, hframe, hends⟩ :=
    command_ends h hth hok hmem hcommand
  have hpolled := hframe.polled.rxKept
  have hrx' : ∀ d, RxOk (u.rxq d) (head d) := fun d => hpolled.ok d (hrx d)
  have hsize' : ∀ d, d.p = th.p → d.idx < u.procs.threadCount th.p →
      (u.rxq d).size ≠ 0 := by
    intro d hd hidx
    rw [hkept.2] at hidx
    rw [hpolled.size d]
    exact hsize d hd hidx
  exact ⟨u, hkept, hparks, hframe, hends.advance, hends.procs,
    hpolled.trans (hends.rxKept hrx' hsize'), fun p hne => hends.timers hne,
    hends.joins hrx' hsize', hends.last hrx' hsize'⟩

/-- All kthreads of the proc but one were parked, and that one is too now:
if one is active it has just been woken. -/
theorem Handled.woken (h : Handled head s th msg now u t) (hs : DpInv none s)
    (honly : s.threads.activeThreads th.p = [th])
    (hactive : u.threads.activeThreads th.p ≠ []) : Alert t th.p := by
  obtain ⟨th', hmem⟩ := List.exists_mem_of_ne_nil _ hactive
  obtain ⟨hp', hunparked⟩ := (h.kept.1.threads.mem_active th.p th').mp hmem
  have hslept : Slept s u th' := by
    rcases eq_or_ne th' th with rfl | hne
    · exact h.parks.slept
    · apply (h.parks.others th' hne).asleep
      rintro ⟨hunparked', _⟩
      have hmem' := (hs.threads.mem_active th.p th').mpr ⟨hp', hunparked'⟩
      rw [honly] at hmem'
      exact hne (List.mem_singleton.mp hmem')
  exact (hslept.alert hp' hunparked).advance fun d _ _ => h.advance d

theorem Handled.all_parked (h : Handled head s th msg now u t) (hp : th.p = p)
    (hnone : u.threads.activeThreads th.p = []) (halert : ¬ Alert t p)
    (th' : ThreadRef π) (hp' : th'.p = p) : t.threads.parked th' = true := by
  by_contra hunparked
  rw [Bool.not_eq_true] at hunparked
  apply halert
  apply ((h.advance th').asleep ?_).alert hp' hunparked
  rintro ⟨hunparked', _⟩
  have hmem := (h.kept.1.threads.mem_active th.p th').mpr
    ⟨hp'.trans hp.symm, hunparked'⟩
  rw [hnone] at hmem
  exact List.not_mem_nil hmem

theorem Handled.daemonStep (h : Handled head s th msg now u t)
    (hne : p ≠ th.p) : DaemonStep p head s t := by
  refine ⟨fun th' hp' => ?_, fun th' _ => h.rx.busy th', ?_, ?_⟩
  · apply (h.parks.others th' ?_).trans (h.advance th')
    rintro rfl
    exact hne hp'.symm
  · obtain ⟨hpending, hdeadline⟩ := h.others p hne
    rw [hpending, hdeadline]
    apply (h.frame.timers p).imp_left
    exact fun halert => halert.advance fun th' _ _ => h.advance th'
  · rw [h.procs, h.kept.2]

end Command

theorem create_daemonStep {q : π} {cfg : ProcConfig} (h : DpInv none s)
    (hfresh : q ∉ s.procs.created)
    (hwakes : ∀ th, ¬ s.Running th → s.wakes th = []) (hne : p ≠ q) :
    DaemonStep p head s (s.controlCreateProc q cfg) := by
  refine ⟨fun th _ => create_advance h hfresh hwakes cfg th,
    fun th hp hbusy => ?_, .inr ⟨?_, rfl⟩, ?_⟩
  · have hsame : (s.controlCreateProc q cfg).rxq th = s.rxq th :=
      onThreads_other (f := s.rxq) (by rwa [hp])
    rwa [hsame]
  · exact update_of_ne hne ..
  · exact update_of_ne hne ..

end Steps

end Libut.Hwalloc
