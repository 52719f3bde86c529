import Libut.Hwalloc.DataplaneCalls

/-!
The allocator moves threads between cores; it does not write the table of
procs, and it leaves receive queues and pending timers alone. Only the two
client functions change `dp.clients`, and each by the obvious list operation.
Nothing is assumed of the state, so this also holds of runs in which the
records of the allocator no longer agree.
-/

namespace Libut.Hwalloc

open Machine Base

variable {π : Type} [DecidableEq π] (s : Dataplane π) (th : ThreadRef π)
  (p : π) (core : Nat)

def KeepsProcs (s : Dataplane π) (r : Except Fault (Dataplane π)) : Prop :=
  Meets anyFailure r fun t => t.procs = s.procs

omit [DecidableEq π] in
theorem keepsProcs_foldlM {β : Type}
    {f : Dataplane π → β → Except Fault (Dataplane π)}
    (hf : ∀ t b, KeepsProcs t (f t b)) (l : List β) :
    KeepsProcs s (l.foldlM f s) := by
  refine Meets.foldlM (show s.procs = s.procs from rfl) ?_
  intro t b _ ht
  apply (hf t b).imp
  exact fun u hu => hu.trans ht

section Cores

structure Untouched (s t : Dataplane π) : Prop where
  procs : t.procs = s.procs
  rxq : t.rxq = s.rxq
  pendingTimer : t.pendingTimer = s.pendingTimer
  deadlineUs : t.deadlineUs = s.deadlineUs

omit [DecidableEq π] in
theorem Untouched.refl : Untouched s s := ⟨rfl, rfl, rfl, rfl⟩

omit [DecidableEq π] in
theorem Untouched.trans {s t u : Dataplane π} (h : Untouched s t)
    (h' : Untouched t u) : Untouched s u :=
  ⟨h'.procs.trans h.procs, h'.rxq.trans h.rxq,
    h'.pendingTimer.trans h.pendingTimer, h'.deadlineUs.trans h.deadlineUs⟩

theorem pollThread_untouched :
    Meets anyFailure (s.pollThread th) (Untouched s) := by
  unfold Dataplane.pollThread
  split_ifs
  · exact .refl s
  · exact ⟨rfl, rfl, rfl, rfl⟩
  · trivial

theorem unpollThread_untouched : Untouched s (s.unpollThread th) := by
  unfold Dataplane.unpollThread
  cases s.poll.tsIdx th with
  | none => exact .refl s
  | some i => exact ⟨rfl, rfl, rfl, rfl⟩

theorem threadReserve_untouched :
    Meets anyFailure (s.threadReserve th core) (Untouched s) := by
  apply (pollThread_untouched _ th).imp
  exact fun t ht => ⟨ht.procs, ht.rxq, ht.pendingTimer, ht.deadlineUs⟩

theorem threadCede_untouched :
    Meets anyFailure (s.threadCede th) (Untouched s) := by
  unfold Dataplane.threadCede
  cases s.threads.atIdx th with
  | none => trivial
  | some i =>
    apply Untouched.trans ?_ (unpollThread_untouched _ th)
    exact ⟨rfl, rfl, rfl, rfl⟩

theorem coreReserve_untouched :
    Meets anyFailure (s.coreReserve core th) (Untouched s) := by
  unfold Dataplane.coreReserve
  split_ifs
  · trivial
  · exact ⟨rfl, rfl, rfl, rfl⟩

theorem wakeKthreadOnCore_untouched :
    Meets anyFailure (s.wakeKthreadOnCore th core) (Untouched s) := by
  unfold Dataplane.wakeKthreadOnCore
  split_ifs
  · trivial
  · apply (coreReserve_untouched s th core).bind
    intro t ht
    split_ifs
    · apply (threadReserve_untouched t th core).bind
      intro u hu
      exact (ht.trans hu).trans ⟨rfl, rfl, rfl, rfl⟩
    · exact ht.trans ⟨rfl, rfl, rfl, rfl⟩

theorem pickThreadForCore_untouched :
    Meets anyFailure (s.pickThreadForCore core) fun r =>
      Untouched s r.1 := by
  unfold Dataplane.pickThreadForCore
  split
  · split
    · trivial
    · exact ⟨rfl, rfl, rfl, rfl⟩
  · split
    · exact .refl s
    · exact ⟨rfl, rfl, rfl, rfl⟩

theorem regrantCore_untouched :
    Meets anyFailure (s.regrantCore core) (Untouched s) := by
  unfold Dataplane.regrantCore
  apply (pickThreadForCore_untouched s core).bind
  rintro ⟨t, picked⟩ ht
  cases picked with
  | none => exact ht
  | some th =>
    apply (wakeKthreadOnCore_untouched t th core).imp
    exact fun u hu => ht.trans hu

theorem releaseCore_untouched :
    Meets anyFailure (s.releaseCore th core) (Untouched s) := by
  unfold Dataplane.releaseCore
  apply (threadCede_untouched _ th).bind
  intro t ht
  apply (regrantCore_untouched t core).imp
  intro u hu
  have hs : Untouched s { s with cores := s.cores.cede core } :=
    ⟨rfl, rfl, rfl, rfl⟩
  exact (hs.trans ht).trans hu

theorem coresParkKthread_keeps (force : Bool) (wb : BitVec 32) :
    Meets anyFailure (s.coresParkKthread th force wb) fun r =>
      r.1.procs = s.procs := by
  unfold Dataplane.coresParkKthread
  simp only
  split_ifs
  · trivial
  · trivial
  · rfl
  · apply Meets.map
    exact (releaseCore_untouched _ th _).imp fun t ht => ht.procs
  · apply Meets.map
    exact (releaseCore_untouched s th _).imp fun t ht => ht.procs

theorem preemptCore_untouched :
    Meets anyFailure (s.preemptCore th core) (Untouched s) := by
  unfold Dataplane.preemptCore
  apply (threadReserve_untouched s th core).bind
  intro t ht
  split
  · trivial
  · split_ifs
    · trivial
    · exact ht.trans ⟨rfl, rfl, rfl, rfl⟩

theorem coresAddCore_untouched :
    Meets anyFailure (s.coresAddCore p) fun r =>
      r.2 = none ∧ r.1 = s ∨ Untouched
        { s with pendingTimer := Function.update s.pendingTimer p false }
        r.1 := by
  unfold Dataplane.coresAddCore
  split_ifs
  · exact .inl ⟨rfl, rfl⟩
  · have hany : ∀ r : Except Fault Nat,
        Meets anyFailure r fun _ => True := by
      rintro (_ | _) <;> trivial
    apply (hany _).bind
    intro core _
    -- only what `pick_thread_for_proc` does not write matters of its result
    have hpick : Untouched
        { s with pendingTimer := Function.update s.pendingTimer p false }
        (Dataplane.pickThreadForProc
          { s with pendingTimer := Function.update s.pendingTimer p false }
          p core).1 := ⟨rfl, rfl, rfl, rfl⟩
    generalize Dataplane.pickThreadForProc _ p core = r at hpick
    obtain ⟨t, th⟩ := r
    cases th with
    | none => trivial
    | some th =>
      simp only
      split_ifs
      · trivial
      · apply (wakeKthreadOnCore_untouched t th core).bind
        exact fun u hu => .inr (hpick.trans hu)
      · apply (preemptCore_untouched t th core).bind
        exact fun u hu => .inr (hpick.trans hu)

theorem coresAddCore_keeps :
    Meets anyFailure (s.coresAddCore p) fun r => r.1.procs = s.procs := by
  apply (coresAddCore_untouched s p).imp
  rintro r (⟨_, hr⟩ | hr)
  · rw [hr]
  · exact hr.procs

end Cores

section Calls

theorem procs_callInv :
    CallInv anyFailure (fun _ : π => True) (fun t => t.procs = s.procs) where
  overrun := trivial
  quiet h hsame := hsame.procs.trans h
  overload h _ := h
  unload _ h := h
  addCore {t p} h _ _ := by
    apply (coresAddCore_keeps t p).imp
    exact fun r hr => hr.trans h
  clients _ _ _ := trivial
  listed _ _ _ := trivial

theorem rxSendToRuntime_keeps (hash : BitVec 32) (cmd payload : BitVec 64)
    (mem : LrpcMem) :
    Meets anyFailure (s.rxSendToRuntime p hash cmd payload mem) fun r =>
      r.1.procs = s.procs :=
  (procs_callInv s).rxSendToRuntime rfl trivial hash cmd payload mem

theorem cmdParked_keeps (payload : BitVec 64) (wb : BitVec 32) (mem : LrpcMem) :
    KeepsProcs s (s.cmdParked th payload wb mem) :=
  (procs_callInv s).cmdParked trivial (coresParkKthread_keeps s th false wb)
    payload mem

theorem cmdParkedLast_keeps (payload : BitVec 64) (wb : BitVec 32)
    (now : BitVec 64) : KeepsProcs s (s.cmdParkedLast th payload wb now) :=
  (procs_callInv s).cmdParkedLast (coresParkKthread_keeps s th false wb)
    payload now

theorem coresAdjustAssignments_keeps (obs : Observed π) :
    KeepsProcs s (s.coresAdjustAssignments obs) :=
  (procs_callInv s).coresAdjustAssignments rfl obs

theorem dpClientsAddClient_procs :
    Meets anyFailure (s.dpClientsAddClient p) fun t =>
      t.procs = (s.pushClient p).procs := by
  unfold Dataplane.dpClientsAddClient
  split_ifs
  · unfold Dataplane.coresInitProc
    apply Meets.map
    exact coresAddCore_keeps _ p
  · trivial

theorem freeThread_keeps : KeepsProcs s (s.freeThread th) := by
  unfold Dataplane.freeThread
  split_ifs
  · rfl
  · apply Meets.map
    exact coresParkKthread_keeps s th true 0

/-- The client array after a `DATAPLANE_REMOVE_CLIENT`: the last client takes
the place of the one removed. -/
def dropFrom (clients : List π) (p : π) : List π :=
  match clients.idxOf? p with
  | none => clients
  | some i => swapRemove clients i

theorem dpClientsRemoveClient_procs :
    Meets anyFailure (s.dpClientsRemoveClient p) fun t =>
      t.procs =
        { s.procs with clients := dropFrom s.procs.clients p } := by
  unfold Dataplane.dpClientsRemoveClient dropFrom
  cases s.procs.clients.idxOf? p with
  | none => rfl
  | some i =>
    have hfree : KeepsProcs (s.dropClient i)
        ((s.dropClient i).coresFreeProc p) :=
      keepsProcs_foldlM _ freeThread_keeps _
    apply hfree.bind
    exact fun t ht => ht

def procsAfter (s : Dataplane π) : DpAct π → ProcTable π
  | .create p cfg => (s.controlCreateProc p cfg).procs
  | .add p => (s.pushClient p).procs
  | .setRemoved p =>
    { s.procs with removed := Function.update s.procs.removed p true }
  | .remove p => { s.procs with clients := dropFrom s.procs.clients p }
  | _ => s.procs

theorem dpNext_procs {s t : Dataplane π} {a : DpAct π}
    (hnext : dpNext s a = some t) : t.procs = procsAfter s a := by
  have hstep := dpNext_iff.mp hnext
  cases a with
  | create p cfg | setRemoved p =>
    obtain ⟨-, ⟨⟩⟩ := guarded hstep
    rfl
  | add p =>
    simp only [dpStep] at hstep
    split_ifs at hstep
    exact (dpClientsAddClient_procs s p).of_ok (Option.some.inj hstep)
  | remove p =>
    simp only [dpStep] at hstep
    split_ifs at hstep
    exact (dpClientsRemoveClient_procs s p).of_ok (Option.some.inj hstep)
  | parked th payload wb mem =>
    simp only [dpStep] at hstep
    split_ifs at hstep
    exact (cmdParked_keeps s th payload wb mem).of_ok
      (Option.some.inj hstep)
  | parkedLast th payload wb now =>
    simp only [dpStep] at hstep
    split_ifs at hstep
    exact (cmdParkedLast_keeps s th payload wb now).of_ok
      (Option.some.inj hstep)
  | rxSend p hash cmd payload mem =>
    simp only [dpStep] at hstep
    split_ifs at hstep
    have hkeeps : KeepsProcs s
        ((s.rxSendToRuntime p hash cmd payload mem).map Prod.fst) :=
      (rxSendToRuntime_keeps s p hash cmd payload mem).map
    exact hkeeps.of_ok (Option.some.inj hstep)
  | adjust obs =>
    exact (coresAdjustAssignments_keeps s obs).of_ok
      (Option.some.inj hstep)

end Calls

end Libut.Hwalloc
