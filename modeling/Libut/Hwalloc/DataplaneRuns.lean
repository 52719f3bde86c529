import Libut.Hwalloc.DataplaneCalls
import Libut.Hwalloc.DataplaneClients

/-!
Every call of the dataplane loop keeps the representation invariant, and so
does every run. Two results are read off it: without removals the records agree
in every state, and with removals they do as long as no core is given up while
a thread of a removed proc waits for it.
-/

namespace Libut.Hwalloc

open Machine Base

variable {π : Type} [DecidableEq π] {s t : Dataplane π} {th : ThreadRef π}
  {p : π}

section Calls

def Kept (s t : Dataplane π) : Prop :=
  DpInv none t ∧ t.procs = s.procs

omit [DecidableEq π] in
theorem client_of_procs (hprocs : t.procs = s.procs)
    (hp : p ∈ s.procs.clients) : p ∈ t.procs.clients := by
  rw [hprocs]
  exact hp

theorem kept_callInv (s : Dataplane π) :
    CallInv Fault.Exhausted (· ∈ s.procs.clients) (Kept s) := by
  constructor
  · exact .inr rfl
  · rintro t u ⟨ht, hprocs⟩ hsame
    exact ⟨ht.congr hsame.procs hsame.lists hsame.threads hsame.poll
      hsame.cores, hsame.procs.trans hprocs⟩
  · rintro t p ⟨ht, hprocs⟩ hp
    have hlists := ht.lists.setOverloaded (client_of_procs hprocs hp)
    exact ⟨ht.setLists hlists, hprocs⟩
  · rintro t p ⟨ht, hprocs⟩
    exact ⟨ht.setLists (ht.lists.clearOverloaded p), hprocs⟩
  · rintro t p ⟨ht, hprocs⟩ hp _
    apply ((coresAddCore_meets ht (client_of_procs hprocs hp)).weaken
      Dataplane.Starved.exhausted).imp
    rintro r ⟨hr, hadded⟩
    exact ⟨hr, hadded.procs.trans hprocs⟩
  · rintro t ⟨_, hprocs⟩ p hp
    exact client_of_procs hprocs.symm hp
  · rintro t ⟨ht, hprocs⟩ p hp
    apply client_of_procs hprocs.symm
    exact ht.lists.overloaded_client p ((ht.lists.overloaded.mem_iff p).mp hp)

def ParkOk (s : Dataplane π) (th : ThreadRef π) : Prop :=
  ∀ n, s.cores.next (s.threads.core th) = some n →
    s.procs.removed n.p = false

theorem coresParkKthread_kept (h : DpInv none s) (hth : s.Running th)
    (hok : ParkOk s th) (wb : BitVec 32) :
    Meets (· = Fault.overrun) (s.coresParkKthread th false wb)
      fun r => Kept s r.1 := by
  apply (coresParkKthread_meets h hth hok false wb).imp
  rintro r ⟨hr, hparked⟩
  exact ⟨hr, (parked_released hparked).procs⟩

theorem DpInv.running_client (h : DpInv none s) (hth : s.Running th) :
    th.p ∈ s.procs.clients :=
  (h.threads.live th hth.1).1.resolve_right (by simp)

end Calls

section Runs

variable {a : DpAct π} {r : Except Fault (Dataplane π)}

/-- The condition under which removals are safe. A core that is given up, by a
park command or because its proc is removed, has no waiting thread of a removed
proc; and a proc is not removed while it waits for a core itself. -/
def removalOk (s : Dataplane π) : DpAct π → Prop
  | .parked th _ _ _ => ParkOk s th
  | .parkedLast th _ _ _ => ParkOk s th
  | .remove p => FreeOk s p
  | _ => True

def noRemoval (_ : Dataplane π) : DpAct π → Prop
  | .setRemoved _ => False
  | .remove _ => False
  | _ => True

def removedAfter (s : Dataplane π) : DpAct π → π → Bool
  | .create p _ => Function.update s.procs.removed p false
  | .setRemoved p => Function.update s.procs.removed p true
  | _ => s.procs.removed

theorem DpInv.setRemoved (h : DpInv none s) (removed : π → Bool) :
    DpInv none { s with procs := { s.procs with removed := removed } } :=
  ⟨{ h.procs with }, { h.lists with }, { h.threads with }, h.poll,
    { h.cores with }⟩

theorem Kept.removed (hr : Meets Fault.Exhausted r (Kept s)) :
    Meets Fault.Exhausted r fun t =>
      DpInv none t ∧ t.procs.removed = s.procs.removed := by
  apply hr.imp
  rintro t ⟨ht, hprocs⟩
  exact ⟨ht, congrArg ProcTable.removed hprocs⟩

/-- One step: a call that does not stop for lack of cores or room ends in a
state with the invariant. -/
theorem dpStep_meets (h : DpInv none s) (hok : removalOk s a)
    (hstep : dpStep s a = some r) :
    Meets Fault.Exhausted r fun t =>
      DpInv none t ∧ t.procs.removed = removedAfter s a := by
  cases a with
  | create p cfg =>
    obtain ⟨hfresh, ⟨⟩⟩ := guarded hstep
    exact ⟨h.create hfresh.1 cfg, rfl⟩
  | add p =>
    obtain ⟨hpending, rfl⟩ := guarded hstep
    apply (dpClientsAddClient_meets h hpending).imp
    rintro t ⟨ht, hprocs⟩
    refine ⟨ht, ?_⟩
    rw [hprocs]
    rfl
  | setRemoved p =>
    obtain ⟨-, ⟨⟩⟩ := guarded hstep
    exact ⟨h.setRemoved _, rfl⟩
  | remove p =>
    obtain ⟨hclient, rfl⟩ := guarded hstep
    exact dpClientsRemoveClient_meets h hclient.2 hok
  | parked th payload wb mem =>
    obtain ⟨hrunning, rfl⟩ := guarded hstep
    apply Kept.removed
    exact (kept_callInv s).cmdParked (h.running_client hrunning)
      ((coresParkKthread_kept h hrunning hok wb).weaken fun _ => .inr)
      payload mem
  | parkedLast th payload wb now =>
    obtain ⟨hrunning, rfl⟩ := guarded hstep
    apply Kept.removed
    exact (kept_callInv s).cmdParkedLast
      ((coresParkKthread_kept h hrunning hok wb).weaken fun _ => .inr)
      payload now
  | rxSend p hash cmd payload mem =>
    obtain ⟨hclient, rfl⟩ := guarded hstep
    apply Kept.removed
    apply Meets.map
    exact (kept_callInv s).rxSendToRuntime ⟨h, rfl⟩ hclient hash cmd payload
      mem
  | adjust obs =>
    cases hstep
    apply Kept.removed
    exact (kept_callInv s).coresAdjustAssignments ⟨h, rfl⟩ obs

theorem dpNext_inv (h : DpInv none s) (hok : removalOk s a)
    (hnext : dpNext s a = some t) :
    DpInv none t ∧ t.procs.removed = removedAfter s a :=
  (dpStep_meets h hok (dpNext_iff.mp hnext)).of_ok rfl

theorem dpSystem_inv (hs : (dpSystem π).Reach removalOk s) : DpInv none s := by
  apply hs.invariant
  · rintro s ⟨cpuCount, usable, hcpus, rfl⟩
    exact boot_inv hcpus usable
  · intro s a t h hok hnext
    exact (dpNext_inv h hok hnext).1

omit [DecidableEq π] in
theorem removalOk_of_noRemoval (hmarks : ∀ p, s.procs.removed p = false)
    (hok : noRemoval s a) : removalOk s a := by
  cases a with
  | parked th => exact fun n _ => hmarks n.p
  | parkedLast th => exact fun n _ => hmarks n.p
  | remove p => exact hok.elim
  | create | add | setRemoved | rxSend | adjust => trivial

theorem removedAfter_of_noRemoval (hmarks : ∀ p, s.procs.removed p = false)
    (hok : noRemoval s a) (p : π) : removedAfter s a p = false := by
  cases a with
  | create q cfg =>
    rcases eq_or_ne p q with rfl | hne
    · exact Function.update_self ..
    · exact (Function.update_of_ne hne ..).trans (hmarks p)
  | setRemoved q => exact hok.elim
  | add | remove | parked | parkedLast | rxSend | adjust => exact hmarks p

theorem dpSystem_inv_of_noRemoval (hs : (dpSystem π).Reach noRemoval s) :
    DpInv none s ∧ ∀ p, s.procs.removed p = false := by
  apply hs.invariant
  · rintro s ⟨cpuCount, usable, hcpus, rfl⟩
    exact ⟨boot_inv hcpus usable, fun _ => rfl⟩
  · rintro s a t ⟨h, hmarks⟩ hok hnext
    have hinv := dpNext_inv h (removalOk_of_noRemoval hmarks hok) hnext
    refine ⟨hinv.1, fun p => ?_⟩
    rw [hinv.2]
    exact removedAfter_of_noRemoval hmarks hok p

/-- What the records of a proc say about its threads: the active array, the
idle list and the bitmap describe the same set, and the two flags tell which
lists the proc is on. -/
structure ClientViews (s : Dataplane π) (p : π) : Prop where
  active_nodup : (s.threads.activeThreads p).Nodup
  mem_active : ∀ th, th ∈ s.threads.activeThreads p ↔
    th.p = p ∧ th.idx < s.procs.threadCount p ∧ s.threads.parked th = false
  at_idx : ∀ i th, (s.threads.activeThreads p)[i]? = some th →
    s.threads.atIdx th = some i
  idle_nodup : (s.threads.idleThreads p).Nodup
  mem_idle : ∀ th, th ∈ s.threads.idleThreads p ↔
    th.p = p ∧ th.idx < s.procs.threadCount p ∧ s.threads.parked th = true
  available : ∀ th, th.p = p → th.idx < s.procs.threadCount p →
    (s.threads.availableThreads th = true ↔ s.threads.parked th = true)
  bursting_iff : s.lists.bursting p = true ↔
    s.procs.guaranteedCores p < (s.threads.activeThreads p).length
  bursting_listed : s.lists.bursting p = true ↔ p ∈ s.lists.burstingProcs
  overloaded_listed :
    s.lists.overloaded p = true ↔ p ∈ s.lists.overloadedProcs

theorem DpInv.clientViews (h : DpInv none s) (hp : p ∈ s.procs.clients) :
    ClientViews s p := by
  have hstarted : p ∉ s.procs.pending := h.procs.clients_started p hp
  constructor
  · exact (h.threads.active p).nodup
  · intro th
    rw [h.threads.mem_active p th]
    constructor
    · rintro ⟨rfl, hth⟩
      exact ⟨rfl, (h.threads.live th hth).2, hth⟩
    · rintro ⟨hth, _, hunparked⟩
      exact ⟨hth, hunparked⟩
  · exact h.threads.active p
  · exact h.threads.idle_nodup p
  · exact h.threads.mem_idle p hstarted
  · rintro th rfl hidx
    rw [h.threads.available th hstarted hidx]
  · exact h.lists.bursting_iff p hp
  · exact (h.lists.bursting.mem_iff p).symm
  · exact (h.lists.overloaded.mem_iff p).symm

def oneThread (guaranteedCores : Nat) : ProcConfig :=
  ⟨1, guaranteedCores, 0, fun _ => ⟨0, 0, 0, 0, 4⟩⟩

/-- On one core, proc 0 bursts and proc 1 with a guaranteed core comes in. -/
def preemptRun : List (DpAct Nat) :=
  [.create 0 (oneThread 0), .add 0, .create 1 (oneThread 1), .add 1]

def oneCore : Dataplane Nat := .boot 1 fun _ => true

theorem oneCore_init : (dpSystem Nat).init oneCore :=
  ⟨1, fun _ => true, by decide, rfl⟩

theorem preemptRun_isSome :
    ((dpSystem Nat).exec oneCore preemptRun).isSome := by
  decide

/-- Proc 0 has been asked for the core, and proc 1 waits for it. -/
def preempting : Dataplane Nat :=
  ((dpSystem Nat).exec oneCore preemptRun).get preemptRun_isSome

theorem preempting_reach {ok : Dataplane Nat → DpAct Nat → Prop}
    (hok : ∀ s, ∀ a ∈ preemptRun, ok s a) :
    (dpSystem Nat).Reach ok preempting :=
  System.Reach.exec_of (.init oneCore_init) preemptRun hok
    (Option.some_get preemptRun_isSome).symm

/-- In every state of every run of additions, park commands, packets for
runtimes and reassignments, the records of the core allocator agree. -/
theorem core_allocator_records_agree (hs : (dpSystem π).Reach noRemoval s) :
    s.cores.nrAvailCores = s.cores.available.card ∧
    (∀ c, s.cores.onlineCores c = true → s.cores.availCores c = false →
      ∃ th, s.cores.current c = some th ∧ s.threads.parked th = false ∧
        s.threads.core th = c) ∧
    (∀ th, s.threads.parked th = false →
      s.cores.availCores (s.threads.core th) = false ∧
      (s.cores.current (s.threads.core th) = some th ∨
        s.cores.next (s.threads.core th) = some th)) ∧
    (∀ th th', s.Running th → s.Running th' →
      s.threads.core th = s.threads.core th' → th = th') ∧
    (∀ p ∈ s.procs.clients, ClientViews s p) ∧
    s.poll.ts.Nodup ∧
    (∀ th, th ∈ s.poll.ts ↔ s.threads.parked th = false) ∧
    ∀ i th, s.poll.ts[i]? = some th → s.poll.tsIdx th = some i := by
  obtain ⟨h, _⟩ := dpSystem_inv_of_noRemoval hs
  refine ⟨h.cores.nr_avail, h.cores.busy, fun th hth => ?_, ?_,
    fun p hp => h.clientViews hp, h.poll.indexed.nodup, h.poll.mem_ts,
    h.poll.indexed⟩
  · exact (h.cores.placed th hth).2
  · rintro th th' ⟨_, hth⟩ ⟨_, hth'⟩ hcore
    rw [hcore] at hth
    exact Option.some.inj (hth.symm.trans hth')

theorem core_allocator_records_agree_preempting :
    (dpSystem Nat).Reach noRemoval preempting ∧
      preempting.cores.next 0 = some ⟨1, 0⟩ ∧
      (0 ∈ preempting.procs.clients ∧ ClientViews preempting 0) ∧
      ∃ th, preempting.cores.current 0 = some th ∧
        preempting.threads.parked th = false ∧
        preempting.threads.core th = 0 := by
  have hs : (dpSystem Nat).Reach noRemoval preempting := by
    apply preempting_reach
    simp [preemptRun, noRemoval]
  obtain ⟨_, hbusy, _, _, hviews, _⟩ := core_allocator_records_agree hs
  exact ⟨hs, by decide, ⟨by decide, hviews 0 (by decide)⟩,
    hbusy 0 (by decide) (by decide)⟩

/-- In every run whose steps all meet `removalOk`: none of the checks on the
allocator's own records fails, a thread that waits for a core is an unparked
thread of a client, a core that runs a kthread is not available, and the
preemptions in flight of a client are the cores it has been asked for. -/
theorem client_removal_safe (hs : (dpSystem π).Reach removalOk s) :
    (∀ a f, removalOk s a → dpStep s a = some (.error f) →
      f = .noCores ∨ f = .overrun) ∧
    (∀ c th, s.cores.next c = some th →
      th.p ∈ s.procs.clients ∧ s.threads.parked th = false ∧
        s.threads.core th = c) ∧
    (∀ th, s.Running th → s.cores.availCores (s.threads.core th) = false) ∧
    ∀ p ∈ s.procs.clients,
      (s.cores.inflightPreempts p).toNat = (s.cores.preempted p).card := by
  have h := dpSystem_inv hs
  refine ⟨fun a f hok hstep => ?_, fun c th hnext => ?_, fun th hth => ?_,
    fun p _ => h.cores.inflight p⟩
  · exact (dpStep_meets h hok hstep).of_error rfl
  · obtain ⟨hparked, hcore, _⟩ := h.cores.waiting c th hnext
    exact ⟨(h.threads.live th hparked).1.resolve_right (by simp), hparked,
      hcore⟩
  · exact (h.cores.placed th hth.1).2.1

theorem removalRun_isSome :
    ((dpSystem Nat).exec preempting [.setRemoved 0, .remove 0]).isSome := by
  decide

/-- Proc 0 is removed before it has given up the core. -/
def removed : Dataplane Nat :=
  ((dpSystem Nat).exec preempting [.setRemoved 0, .remove 0]).get
    removalRun_isSome

theorem removed_reach : (dpSystem Nat).Reach removalOk removed := by
  have hwaiting : (dpSystem Nat).Reach removalOk preempting := by
    apply preempting_reach
    simp [preemptRun, removalOk]
  have hnext : ∀ core n, preempting.cores.next core = some n →
      core = 0 ∧ n = ⟨1, 0⟩ := by
    rintro (_ | core) n hn
    · cases hn
      exact ⟨rfl, rfl⟩
    · cases hn
  obtain ⟨marked, hmarked, hrest⟩ :=
    System.exec_cons.mp (Option.some_get removalRun_isSome).symm
  obtain ⟨_, hremoved, hend⟩ := System.exec_cons.mp hrest
  cases hend
  obtain rfl := Option.some.inj (show some _ = some marked from hmarked)
  refine (hwaiting.step (a := DpAct.setRemoved 0) trivial hmarked).step ?_
    hremoved
  intro core n hn
  obtain ⟨rfl, rfl⟩ := hnext core n hn
  exact ⟨by decide, fun _ _ _ => by decide⟩

/-- Proc 1, which waited for the core, has it. -/
theorem client_removal_safe_preempting :
    (dpSystem Nat).Reach removalOk removed ∧
      preempting.cores.next 0 = some ⟨1, 0⟩ ∧ removed.procs.clients = [1] ∧
      removed.cores.current 0 = some ⟨1, 0⟩ ∧
      removed.cores.availCores 0 = false := by
  obtain ⟨_, _, hbusy, _⟩ := client_removal_safe removed_reach
  exact ⟨removed_reach, by decide, by decide, by decide,
    hbusy ⟨1, 0⟩ (by decide)⟩

theorem removedWaiter_isSome :
    ((dpSystem Nat).next preempting (.setRemoved 1)).isSome := by
  decide

/-- The control thread marks proc 1 removed while it waits for the core. -/
def removedWaiter : Dataplane Nat :=
  ((dpSystem Nat).next preempting (.setRemoved 1)).get
    removedWaiter_isSome

/-- When proc 0 then parks, `pick_thread_for_core` passes over the thread that
waits and picks proc 0 again, which is overloaded. `core_reserve` stops the
daemon, since another thread still waits for the core. -/
theorem park_before_removed_waiter :
    ∃ s : Dataplane Nat, (dpSystem Nat).Reach anyStep s ∧
      s.Running ⟨0, 0⟩ ∧
      dpStep s (.parked ⟨0, 0⟩ 0 0 ⟨fun _ => ⟨0, 0⟩, 0⟩) =
        some (.error .reserveWaiting) := by
  have hs : (dpSystem Nat).Reach anyStep removedWaiter :=
    .step (preempting_reach fun _ _ _ => trivial) trivial
      (Option.some_get removedWaiter_isSome).symm
  exact ⟨removedWaiter, hs, by decide, rfl⟩

end Runs

end Libut.Hwalloc
