import Libut.Hwalloc.Guarantees

/-!
How far the polling array fills up. A thread is polled from the moment it is
promised a core, so `ts` holds the threads that run and the threads that wait
for a core to be given back, at most two for each online core. `ts` has
`NCPU` slots, one for each core there can be.
-/

namespace Libut.Hwalloc

open Function Machine Base

variable {π : Type} [DecidableEq π] {s t u : Dataplane π}
  {th th₀ : ThreadRef π} {p : π} {core : Nat} {leaving : Option π}

section Writes

/-- `wake_kthread_on_core` calls `thread_reserve`, in state `t`. -/
def WakeReserves (s : Dataplane π) (th : ThreadRef π) (core : Nat)
    (t : Dataplane π) : Prop :=
  s.cores.availCores core = true ∧ s.coreReserve core th = .ok t ∧
  t.threads.parked th = true

structure AddPicks (s : Dataplane π) (p : π) (core : Nat)
    (th : ThreadRef π) (t : Dataplane π) : Prop where
  wanted : (s.threads.activeThreads p).length ≠ s.procs.threadCount p
  pickCore : Dataplane.pickCoreForProc
    { s with pendingTimer := update s.pendingTimer p false } p =
      .ok core
  pickThread : Dataplane.pickThreadForProc
    { s with pendingTimer := update s.pendingTimer p false } p core =
      (t, some th)
  available : t.threads.availableThreads th = true

inductive AddReserves (s : Dataplane π) (p : π) (th : ThreadRef π) :
    Dataplane π → Prop
  | waking {core : Nat} {t u : Dataplane π} : AddPicks s p core th t →
      WakeReserves t th core u → AddReserves s p th u
  | preempting {core : Nat} {t : Dataplane π} : AddPicks s p core th t →
      t.cores.availCores core = false → AddReserves s p th t

def Dataplane.pollQueue (s : Dataplane π) (th : ThreadRef π)
    (wb : BitVec 32) : Dataplane π :=
  if s.cores.next (s.threads.core th) = none then
    { s with
      rxq := update s.rxq th (lrpcPollSendTail (s.rxq th) wb) }
  else s

/-- `cores_park_kthread` parks `th₀` and calls `thread_reserve` for the thread
that gets the core, in state `t`. -/
inductive ParkReserves (s : Dataplane π) (th₀ : ThreadRef π)
    (wb : BitVec 32) (th : ThreadRef π) : Dataplane π → Prop
  | intro {s₁ s₂ t : Dataplane π} :
      (s.cores.next (s.threads.core th₀) = none →
        lrpcGetCachedLength ((s.pollQueue th₀ wb).rxq th₀) = 0) →
      Dataplane.threadCede
        { s.pollQueue th₀ wb with
          cores := s.cores.cede (s.threads.core th₀) } th₀ = .ok s₁ →
      s₁.pickThreadForCore (s.threads.core th₀) = .ok (s₂, some th) →
      WakeReserves s₂ th (s.threads.core th₀) t → ParkReserves s th₀ wb th t

inductive Reserves (s : Dataplane π) :
    DpAct π → ThreadRef π → Dataplane π → Prop
  | added {a : DpAct π} {u t : Dataplane π} {p : π} {th : ThreadRef π} :
      AddsCore s a u p → AddReserves u p th t → Reserves s a th t
  | parked {th₀ th : ThreadRef π} {payload : BitVec 64} {wb : BitVec 32}
      {mem : LrpcMem} {t : Dataplane π} : s.Running th₀ →
      ParkReserves s th₀ wb th t → Reserves s (.parked th₀ payload wb mem) th t
  | parkedLast {th₀ th : ThreadRef π} {payload : BitVec 64} {wb : BitVec 32}
      {now : BitVec 64} {t : Dataplane π} : s.Running th₀ →
      ParkReserves s th₀ wb th t →
      Reserves s (.parkedLast th₀ payload wb now) th t

/-- The call `a` of the dataplane writes `ts[n]`: `thread_reserve` polls its
thread, and `poll_thread` returns early if the thread is in `ts` already. -/
def PollWrites (s : Dataplane π) (a : DpAct π) (n : Nat) : Prop :=
  ∃ th t, Reserves s a th t ∧ t.poll.tsIdx th = none ∧ t.poll.ts.length = n

end Writes

section Count

def CoreTable.awaitedCores (c : CoreTable π) : Finset Nat :=
  (Finset.range ncpu).filter fun core => (c.next core).isSome = true

omit [DecidableEq π] in
theorem mem_awaitedCores {c : CoreTable π} : core ∈ c.awaitedCores ↔
    core < ncpu ∧ (c.next core).isSome = true := by
  simp [CoreTable.awaitedCores]

def CoreTable.busyCores (c : CoreTable π) : Finset Nat :=
  (Finset.range ncpu).filter fun core =>
    c.onlineCores core = true ∧ c.availCores core = false

section

variable (h : DpInv leaving s)
include h

theorem DpInv.awaited_online : s.cores.awaitedCores ⊆ s.cores.online := by
  intro core hcore
  obtain ⟨hlt, hsome⟩ := mem_awaitedCores.mp hcore
  refine Finset.mem_filter.mpr ⟨Finset.mem_range.mpr hlt, ?_⟩
  by_contra hoff
  have hnone := (h.cores.offline core (by simpa using hoff)).2
  rw [hnone] at hsome
  cases hsome

theorem DpInv.busy_add_avail :
    s.cores.busyCores.card + s.cores.nrAvailCores = s.cores.online.card := by
  have havail : s.cores.available =
      s.cores.online.filter fun core => s.cores.availCores core = true := by
    ext core
    simp only [CoreTable.available, CoreTable.online, Finset.mem_filter]
    have := h.cores.avail_online core
    tauto
  have hbusy : s.cores.busyCores =
      s.cores.online.filter fun core => ¬ s.cores.availCores core = true := by
    ext core
    simp only [CoreTable.busyCores, CoreTable.online, Finset.mem_filter,
      Bool.not_eq_true]
    tauto
  rw [h.cores.nr_avail, havail, hbusy, add_comm]
  exact Finset.card_filter_add_card_filter_not _

theorem DpInv.running_card :
    (s.poll.ts.toFinset.filter fun th =>
      s.cores.current (s.threads.core th) = some th).card =
      s.cores.busyCores.card := by
  apply Finset.card_nbij s.threads.core
  · intro th hth
    simp only [Finset.coe_filter, List.mem_toFinset, Set.mem_ofPred_eq,
      h.poll.mem_ts] at hth
    obtain ⟨honline, hbusy, _⟩ := h.cores.placed th hth.1
    exact Finset.mem_filter.mpr
      ⟨Finset.mem_range.mpr (h.cores.core_lt honline), honline, hbusy⟩
  · intro th hth th' hth' hcore
    simp only [Finset.coe_filter, Set.mem_ofPred_eq] at hth hth'
    have hcur := hth.2
    rw [hcore, hth'.2] at hcur
    exact (Option.some.inj hcur).symm
  · intro core hcore
    obtain ⟨_, honline, hbusy⟩ := Finset.mem_filter.mp hcore
    obtain ⟨th, hcur, hparked, rfl⟩ := h.cores.busy core honline hbusy
    refine ⟨th, ?_, rfl⟩
    simp [h.poll.mem_ts, hparked, hcur]

theorem DpInv.waiting_card :
    (s.poll.ts.toFinset.filter fun th =>
      ¬ s.cores.current (s.threads.core th) = some th).card =
      s.cores.awaitedCores.card := by
  have hnext : ∀ th, th ∈ s.poll.ts →
      ¬ s.cores.current (s.threads.core th) = some th →
      s.cores.next (s.threads.core th) = some th := by
    intro th hth hnot
    have hparked := (h.poll.mem_ts th).mp hth
    exact (h.cores.placed th hparked).2.2.resolve_left hnot
  apply Finset.card_nbij s.threads.core
  · intro th hth
    simp only [Finset.coe_filter, List.mem_toFinset, Set.mem_ofPred_eq] at hth
    have hparked := (h.poll.mem_ts th).mp hth.1
    have hlt := h.cores.core_lt (h.cores.placed th hparked).1
    refine mem_awaitedCores.mpr ⟨hlt, ?_⟩
    rw [hnext th hth.1 hth.2]
    rfl
  · intro th hth th' hth' hcore
    simp only [Finset.coe_filter, List.mem_toFinset, Set.mem_ofPred_eq]
      at hth hth'
    have hwaits := hnext th hth.1 hth.2
    rw [hcore, hnext th' hth'.1 hth'.2] at hwaits
    exact (Option.some.inj hwaits).symm
  · intro core hcore
    obtain ⟨_, hsome⟩ := mem_awaitedCores.mp hcore
    obtain ⟨th, hth⟩ := Option.isSome_iff_exists.mp hsome
    obtain ⟨hparked, rfl, hnot⟩ := h.cores.waiting core th hth
    refine ⟨th, ?_, rfl⟩
    simp [h.poll.mem_ts, hparked, hnot]

theorem DpInv.polled_eq :
    s.poll.ts.length + s.cores.nrAvailCores =
      s.cores.online.card + s.cores.awaitedCores.card := by
  have hcard : s.poll.ts.toFinset.card = s.poll.ts.length :=
    List.toFinset_card_of_nodup h.poll.indexed.nodup
  have hsplit := Finset.card_filter_add_card_filter_not
    (s := s.poll.ts.toFinset)
    fun th => s.cores.current (s.threads.core th) = some th
  rw [h.running_card, h.waiting_card] at hsplit
  have hcores := h.busy_add_avail
  omega

theorem DpInv.avail_pos (havail : s.cores.availCores core = true) :
    0 < s.cores.nrAvailCores := by
  have hlt := h.cores.core_lt (h.cores.avail_online core havail)
  rw [h.cores.nr_avail, Finset.card_pos]
  exact ⟨core, Finset.mem_filter.mpr ⟨Finset.mem_range.mpr hlt, havail⟩⟩

/-- While a core can still be given to a thread, less than two threads per
online core are polled. -/
theorem DpInv.polled_lt (hcore : s.cores.Takeable core) :
    s.poll.ts.length < 2 * s.cores.online.card := by
  have hpolled := h.polled_eq
  have hle := Finset.card_le_card h.awaited_online
  rcases hcore with havail | ⟨honline, _, hnext, _⟩
  · have hpos := h.avail_pos havail
    have hcount := h.busy_add_avail
    omega
  · have hmem : core ∈ s.cores.online :=
      Finset.mem_filter.mpr
        ⟨Finset.mem_range.mpr (h.cores.core_lt honline), honline⟩
    have hnot : core ∉ s.cores.awaitedCores := by
      intro hawaited
      have hsome := (mem_awaitedCores.mp hawaited).2
      rw [hnext] at hsome
      cases hsome
    have hlt := Finset.card_lt_card
      ((Finset.ssubset_iff_of_subset h.awaited_online).mpr ⟨core, hmem, hnot⟩)
    omega

end

end Count

section Bound

theorem WakeReserves.same (h : WakeReserves s th core t) :
    t.poll = s.poll ∧ t.threads = s.threads := by
  obtain ⟨_, hok, _⟩ := h
  unfold Dataplane.coreReserve at hok
  split_ifs at hok
  cases hok
  exact ⟨rfl, rfl⟩

theorem AddPicks.poll (h : AddPicks s p core th t) : t.poll = s.poll := by
  obtain rfl := (congrArg Prod.fst h.pickThread).symm
  rfl

theorem AddReserves.room (hres : AddReserves s p th t) (h : DpInv none s)
    (hp : p ∈ s.procs.clients) :
    t.poll.ts.length < 2 * s.cores.online.card := by
  have hpicked : ∀ {core t}, AddPicks s p core th t →
      t.poll.ts.length < 2 * s.cores.online.card := by
    intro core t hpicks
    have h₀ : DpInv none
        { s with pendingTimer := update s.pendingTimer p false } :=
      { h with }
    have hidle := h.idle_ne_nil hp hpicks.wanted
    have htake := ((pickCoreForProc_meets h₀ hp hidle).of_ok hpicks.pickCore).1
    rw [hpicks.poll]
    exact h.polled_lt htake
  cases hres with
  | waking hpicks hwakes =>
    rw [hwakes.same.1]
    exact hpicked hpicks
  | preempting hpicks _ => exact hpicked hpicks

/-- A kthread that parks leaves `ts` before another one takes its place. A
thread that waited for the core is in `ts` already. -/
theorem polled_lt_of_cede {s₁ s₂ : Dataplane π} (h : DpInv none s)
    (hth : s.Running th₀) (hremoved : ∀ q, s.procs.removed q = false)
    (hcede : Dataplane.threadCede
      { s with cores := s.cores.cede (s.threads.core th₀) } th₀ = .ok s₁)
    (hpick : s₁.pickThreadForCore (s.threads.core th₀) = .ok (s₂, some th))
    (hwakes : WakeReserves s₂ th (s.threads.core th₀) t) :
    t.poll.ts.length < 2 * s.cores.online.card := by
  have hy : Yielded none s th₀ s₁ := (threadCede_yields h hth.1).of_ok hcede
  obtain ⟨hpoll, hthreads⟩ := hwakes.same
  cases hnext : s.cores.next (s.threads.core th₀) with
  | none =>
    have h₁ : DpInv none s₁ := hy.inv h hth hnext
    have hidle := pickThreadForCore_idle h₁
      (h₁.cores.avail_next _ hy.avail)
    obtain ⟨⟨launched, hs₂⟩, _⟩ := hidle.of_ok hpick
    have hlt := h₁.polled_lt (.inl hy.avail)
    have honline : s₁.cores.online = s.cores.online := by
      rw [hy.cores]
      rfl
    have hsame : s₂.poll = s₁.poll := by
      rw [show s₂ = _ from hs₂]
    rw [honline] at hlt
    rw [hpoll, hsame]
    exact hlt
  | some n =>
    have hcur : s₁.cores.current (s.threads.core th₀) = some th₀ := by
      rw [hy.cores]
      exact hth.2
    have hwaits : s₁.cores.next (s.threads.core th₀) = some n := by
      rw [hy.cores]
      exact hnext
    have hmark : s₁.procs.removed n.p = false := by
      rw [hy.procs]
      exact hremoved n.p
    rw [pickThreadForCore_waiting hcur hwaits hmark] at hpick
    cases hpick
    have hparked := hwakes.2.2
    rw [hthreads] at hparked
    exact Bool.noConfusion
      ((hy.waiting_parked h hth.2 hnext).symm.trans hparked)

theorem ParkReserves.room {wb : BitVec 32} (hres : ParkReserves s th₀ wb th t)
    (h : DpInv none s) (hth : s.Running th₀)
    (hremoved : ∀ q, s.procs.removed q = false) :
    t.poll.ts.length < 2 * s.cores.online.card := by
  obtain ⟨_, hcede, hpick, hwakes⟩ := hres
  unfold Dataplane.pollQueue at hcede
  split_ifs at hcede
  · have hpolled : DpInv none
        { s with
          rxq := update s.rxq th₀
            (lrpcPollSendTail (s.rxq th₀) wb) } :=
      { h with }
    have hlt := polled_lt_of_cede hpolled hth hremoved hcede hpick hwakes
    exact hlt
  · exact polled_lt_of_cede h hth hremoved hcede hpick hwakes

def KeptCores (s t : Dataplane π) : Prop :=
  Kept s t ∧ t.cores.onlineCores = s.cores.onlineCores

theorem CoreAdded.onlineCores {r : Option (ThreadRef π)}
    (h : CoreAdded s p t r) :
    t.cores.onlineCores = s.cores.onlineCores := by
  cases h with
  | full => rfl
  | granted _ _ _ hgranted =>
    rw [hgranted.cores]
    rfl
  | preempted _ _ _ _ _ _ _ hpreempted =>
    rw [hpreempted.cores]
    rfl

theorem keptCores_callInv (s : Dataplane π) :
    CallInv Fault.Exhausted (· ∈ s.procs.clients) (KeptCores s) := by
  have hkept := kept_callInv s
  constructor
  · exact hkept.overrun
  · rintro t u ⟨ht, honline⟩ hsame
    refine ⟨hkept.quiet ht hsame, ?_⟩
    rw [hsame.cores, honline]
  · rintro t p ⟨ht, honline⟩ hp
    exact ⟨hkept.overload ht hp, honline⟩
  · rintro t p ⟨ht, honline⟩
    exact ⟨hkept.unload p ht, honline⟩
  · rintro t p ⟨⟨ht, hprocs⟩, honline⟩ hp _
    apply ((coresAddCore_meets ht (client_of_procs hprocs hp)).weaken
      Dataplane.Starved.exhausted).imp
    rintro r ⟨hr, hadded⟩
    exact ⟨⟨hr, hadded.procs.trans hprocs⟩, hadded.onlineCores.trans honline⟩
  · exact fun ht => hkept.clients ht.1
  · exact fun ht => hkept.listed ht.1

theorem coresParkKthread_keptCores (h : DpInv none s) (hth : s.Running th)
    (hremoved : ∀ q, s.procs.removed q = false) (wb : BitVec 32) :
    Meets Fault.Exhausted (s.coresParkKthread th false wb)
      fun r => KeptCores s r.1 := by
  apply ((coresParkKthread_meets h hth (fun n _ => hremoved n.p) false
    wb).weaken fun _ => .inr).imp
  rintro r ⟨hr, hparked⟩
  refine ⟨⟨hr, (parked_released hparked).procs⟩, ?_⟩
  rcases hparked with ⟨_, _, hraced⟩ | ⟨_, hreleased⟩
  · rw [hraced.cores]
  · exact hreleased.onlineCores

theorem dpNext_onlineCores (h : DpInv none s)
    (hremoved : ∀ q, s.procs.removed q = false) {a : DpAct π}
    (ha : noRemoval s a) (hnext : dpNext s a = some t) :
    t.cores.onlineCores = s.cores.onlineCores := by
  have hI := keptCores_callInv s
  have hs : KeptCores s s := ⟨⟨h, rfl⟩, rfl⟩
  rw [dpNext_iff] at hnext
  cases a with
  | create p cfg =>
    obtain ⟨-, ⟨⟩⟩ := guarded hnext
    rfl
  | add p =>
    simp only [dpStep] at hnext
    split_ifs at hnext with hpending
    have hadds := dpClientsAddClient_added h hpending
    obtain ⟨_, _, _, hadded⟩ := hadds.of_ok (Option.some.inj hnext)
    exact hadded.onlineCores
  | setRemoved p => exact ha.elim
  | remove p => exact ha.elim
  | parked th payload wb mem =>
    simp only [dpStep] at hnext
    split_ifs at hnext with hth
    have hpark := coresParkKthread_keptCores h hth hremoved wb
    exact ((hI.cmdParked (h.running_client hth) hpark payload mem).of_ok
      (Option.some.inj hnext)).2
  | parkedLast th payload wb now =>
    simp only [dpStep] at hnext
    split_ifs at hnext with hth
    have hpark := coresParkKthread_keptCores h hth hremoved wb
    exact ((hI.cmdParkedLast hpark payload now).of_ok (Option.some.inj hnext)).2
  | rxSend p hash cmd payload mem =>
    simp only [dpStep] at hnext
    split_ifs at hnext with hp
    have hsend : Meets Fault.Exhausted
        ((s.rxSendToRuntime p hash cmd payload mem).map Prod.fst)
        (KeptCores s) := (hI.rxSendToRuntime hs hp hash cmd payload mem).map
    exact (hsend.of_ok (Option.some.inj hnext)).2
  | adjust obs =>
    exact ((hI.coresAdjustAssignments hs obs).of_ok (Option.some.inj hnext)).2

theorem AddsCore.inv {a : DpAct π} (hcall : AddsCore s a u p) (h : DpInv none s)
    (hremoved : ∀ q, s.procs.removed q = false) (hadd : AddReserves u p th t) :
    DpInv none u ∧ p ∈ u.procs.clients ∧
      u.cores.onlineCores = s.cores.onlineCores := by
  by_cases ha : ∃ q, a = .add q
  · obtain ⟨q, rfl⟩ := ha
    cases hcall with
    | add hpending _ =>
      have honline : s.procs.threadCount p = 0 ∨ s.cores.onlineCores
          (bitmapFindNextSet s.cores.onlineCores ncpu) = true := by
        by_contra hoffline
        obtain ⟨core, t', hpicks⟩ : ∃ core t', AddPicks
            ((s.pushClient p).resetProc p) p core th t' := by
          cases hadd with
          | waking hpicks _ => exact ⟨_, _, hpicks⟩
          | preempting hpicks _ => exact ⟨_, _, hpicks⟩
        have hpick := hpicks.pickCore
        rw [pickCore_offline hoffline] at hpick
        cases hpick
      exact ⟨h.reset hpending honline, List.mem_append_right _ (by simp), rfl⟩
  · have hs : KeptCores s s := ⟨⟨h, rfl⟩, rfl⟩
    obtain ⟨⟨⟨hu, hprocs⟩, hcores⟩, hp, _⟩ := (keptCores_callInv s).addsCore
      hs (fun q hq => ha ⟨q, hq⟩) hcall fun th wb hth =>
        ⟨h.running_client hth, coresParkKthread_keptCores h hth hremoved wb⟩
    exact ⟨hu, client_of_procs hprocs hp, hcores⟩

theorem PollWrites.lt (h : DpInv none s)
    (hremoved : ∀ q, s.procs.removed q = false) {a : DpAct π} {n : Nat}
    (hwrites : PollWrites s a n) : n < 2 * s.cores.online.card := by
  obtain ⟨th, t, hres, _, rfl⟩ := hwrites
  have honline : ∀ {u : Dataplane π},
      u.cores.onlineCores = s.cores.onlineCores →
      u.cores.online = s.cores.online := by
    intro u hu
    unfold CoreTable.online
    rw [hu]
  cases hres with
  | @added a u _ p _ hcall hadd =>
    obtain ⟨hu, hp, hcores⟩ := hcall.inv h hremoved hadd
    have hroom := hadd.room hu hp
    rwa [honline hcores] at hroom
  | parked hth hpark | parkedLast hth hpark => exact hpark.room h hth hremoved

end Bound

section Crowd

theorem DpInv.addReserves (h : DpInv none s) (hp : p ∈ s.procs.clients)
    (hwanted : (s.threads.activeThreads p).length ≠ s.procs.threadCount p)
    (hcore : ¬ s.NoCore) :
    ∃ th t, AddReserves s p th t ∧ t.poll = s.poll ∧
      s.poll.tsIdx th = none := by
  have h₀ : DpInv none
      { s with pendingTimer := update s.pendingTimer p false } :=
    { h with }
  have hidle := h.idle_ne_nil hp hwanted
  have hpick := pickCoreForProc_meets h₀ hp hidle
  cases hresult : Dataplane.pickCoreForProc
      { s with pendingTimer := update s.pendingTimer p false } p with
  | error f => exact absurd (hpick.of_error hresult).2 hcore
  | ok core =>
    obtain ⟨th, hth⟩ := pickThread_isSome
      (s := { s with
        pendingTimer := update s.pendingTimer p false })
      hidle core
    obtain ⟨rfl, hidx, hparked⟩ := pickThread_parked h₀ hp hth
    have havailable : s.threads.availableThreads th = true :=
      (h.threads.available th (h.procs.clients_started th.p hp) hidx).trans
        hparked
    set picked : Dataplane π :=
      { s with
        pendingTimer := update s.pendingTimer th.p false
        launched := update s.launched th.p false } with hpicked
    have hpicks : AddPicks s th.p core th picked := by
      refine ⟨hwanted, hresult, ?_, havailable⟩
      rw [← hth]
      rfl
    have hunpolled := h.poll.tsIdx_none th hparked
    by_cases havail : s.cores.availCores core = true
    · have hreserve := coreReserve_meets (s := picked) th
        (.inl (h.cores.avail_next core havail))
      cases hok : picked.coreReserve core th with
      | error f => exact (hreserve.of_error hok).elim
      | ok t =>
        obtain ⟨refs, rfl⟩ := hreserve.of_ok hok
        have hwakes : WakeReserves picked th core _ :=
          ⟨havail, hok, hparked⟩
        exact ⟨th, _, .waking hpicks hwakes, rfl, hunpolled⟩
    · exact ⟨th, picked, .preempting hpicks (by simpa using havail), rfl,
        hunpolled⟩

def dpOn (π : Type) [DecidableEq π] (cpuCount : Nat) (usable : Nat → Bool) :
    System (Dataplane π) (DpAct π) where
  init s := s = .boot cpuCount usable
  next := dpNext

/-- The runs in which the guarantees of the clients that are admitted add up to
at most the online cores, and no client is removed. -/
def withinCores (s : Dataplane π) : DpAct π → Prop
  | .create _ cfg =>
    cfg.guaranteedCores + nrGuaranteed s ≤ s.cores.online.card
  | .setRemoved _ => False
  | .remove _ => False
  | _ => True

omit [DecidableEq π] in
theorem noRemoval_of_withinCores {a : DpAct π} (hok : withinCores s a) :
    noRemoval s a := by
  cases a with
  | setRemoved | remove => exact hok.elim
  | create | add | parked | parkedLast | rxSend | adjust => trivial

variable {cpuCount : Nat} {usable : Nat → Bool}

theorem dpOn_inv (hcpus : cpuCount ≤ ncpu)
    (hs : (dpOn π cpuCount usable).Reach withinCores s) :
    DpInv none s ∧ (∀ q, s.procs.removed q = false) ∧
      s.cores.onlineCores =
        (coresInit cpuCount usable : CoreTable π).onlineCores := by
  apply hs.invariant
  · rintro s rfl
    exact ⟨boot_inv hcpus usable, fun _ => rfl, rfl⟩
  · rintro s a t ⟨h, hremoved, honline⟩ hok hnext
    have ha := noRemoval_of_withinCores hok
    have hinv := dpNext_inv h (removalOk_of_noRemoval hremoved ha) hnext
    refine ⟨hinv.1, fun p => ?_, ?_⟩
    · rw [hinv.2]
      exact removedAfter_of_noRemoval hremoved ha p
    · exact (dpNext_onlineCores h hremoved ha hnext).trans honline

omit [DecidableEq π] in
theorem coresInit_nrAvail (cpuCount : Nat) (usable : Nat → Bool) :
    (coresInit cpuCount usable : CoreTable π).nrAvailCores =
      (List.range cpuCount).countP usable := by
  have hloop : ∀ (l : List Nat) (c : CoreTable π),
      (l.foldl (fun c i => if usable i then c.init i else c)
        c).nrAvailCores = c.nrAvailCores + l.countP usable := by
    intro l
    induction l with
    | nil => exact fun _ => rfl
    | cons i rest ih =>
      intro c
      rw [List.foldl_cons, ih]
      by_cases hi : usable i = true
      · simp only [if_pos hi, List.countP_cons_of_pos hi, CoreTable.init]
        omega
      · simp only [if_neg hi, List.countP_cons_of_neg hi]
  unfold coresInit
  rw [hloop]
  exact Nat.zero_add _

omit [DecidableEq π] in
theorem coresInit_online_card (hcpus : cpuCount ≤ ncpu) :
    (coresInit cpuCount usable : CoreTable π).online.card =
      (List.range cpuCount).countP usable := by
  have hinit := coresInit_ok (π := π) hcpus usable
  rw [← coresInit_nrAvail (π := π), hinit.nr_avail]
  unfold CoreTable.online CoreTable.available
  rw [hinit.online]

/-- A machine on which `k` of the cores are held by clients without a guarantee,
`j` of them promised to clients with one. -/
structure Crowded (s : Dataplane π) (k j : Nat) : Prop where
  clients : s.procs.clients.length = k + j
  guaranteed : nrGuaranteed s = j
  idle : s.cores.nrAvailCores + k = s.cores.online.card
  awaited : s.cores.awaitedCores.card = j
  holders : ∀ core cur, s.cores.availCores core = false →
    s.cores.current core = some cur → s.procs.guaranteedCores cur.p = 0

theorem Crowded.polled {k j : Nat} (hs : Crowded s k j) (h : DpInv none s) :
    s.poll.ts.length = k + j := by
  have hpolled := h.polled_eq
  have hidle := hs.idle
  rw [hs.awaited] at hpolled
  omega

theorem DpInv.not_noCore_of_avail (h : DpInv none s)
    (havail : 0 < s.cores.nrAvailCores) : ¬ s.NoCore := by
  rw [h.cores.nr_avail, Finset.card_pos] at havail
  obtain ⟨core, hcore⟩ := havail
  rw [not_noCore_iff]
  exact ⟨core, .inl (Finset.mem_filter.mp hcore).2⟩

theorem Crowded.not_noCore {k j : Nat} (hs : Crowded s k j) (h : DpInv none s)
    (hj : j < k) : ¬ s.NoCore := by
  have hbusy : s.cores.awaitedCores.card < s.cores.busyCores.card := by
    have hcount := h.busy_add_avail
    have hidle := hs.idle
    rw [hs.awaited]
    omega
  obtain ⟨core, hcore, hnot⟩ := Finset.exists_mem_notMem_of_card_lt_card hbusy
  obtain ⟨hlt, honline, hfree⟩ := Finset.mem_filter.mp hcore
  obtain ⟨cur, hcur, hparked, _⟩ := h.cores.busy core honline hfree
  have hclient := (h.threads.live cur hparked).1.resolve_right (by simp)
  have hactive := (h.threads.mem_active cur.p cur).mpr ⟨rfl, hparked⟩
  have hbursting : s.lists.bursting cur.p = true := by
    rw [h.lists.bursting_iff cur.p hclient, hs.holders core cur hfree hcur]
    exact List.length_pos_of_mem hactive
  have hnext : s.cores.next core = none := by
    by_contra hsome
    exact hnot (mem_awaitedCores.mpr
      ⟨Finset.mem_range.mp hlt, Option.isSome_iff_ne_none.mpr hsome⟩)
  rw [not_noCore_iff]
  exact ⟨core, .inr (preemptible_iff.mpr ⟨cur, hcur, hbursting, hnext⟩)⟩

theorem create_reach (hs : (dpOn π cpuCount usable).Reach withinCores s)
    (hp : p ∉ s.procs.created) {g : Nat}
    (hg : g + nrGuaranteed s ≤ s.cores.online.card) :
    (dpOn π cpuCount usable).Reach withinCores
      (s.controlCreateProc p (oneThread g)) := by
  apply System.Reach.step (a := .create p (oneThread g)) hs
  · exact hg
  · apply dpNext_iff.mpr
    have hok : p ∉ s.procs.created ∧ 0 < (oneThread g).threadCount ∧
        (oneThread g).threadCount ≤ ncpu :=
      ⟨hp, Nat.one_pos, (by decide : 1 ≤ ncpu)⟩
    simp only [dpStep, if_pos hok]

def newcomer (s : Dataplane π) (p : π) (g : Nat) : Dataplane π :=
  ((s.controlCreateProc p (oneThread g)).pushClient p).resetProc p

theorem newcomer_starts (hcpus : cpuCount ≤ ncpu)
    (hs : (dpOn π cpuCount usable).Reach withinCores s)
    (hp : p ∉ s.procs.created) {g : Nat}
    (hg : g + nrGuaranteed s ≤ s.cores.online.card) (hcore : ¬ s.NoCore)
    (hroom : s.poll.ts.length < ncpu)
    (hclients : s.procs.clients.length < hwallocdMaxProc) :
    ∃ t r, (dpOn π cpuCount usable).Reach withinCores t ∧
      CoreAdded (newcomer s p g) p t r := by
  have hcreated := create_reach hs hp hg
  obtain ⟨h, _⟩ := dpOn_inv hcpus hcreated
  have hpending : p ∈ (s.controlCreateProc p (oneThread g)).procs.pending :=
    List.mem_cons_self
  have hthreads :
      0 < (s.controlCreateProc p (oneThread g)).procs.threadCount p := by
    change 0 < update s.procs.threadCount p 1 p
    rw [update_self]
    exact Nat.one_pos
  obtain ⟨t, ht⟩ := (h.add_iff hpending hthreads).mpr
    ⟨hcore, hroom, hclients⟩
  have hreach : (dpOn π cpuCount usable).Reach withinCores t :=
    .step (a := .add p) hcreated trivial (dpNext_iff.mpr ht)
  simp only [dpStep, if_pos hpending, Option.some.injEq] at ht
  obtain ⟨_, _, r, hadded⟩ :=
    (dpClientsAddClient_added h hpending).of_ok ht
  exact ⟨t, r, hreach, hadded⟩

theorem newcomer_active (s : Dataplane π) (p : π) (g : Nat) :
    ((newcomer s p g).threads.activeThreads p).length ≠
      (newcomer s p g).procs.threadCount p := by
  change (update s.threads.activeThreads p [] p).length ≠
    update s.procs.threadCount p 1 p
  simp

theorem newcomer_overruns (hclients : s.procs.clients.length < hwallocdMaxProc)
    {g : Nat} (h : DpInv none (newcomer s p g))
    (hcore : ¬ (newcomer s p g).NoCore) (hfull : s.poll.ts.length = ncpu) :
    dpStep (s.controlCreateProc p (oneThread g)) (.add p) =
      some (.error .overrun) := by
  have hpending : p ∈ (s.controlCreateProc p (oneThread g)).procs.pending :=
    List.mem_cons_self
  have hclient : p ∈ (newcomer s p g).procs.clients :=
    List.mem_append_right _ (by simp)
  have hadd := coresAddCore_meets h hclient
  have hstep : dpStep (s.controlCreateProc p (oneThread g)) (.add p) =
      some (((newcomer s p g).coresAddCore p).map Prod.fst) := by
    simp only [dpStep, if_pos hpending]
    exact congrArg some (if_pos hclients)
  rw [hstep]
  cases hresult : (newcomer s p g).coresAddCore p with
  | error f =>
    rcases hadd.of_error hresult with ⟨_, hnone⟩ | ⟨rfl, _⟩
    · exact absurd hnone hcore
    · rfl
  | ok r =>
    obtain ⟨t, r⟩ := r
    have hroom : (newcomer s p g).poll.ts.length < ncpu := by
      cases (hadd.of_ok hresult).2 with
      | full hactive => exact absurd hactive (newcomer_active s p g)
      | granted _ _ _ hgranted => exact hgranted.room
      | preempted _ _ _ _ _ _ _ hpreempted => exact hpreempted.room
    exact absurd hfull hroom.ne

theorem newcomer_nrGuaranteed (hp : p ∉ s.procs.created) (g : Nat) :
    nrGuaranteed (newcomer s p g) = g + nrGuaranteed s := by
  have hothers : ∀ q ∈ s.procs.created,
      update s.procs.guaranteedCores p g q =
        s.procs.guaranteedCores q := by
    intro q hq
    apply update_of_ne
    rintro rfl
    exact hp hq
  change ((p :: s.procs.created).map
    (update s.procs.guaranteedCores p g)).sum = _
  rw [List.map_cons, List.sum_cons, update_self, List.map_congr_left hothers]
  rfl

theorem newcomer_holders (h : DpInv none s) (hp : p ∉ s.procs.created)
    {cur : ThreadRef π} (hcur : s.cores.current core = some cur) (g : Nat) :
    (newcomer s p g).procs.guaranteedCores cur.p =
      s.procs.guaranteedCores cur.p := by
  apply update_of_ne
  rintro rfl
  exact hp (h.cores.known core cur (.inl hcur)).1

theorem Crowded.newcomer {k j g : Nat} (hs : Crowded s k j)
    (hp : p ∉ s.procs.created) (hprocs : t.procs = (newcomer s p g).procs) :
    t.procs.clients.length = k + j + 1 ∧ nrGuaranteed t = g + j := by
  constructor
  · rw [hprocs, ← hs.clients]
    exact List.length_append
  · have hsum := newcomer_nrGuaranteed hp g
    unfold nrGuaranteed at hsum ⊢
    rw [hprocs, hsum]
    exact congrArg (g + ·) hs.guaranteed

theorem Crowded.granted {k j : Nat} (hs : Crowded s k j) (h : DpInv none s)
    (hp : p ∉ s.procs.created) (havail : 0 < s.cores.nrAvailCores)
    {r : Option (ThreadRef π)}
    (hadded : CoreAdded (Hwalloc.newcomer s p 0) p t r) :
    Crowded t (k + 1) j := by
  cases hadded with
  | full hfull => exact absurd hfull (newcomer_active s p 0)
  | @granted th core _ hcore hthp _ hgranted =>
    obtain ⟨hprocs, hcores, _, _, _⟩ := hgranted
    obtain ⟨hclients, hsum⟩ := hs.newcomer hp hprocs
    constructor
    · omega
    · omega
    · have hidle := hs.idle
      rw [hcores]
      change s.cores.nrAvailCores - 1 + (k + 1) = s.cores.online.card
      omega
    · have hnext : s.cores.next core = none := h.cores.avail_next core hcore
      rw [← hs.awaited, hcores]
      change ((Finset.range ncpu).filter fun d =>
        (update s.cores.next core none d).isSome = true).card = _
      rw [← hnext, update_eq_self]
      rfl
    · intro d cur hbusy hcur
      rw [hcores] at hbusy hcur
      rw [hprocs]
      rcases eq_or_ne d core with rfl | hne
      · obtain rfl : th = cur := by
          simpa [CoreTable.reserve] using hcur
        rw [hthp]
        exact update_self ..
      · simp only [CoreTable.reserve, update_of_ne hne]
          at hbusy hcur
        rw [newcomer_holders h hp hcur]
        exact hs.holders d cur hbusy hcur
  | preempted hnone => exact absurd hnone havail.ne'

theorem Crowded.preempted {k j : Nat} (hs : Crowded s k j) (h : DpInv none s)
    (hp : p ∉ s.procs.created) (hnone : s.cores.nrAvailCores = 0)
    {r : Option (ThreadRef π)}
    (hadded : CoreAdded (Hwalloc.newcomer s p 1) p t r) :
    Crowded t k (j + 1) := by
  cases hadded with
  | full hfull => exact absurd hfull (newcomer_active s p 1)
  | granted hcore => exact absurd hnone (h.avail_pos hcore).ne'
  | @preempted th cur core _ _ honline hcur _ hnext _ _ hpreempted =>
    obtain ⟨hprocs, hcores, _, _, _⟩ := hpreempted
    obtain ⟨hclients, hsum⟩ := hs.newcomer hp hprocs
    constructor
    · omega
    · omega
    · rw [hcores]
      exact hs.idle
    · have hlt : core < ncpu := h.cores.core_lt honline
      have hfresh : core ∉ s.cores.awaitedCores := by
        intro hmem
        have hsome := (mem_awaitedCores.mp hmem).2
        rw [show s.cores.next core = none from hnext] at hsome
        cases hsome
      have hinsert : t.cores.awaitedCores =
          insert core s.cores.awaitedCores := by
        ext d
        rw [hcores, Finset.mem_insert, mem_awaitedCores, mem_awaitedCores]
        rcases eq_or_ne d core with rfl | hne
        · simp [CoreTable.beginPreempt, hlt]
        · simp only [CoreTable.beginPreempt, update_of_ne hne, hne, false_or]
          rfl
      rw [hinsert, Finset.card_insert_of_notMem hfresh, hs.awaited]
    · intro d cur hbusy hcur
      rw [hcores] at hbusy hcur
      rw [hprocs, newcomer_holders h hp hcur]
      exact hs.holders d cur hbusy hcur

theorem dpOn_online_card (hcpus : cpuCount ≤ ncpu)
    (hs : (dpOn π cpuCount usable).Reach withinCores s) :
    s.cores.online.card = (List.range cpuCount).countP usable := by
  obtain ⟨_, _, honline⟩ := dpOn_inv hcpus hs
  rw [← coresInit_online_card (π := π) hcpus]
  unfold CoreTable.online
  rw [honline]

omit [DecidableEq π] in
theorem boot_crowded (hcpus : cpuCount ≤ ncpu) :
    Crowded (Dataplane.boot cpuCount usable : Dataplane π) 0 0 := by
  have hinit := coresInit_ok (π := π) hcpus usable
  constructor
  · rfl
  · rfl
  · change (coresInit cpuCount usable : CoreTable π).nrAvailCores + 0 =
      (coresInit cpuCount usable : CoreTable π).online.card
    rw [coresInit_nrAvail, coresInit_online_card hcpus, add_zero]
  · apply Finset.card_eq_zero.mpr
    apply Finset.filter_eq_empty_iff.mpr
    intro core _
    change ¬ ((coresInit cpuCount usable : CoreTable π).next core).isSome =
      true
    simp [hinit.next core]
  · intro core cur _ hcur
    have hnone : (none : Option (ThreadRef π)) = some cur :=
      (hinit.current core).symm.trans hcur
    cases hnone

variable [Infinite π]

omit [DecidableEq π] in
theorem exists_new (s : Dataplane π) : ∃ p, p ∉ s.procs.created := by
  classical
  obtain ⟨p, hp⟩ := Infinite.exists_notMem_finset s.procs.created.toFinset
  exact ⟨p, by simpa using hp⟩

theorem holders_reach (hcpus : cpuCount ≤ ncpu) (k : Nat)
    (hk : k ≤ (List.range cpuCount).countP usable) :
    ∃ s, (dpOn π cpuCount usable).Reach withinCores s ∧ Crowded s k 0 := by
  have hcount : (List.range cpuCount).countP usable ≤ cpuCount := by
    simpa using List.countP_le_length (p := usable) (l := List.range cpuCount)
  have hmax : ncpu ≤ hwallocdMaxProc := by decide
  induction k with
  | zero => exact ⟨_, .init rfl, boot_crowded hcpus⟩
  | succ k ih =>
    obtain ⟨s, hs, hcrowded⟩ := ih (by omega)
    obtain ⟨h, _⟩ := dpOn_inv hcpus hs
    obtain ⟨p, hp⟩ := exists_new s
    have honline := dpOn_online_card hcpus hs
    have hidle := hcrowded.idle
    have havail : 0 < s.cores.nrAvailCores := by omega
    have hpolled := hcrowded.polled h
    obtain ⟨t, r, ht, hadded⟩ := newcomer_starts hcpus hs hp (g := 0)
      (by rw [hcrowded.guaranteed]; omega) (h.not_noCore_of_avail havail)
      (by omega) (by rw [hcrowded.clients]; omega)
    exact ⟨t, ht, hcrowded.granted h hp havail hadded⟩

theorem promises_reach (hcpus : cpuCount ≤ ncpu) (j : Nat)
    (hj : j ≤ (List.range cpuCount).countP usable)
    (hroom : (List.range cpuCount).countP usable + j ≤ ncpu) :
    ∃ s, (dpOn π cpuCount usable).Reach withinCores s ∧
      Crowded s ((List.range cpuCount).countP usable) j := by
  have hmax : ncpu ≤ hwallocdMaxProc := by decide
  induction j with
  | zero => exact holders_reach hcpus _ le_rfl
  | succ j ih =>
    obtain ⟨s, hs, hcrowded⟩ := ih (by omega) (by omega)
    obtain ⟨h, _⟩ := dpOn_inv hcpus hs
    obtain ⟨p, hp⟩ := exists_new s
    have honline := dpOn_online_card hcpus hs
    have hidle := hcrowded.idle
    have hnone : s.cores.nrAvailCores = 0 := by omega
    have hpolled := hcrowded.polled h
    obtain ⟨t, r, ht, hadded⟩ := newcomer_starts hcpus hs hp (g := 1)
      (by rw [hcrowded.guaranteed]; omega)
      (hcrowded.not_noCore h (by omega)) (by omega)
      (by rw [hcrowded.clients]; omega)
    exact ⟨t, ht, hcrowded.preempted h hp hnone hadded⟩

/-- With more than half of `NCPU` cores online, a client whose guarantee fits
has a thread written behind the end of `ts`. -/
theorem overrun_reach (hcpus : cpuCount ≤ ncpu)
    (hmany : ncpu < 2 * (List.range cpuCount).countP usable) :
    ∃ s a, (dpOn π cpuCount usable).Reach withinCores s ∧
      withinCores s a ∧ PollWrites s a ncpu ∧
      dpStep s a = some (.error .overrun) := by
  have hcount : (List.range cpuCount).countP usable ≤ cpuCount := by
    simpa using List.countP_le_length (p := usable) (l := List.range cpuCount)
  have hmax : ncpu < hwallocdMaxProc := by decide
  have hpromised : ncpu - (List.range cpuCount).countP usable ≤
      (List.range cpuCount).countP usable := by omega
  obtain ⟨s, hs, hcrowded⟩ := promises_reach (π := π) hcpus _ hpromised
    (by omega)
  obtain ⟨h, _⟩ := dpOn_inv hcpus hs
  obtain ⟨p, hp⟩ := exists_new s
  have honline := dpOn_online_card hcpus hs
  have hguaranteed : 1 + nrGuaranteed s ≤ s.cores.online.card := by
    rw [hcrowded.guaranteed]
    omega
  have hcreated := create_reach hs hp hguaranteed
  obtain ⟨h', _⟩ := dpOn_inv hcpus hcreated
  have hpending : p ∈ (s.controlCreateProc p (oneThread 1)).procs.pending :=
    List.mem_cons_self
  have hroom : s.procs.clients.length < hwallocdMaxProc := by
    rw [hcrowded.clients]
    omega
  have hfirst := CoreTable.first_online (c := s.cores) (by omega)
  have hreset : DpInv none (newcomer s p 1) := h'.reset hpending (.inr hfirst)
  have hclient : p ∈ (newcomer s p 1).procs.clients :=
    List.mem_append_right _ (by simp)
  have hcore : ¬ (newcomer s p 1).NoCore := by
    intro hnone
    exact hcrowded.not_noCore h (by omega)
      ((h'.reset_noCore hpending).mp hnone)
  obtain ⟨th, t, hadds, hpoll, hunpolled⟩ :=
    hreset.addReserves hclient (newcomer_active s p 1) hcore
  have hpolled : s.poll.ts.length = ncpu := by
    rw [hcrowded.polled h]
    omega
  refine ⟨_, .add p, hcreated, trivial, ⟨th, t, ?_, ?_, ?_⟩, ?_⟩
  · exact .added (.add hpending hroom) hadds
  · rw [hpoll]
    exact hunpolled
  · rw [hpoll]
    exact hpolled
  · exact newcomer_overruns hroom hreset hcore hpolled

end Crowd

section Runs

/-- On a machine, every write to the polling array in every run of admitted
clients, park commands, packets for runtimes and reassignments stays inside it
if and only if at most half of `NCPU` cores are online. -/
theorem poll_array_bounded_iff [Infinite π] {cpuCount : Nat}
    (hcpus : cpuCount ≤ ncpu) (usable : Nat → Bool) :
    (∀ s a n, (dpOn π cpuCount usable).Reach withinCores s →
      withinCores s a → PollWrites s a n → n < ncpu) ↔
    2 * (List.range cpuCount).countP usable ≤ ncpu := by
  constructor
  · intro hbounded
    by_contra hmany
    obtain ⟨s, a, hs, ha, hwrites, _⟩ := overrun_reach (π := π) hcpus
      (not_le.mp hmany)
    exact lt_irrefl _ (hbounded s a ncpu hs ha hwrites)
  · intro hfew s a n hs _ hwrites
    obtain ⟨h, hremoved, _⟩ := dpOn_inv hcpus hs
    have hlt := hwrites.lt h hremoved
    rw [dpOn_online_card hcpus hs] at hlt
    omega

theorem poll_array_bounded_iff_four :
    4 ≤ ncpu ∧ 2 * (List.range 4).countP (fun _ => true) ≤ ncpu ∧
    ∀ s a n, (dpOn Nat 4 fun _ => true).Reach withinCores s →
      withinCores s a → PollWrites s a n → n < ncpu :=
  ⟨by decide, by decide,
    (poll_array_bounded_iff (by decide) _).mpr (by decide)⟩

/-- All 256 cores are on one package, and the daemon keeps two of them: clients
whose guarantees add up to less than the other 254 have a thread written behind
the end of `ts`. -/
theorem poll_array_overrun :
    ∃ s a, (dpOn Nat 256 fun core => decide (2 ≤ core)).Reach withinCores s ∧
      withinCores s a ∧ PollWrites s a 256 ∧
      dpStep s a = some (.error .overrun) := by
  have hcount :
      (List.range (2 + 254)).countP (fun core => decide (2 ≤ core)) = 254 := by
    rw [List.range_add]
    simp [comp_def]
  apply overrun_reach
  · decide
  · rw [show (256 : Nat) = 2 + 254 from rfl, hcount]
    decide

end Runs

end Libut.Hwalloc
