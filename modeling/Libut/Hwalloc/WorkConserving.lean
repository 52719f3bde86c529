import Libut.Hwalloc.DataplaneRuns

/-!
Whether cores lie idle while a proc that wants one has a kthread to run on it.
`cores_adjust_assignments` goes through all overloaded procs and leaves no such
core. A core that is given up between two adjustments is offered to one proc
only: to the last user of the core, the one before, or the head of the list.
-/

namespace Libut.Hwalloc

open Function Machine Base

variable {π : Type} [DecidableEq π] {s t u : Dataplane π} {th : ThreadRef π}
  {p q : π} {core : Nat}

def Dataplane.Full (s : Dataplane π) (p : π) : Prop :=
  (s.threads.activeThreads p).length = s.procs.threadCount p

instance (s : Dataplane π) (p : π) : Decidable (s.Full p) :=
  inferInstanceAs (Decidable (_ = _))

def Dataplane.AllFull (s : Dataplane π) : Prop :=
  ∀ p ∈ s.lists.overloadedProcs, s.Full p

/-- While a core is idle, every overloaded proc uses all its kthreads. -/
def WorkConserving (s : Dataplane π) : Prop :=
  0 < s.cores.nrAvailCores → s.AllFull

def Dataplane.Wanting (s : Dataplane π) (p : π) : Prop :=
  s.lists.overloaded p = true ∧ ¬ s.Full p

def Dataplane.heir (s : Dataplane π) (core : Nat) : Option π :=
  ((s.wantsCore (s.cores.current core)).or
    (s.wantsCore (s.cores.prev core))).or s.lists.overloadedProcs.head?

section Overloaded

/-!
What the functions of `cores.c` do to the overloaded flags.
-/

theorem procSetBursting_overloaded (l : ProcLists π) (p : π) :
    (l.procSetBursting p).overloaded = l.overloaded := by
  unfold ProcLists.procSetBursting
  split <;> rfl

theorem procClearBursting_overloaded (l : ProcLists π) (p : π) :
    (l.procClearBursting p).overloadedProcs = l.overloadedProcs ∧
      (l.procClearBursting p).overloaded = l.overloaded := by
  unfold ProcLists.procClearBursting
  split <;> exact ⟨rfl, rfl⟩

theorem pollThread_lists (s : Dataplane π) (th : ThreadRef π) :
    Meets anyFailure (s.pollThread th) fun t => t.lists = s.lists := by
  unfold Dataplane.pollThread
  split_ifs
  · trivial
  · trivial
  · trivial

theorem threadReserve_overloaded (s : Dataplane π) (th : ThreadRef π)
    (core : Nat) :
    Meets anyFailure (s.threadReserve th core) fun t =>
      t.lists.overloaded =
        update s.lists.overloaded th.p false := by
  unfold Dataplane.threadReserve
  apply (pollThread_lists _ th).imp
  intro t ht
  rw [ht, procClearOverloaded_overloaded]
  split
  · rw [procSetBursting_overloaded]
  · rfl

theorem threadCede_overloaded (s : Dataplane π) (th : ThreadRef π) :
    Meets anyFailure (s.threadCede th) fun t =>
      t.lists.overloadedProcs = s.lists.overloadedProcs ∧
        t.lists.overloaded = s.lists.overloaded := by
  unfold Dataplane.threadCede
  split
  · trivial
  · have hunpoll : ∀ u : Dataplane π, (u.unpollThread th).lists = u.lists := by
      intro u
      unfold Dataplane.unpollThread
      split <;> rfl
    simp only [meets_ok, hunpoll]
    split
    · exact procClearBursting_overloaded s.lists th.p
    · exact ⟨rfl, rfl⟩

theorem wakeKthreadOnCore_overloaded (s : Dataplane π) (th : ThreadRef π)
    (core : Nat) (hparked : s.threads.parked th = true) :
    Meets anyFailure (s.wakeKthreadOnCore th core) fun t =>
      t.lists.overloaded =
        update s.lists.overloaded th.p false := by
  have hreserve : Meets anyFailure (s.coreReserve core th) fun t =>
      t.lists = s.lists ∧ t.threads = s.threads := by
    unfold Dataplane.coreReserve
    split_ifs
    · trivial
    · exact ⟨rfl, rfl⟩
  unfold Dataplane.wakeKthreadOnCore
  split_ifs
  · trivial
  · apply hreserve.bind
    rintro u ⟨hlists, hthreads⟩
    rw [hthreads, if_pos hparked]
    apply (threadReserve_overloaded u th core).bind
    intro t ht
    change t.lists.overloaded = _
    rw [ht, hlists]

end Overloaded

section Waiting

theorem DpInv.allFull_iff (h : DpInv none s) :
    s.AllFull ↔ ∀ p, ¬ s.Wanting p := by
  unfold Dataplane.AllFull Dataplane.Wanting
  simp only [h.lists.overloaded.mem_iff, not_and, not_not]

def Dataplane.Served (s : Dataplane π) : Prop :=
  0 < s.cores.nrAvailCores → ∀ p, ¬ s.Wanting p

theorem DpInv.workConserving_iff (h : DpInv none s) :
    WorkConserving s ↔ s.Served := by
  unfold WorkConserving Dataplane.Served
  rw [h.allFull_iff]

section

omit [DecidableEq π]

theorem SameAlloc.trans (h : SameAlloc s t) (h' : SameAlloc t u) :
    SameAlloc s u :=
  ⟨h'.procs.trans h.procs, h'.lists.trans h.lists,
    h'.threads.trans h.threads, h'.poll.trans h.poll, h'.cores.trans h.cores⟩

theorem served_of_none (hnone : s.cores.nrAvailCores = 0) : s.Served :=
  fun hpos => absurd hnone hpos.ne'

theorem SameAlloc.served_iff (h : SameAlloc s t) : t.Served ↔ s.Served := by
  unfold Dataplane.Served Dataplane.Wanting Dataplane.Full
  rw [h.cores, h.lists, h.threads, h.procs]

end

theorem DpInv.active_subperm (h : DpInv none s) (p : π) :
    (s.threads.activeThreads p).Subperm
      (procThreads p (s.procs.threadCount p)) := by
  apply (h.threads.active p).nodup.subperm
  intro th hth
  obtain ⟨rfl, hparked⟩ := (h.threads.mem_active p th).mp hth
  exact mem_procThreads.mpr ⟨rfl, (h.threads.live th hparked).2⟩

theorem DpInv.active_le (h : DpInv none s) (p : π) :
    (s.threads.activeThreads p).length ≤ s.procs.threadCount p := by
  have hle := (h.active_subperm p).length_le
  simpa [procThreads] using hle

theorem DpInv.pickThread_full (h : DpInv none s) (hp : p ∈ s.procs.clients)
    (hfull : s.Full p) (core : Nat) : s.pickThread p core = none := by
  cases hpick : s.pickThread p core with
  | none => rfl
  | some th =>
    obtain ⟨hthp, hidx, hparked⟩ := pickThread_parked h hp hpick
    have hle : (procThreads p (s.procs.threadCount p)).length ≤
        (s.threads.activeThreads p).length := by
      rw [show (s.threads.activeThreads p).length = _ from hfull]
      simp [procThreads]
    have hperm := (h.active_subperm p).perm_of_length_le hle
    have hactive : th ∈ s.threads.activeThreads p :=
      hperm.mem_iff.mpr (mem_procThreads.mpr ⟨hthp, hidx⟩)
    have hrunning := ((h.threads.mem_active p th).mp hactive).2
    exact Bool.noConfusion (hparked.symm.trans hrunning)

end Waiting

section Add

/-- While a core is idle, `cores_add_core` wakes a kthread of the proc on one,
unless the proc uses them all. -/
theorem coresAddCore_overloaded (h : DpInv none s) (hp : p ∈ s.procs.clients)
    (havail : 0 < s.cores.nrAvailCores) :
    Meets anyFailure (s.coresAddCore p) fun r =>
      r.2 ≠ none → r.1.lists.overloaded =
        update s.lists.overloaded p false := by
  unfold Dataplane.coresAddCore
  split_ifs with hfull
  · exact fun hnone => absurd rfl hnone
  · have h₀ : DpInv none
        { s with pendingTimer := update s.pendingTimer p false } :=
      { h with }
    have hidle := h.idle_ne_nil hp hfull
    apply (pickCoreForProc_meets h₀ hp hidle).succeeds.bind
    rintro core ⟨_, hbursting⟩
    have hcore : s.cores.availCores core = true := by
      by_contra hbusy
      have hnone := (hbursting (by simpa using hbusy)).1
      exact havail.ne' hnone
    obtain ⟨th, hpick⟩ := pickThread_isSome
      (s := { s with pendingTimer := update s.pendingTimer p false })
      hidle core
    obtain ⟨rfl, _, hparked⟩ := pickThread_parked h₀ hp hpick
    simp only [Dataplane.pickThreadForProc, hpick]
    split_ifs
    · trivial
    · refine (wakeKthreadOnCore_overloaded _ th core ?_).bind ?_
      · exact hparked
      · intro t ht _
        exact ht

theorem Granted.wanting_iff (h : Granted s th core t)
    (hlists : t.lists.overloaded =
      update s.lists.overloaded th.p false) (q : π) :
    t.Wanting q ↔ q ≠ th.p ∧ s.Wanting q := by
  unfold Dataplane.Wanting Dataplane.Full
  rw [hlists, h.threads, h.procs, activate_length s.threads th core q]
  rcases eq_or_ne q th.p with rfl | hne
  · simp
  · simp [hne]

theorem coresAddCore_serves (h : DpInv none s) (hp : p ∈ s.procs.clients)
    (havail : 0 < s.cores.nrAvailCores) :
    Meets anyFailure (s.coresAddCore p) fun r =>
      (∀ q, r.1.Wanting q ↔ q ≠ p ∧ s.Wanting q) ∧
      (¬ s.Full p → r.1.cores.nrAvailCores + 1 = s.cores.nrAvailCores) := by
  apply ((coresAddCore_meets h hp).succeeds.and
    (coresAddCore_overloaded h hp havail)).imp
  rintro ⟨t, r⟩ ⟨⟨_, hadded⟩, hlists⟩
  have hnever : s.Full p → ¬ s.Wanting p := fun hfull hwants =>
    hwants.2 hfull
  cases hadded with
  | full hfull =>
    refine ⟨fun q => ⟨fun hq => ⟨?_, hq⟩, And.right⟩, fun hnot => ?_⟩
    · rintro rfl
      exact hnever hfull hq
    · exact absurd hfull hnot
  | @granted th core _ _ hthp _ hgranted =>
    subst hthp
    refine ⟨hgranted.wanting_iff (hlists (by simp)), fun _ => ?_⟩
    rw [hgranted.cores]
    exact Nat.sub_add_cancel havail
  | preempted hnone => exact absurd hnone havail.ne'

theorem coresAddCore_none (h : DpInv none s) (hp : p ∈ s.procs.clients)
    (hnone : s.cores.nrAvailCores = 0) :
    Meets anyFailure (s.coresAddCore p) fun r =>
      r.1.cores.nrAvailCores = 0 := by
  apply (coresAddCore_meets h hp).succeeds.imp
  rintro ⟨t, r⟩ ⟨_, hadded⟩
  cases hadded with
  | full => exact hnone
  | granted _ _ _ hgranted =>
    rw [hgranted.cores]
    change s.cores.nrAvailCores - 1 = 0
    omega
  | preempted _ _ _ _ _ _ _ hpreempted =>
    rw [hpreempted.cores]
    exact hnone

theorem coresAddCore_served (h : DpInv none s) (hp : p ∈ s.procs.clients)
    (hserved : s.Served) :
    Meets anyFailure (s.coresAddCore p) fun r => r.1.Served := by
  rcases Nat.eq_zero_or_pos s.cores.nrAvailCores with hnone | havail
  · apply (coresAddCore_none h hp hnone).imp
    intro r hr hpos
    exact absurd hr hpos.ne'
  · apply (coresAddCore_serves h hp havail).imp
    rintro r ⟨hwants, _⟩ _ q hq
    exact hserved havail q ((hwants q).mp hq).2

end Add

section Calls

variable (hash : BitVec 32) (cmd payload : BitVec 64) (mem : LrpcMem)

/-- What `rx_send_to_runtime` does to the allocator: nothing if the proc runs
somewhere, otherwise it adds a core or, when it finds none idle, marks the proc
overloaded. -/
theorem rxSendToRuntime_alloc {post : Dataplane π → Prop}
    (hpost : ∀ {t u}, post t → SameAlloc t u → post u)
    (hactive : s.threads.activeThreads p ≠ [] → post s)
    (hadds : s.threads.activeThreads p = [] →
      Meets anyFailure (s.coresAddCore p) fun r => post r.1)
    (hmarks : s.threads.activeThreads p = [] → s.cores.nrAvailCores = 0 →
      post { s with lists := s.lists.procSetOverloaded p }) :
    Meets anyFailure (s.rxSendToRuntime p hash cmd payload mem)
      fun r => post r.1 := by
  have htarget : Meets anyFailure (s.rxTarget p hash)
      fun r => post r.1 := by
    unfold Dataplane.rxTarget
    simp only
    split
    · rename_i hslot
      apply hactive
      rintro hnil
      simp [hnil] at hslot
    · rename_i hslot
      split_ifs with hcores
      · exact hadds (no_active_of_slot hslot)
      · split
        · trivial
        · apply hmarks (no_active_of_slot hslot)
          omega
  rw [rxSendToRuntime_eq]
  apply Meets.map
  apply htarget.imp
  rintro ⟨t, r⟩ ht
  cases r with
  | none => exact ht
  | some th => exact hpost ht (rxqSend_same ..).toSameAlloc

theorem rxSendToRuntime_served (h : DpInv none s) (hp : p ∈ s.procs.clients)
    (hserved : s.Served) :
    Meets anyFailure (s.rxSendToRuntime p hash cmd payload mem)
      fun r => r.1.Served := by
  apply rxSendToRuntime_alloc
  · exact fun ht hsame => hsame.served_iff.mpr ht
  · exact fun _ => hserved
  · exact fun _ => coresAddCore_served h hp hserved
  · exact fun _ hnone => served_of_none hnone

theorem rxSendToRuntime_repairs (h : DpInv none s) (hp : p ∈ s.procs.clients)
    (hidle : s.threads.activeThreads p = [])
    (hcount : 0 < s.procs.threadCount p)
    (hown : s.cores.nrAvailCores = 1 ∨ ∀ q, s.Wanting q → q = p) :
    Meets anyFailure (s.rxSendToRuntime p hash cmd payload mem)
      fun r => r.1.Served := by
  have hnot : ¬ s.Full p := by
    unfold Dataplane.Full
    rw [hidle]
    exact hcount.ne
  apply rxSendToRuntime_alloc
  · exact fun ht hsame => hsame.served_iff.mpr ht
  · exact fun hactive => absurd hidle hactive
  · intro _
    rcases Nat.eq_zero_or_pos s.cores.nrAvailCores with hnone | havail
    · exact (coresAddCore_none h hp hnone).imp fun _ => served_of_none
    · apply (coresAddCore_serves h hp havail).imp
      rintro r ⟨hwants, hgranted⟩ hpos q hq
      obtain ⟨hne, hq'⟩ := (hwants q).mp hq
      rcases hown with hone | hown
      · have hless := hgranted hnot
        omega
      · exact hne (hown q hq')
  · exact fun _ hnone => served_of_none hnone

theorem rxSendToRuntime_active (hactive : s.threads.activeThreads p ≠ []) :
    Meets anyFailure (s.rxSendToRuntime p hash cmd payload mem)
      fun r => SameAlloc s r.1 := by
  apply rxSendToRuntime_alloc
  · exact fun ht hsame => ht.trans hsame
  · exact fun _ => ⟨rfl, rfl, rfl, rfl, rfl⟩
  · exact fun hidle => absurd hidle hactive
  · exact fun hidle => absurd hidle hactive

/-- The second loop of `cores_adjust_assignments` serves everyone on its list
as long as there are cores. -/
theorem grantCores_served {l : List π} (h : DpInv none s)
    (hl : ∀ p ∈ l, p ∈ s.procs.clients) (hwaits : ∀ p, s.Wanting p → p ∈ l) :
    Meets anyFailure (s.grantCores l) Dataplane.Served := by
  induction l generalizing s with
  | nil => exact fun _ p hp => absurd (hwaits p hp) List.not_mem_nil
  | cons p rest ih =>
    unfold Dataplane.grantCores
    split_ifs with hnone
    · exact served_of_none hnone
    · have hclient := hl p List.mem_cons_self
      have hserves := coresAddCore_serves h hclient
        (Nat.pos_of_ne_zero hnone)
      apply ((coresAddCore_meets h hclient).succeeds.and hserves).bind
      rintro ⟨t, r⟩ ⟨⟨ht, hadded⟩, hwants, _⟩
      apply ih ht
      · intro q hq
        rw [hadded.procs]
        exact hl q (List.mem_cons_of_mem p hq)
      · intro q hq
        obtain ⟨hne, hq'⟩ := (hwants q).mp hq
        exact (List.mem_cons.mp (hwaits q hq')).resolve_left hne

theorem coresAdjustAssignments_served (h : DpInv none s) (obs : Observed π) :
    Meets anyFailure (s.coresAdjustAssignments obs) Dataplane.Served := by
  have hI := (kept_callInv s).adjusts obs
  have hfirst := hI.adjustClients ⟨h, rfl⟩ fun p hp => hp
  unfold Dataplane.coresAdjustAssignments
  apply hfirst.succeeds.bind
  rintro t ⟨ht, hprocs⟩
  apply grantCores_served ht
  · intro p hp
    exact ht.lists.overloaded_client p ((ht.lists.overloaded.mem_iff p).mp hp)
  · intro p hp
    exact (ht.lists.overloaded.mem_iff p).mpr hp.1

omit [DecidableEq π] in
theorem served_of_new (hserved : s.Served)
    (hcores : t.cores.nrAvailCores = s.cores.nrAvailCores)
    (hown : t.lists.overloaded p = false)
    (hothers : ∀ q ≠ p, t.lists.overloaded q = s.lists.overloaded q ∧
      t.threads.activeThreads q = s.threads.activeThreads q ∧
      t.procs.threadCount q = s.procs.threadCount q) : t.Served := by
  intro hpos q hq
  rw [hcores] at hpos
  rcases eq_or_ne q p with rfl | hne
  · exact Bool.noConfusion (hown.symm.trans hq.1)
  · obtain ⟨hflag, hactive, hcount⟩ := hothers q hne
    apply hserved hpos q
    unfold Dataplane.Wanting Dataplane.Full at hq ⊢
    rwa [hflag, hactive, hcount] at hq

theorem controlCreateProc_served (h : DpInv none s) (hp : p ∉ s.procs.created)
    (hserved : s.Served) (cfg : ProcConfig) :
    (s.controlCreateProc p cfg).Served := by
  have hclient : p ∉ s.procs.clients := fun hmem =>
    hp (h.procs.clients_created p hmem)
  apply served_of_new hserved
  · rfl
  · exact h.overloaded_of_not_client hclient
  · intro q hne
    exact ⟨rfl, rfl, update_of_ne hne ..⟩

theorem dpClientsAddClient_served (h : DpInv none s)
    (hpending : p ∈ s.procs.pending) (hserved : s.Served) :
    Meets anyFailure (s.dpClientsAddClient p) Dataplane.Served := by
  have hreset : ((s.pushClient p).resetProc p).Served := by
    apply served_of_new hserved
    · rfl
    · exact update_self ..
    · intro q hne
      exact ⟨update_of_ne hne .., update_of_ne hne .., rfl⟩
  apply Meets.succeeds
  apply dpClientsAddClient_adds h hpending
  intro h₁
  have hclient : p ∈ ((s.pushClient p).resetProc p).procs.clients :=
    List.mem_append_right _ (by simp)
  apply (((coresAddCore_meets h₁ hclient).weaken
    Dataplane.Starved.exhausted).and
    (coresAddCore_served h₁ hclient hreset)).imp
  exact fun _ hr => hr.2

end Calls

section Park

theorem heir_overloaded (h : DpInv none s) (hq : s.heir core = some q) :
    s.lists.overloaded q = true := by
  rcases Option.or_eq_some_iff.mp hq with hlast | ⟨_, hhead⟩
  · rcases Option.or_eq_some_iff.mp hlast with hcur | ⟨_, hprev⟩
    · exact wantsCore_overloaded hcur
    · exact wantsCore_overloaded hprev
  · exact (h.lists.overloaded.mem_iff q).mp (List.mem_of_head? hhead)

omit [DecidableEq π] in
theorem heir_running (hth : s.Running th)
    (hremoved : s.procs.removed th.p = false)
    (hover : s.lists.overloaded th.p = true) :
    s.heir (s.threads.core th) = some th.p := by
  have hwants : s.wantsCore (some th) = some th.p := by
    simp [Dataplane.wantsCore, hremoved, hover]
  simp [Dataplane.heir, hth.2, hwants]

theorem pickThreadForCore_heir (h : DpInv none s)
    (hnext : s.cores.next core = none) :
    s.pickThreadForCore core = .ok (match s.heir core with
      | none => (s, none)
      | some q => s.pickThreadForProc q core) := by
  cases hlist : s.lists.overloadedProcs with
  | nil =>
    have hnobody : s.heir core = none := by
      cases hheir : s.heir core with
      | none => rfl
      | some q =>
        have hmem := (h.lists.overloaded.mem_iff q).mpr
          (heir_overloaded h hheir)
        rw [hlist] at hmem
        exact absurd hmem List.not_mem_nil
    rw [hnobody]
    simp [Dataplane.pickThreadForCore, hnext, hlist]
  | cons top rest =>
    simp only [Dataplane.pickThreadForCore, Dataplane.heir, hnext, hlist,
      Option.filter_none, List.head?_cons]
    cases (s.wantsCore (s.cores.current core)).or
      (s.wantsCore (s.cores.prev core)) with
    | none => rfl
    | some q => rfl

inductive Offered (s : Dataplane π) (core : Nat) (t : Dataplane π) : Prop
  | refused : (∀ q ∈ s.heir core, s.Full q) → SameAlloc s t →
      Offered s core t
  | taken {th : ThreadRef π} : s.heir core = some th.p → ¬ s.Full th.p →
      Granted s th core t →
      t.lists.overloaded = update s.lists.overloaded th.p false →
      Offered s core t

theorem regrantCore_offers (h : DpInv none s)
    (hcore : s.cores.availCores core = true) :
    Meets anyFailure (s.regrantCore core) fun t => Offered s core t := by
  unfold Dataplane.regrantCore
  rw [pickThreadForCore_heir h (h.cores.avail_next core hcore)]
  cases hheir : s.heir core with
  | none =>
    apply Offered.refused
    · simp [hheir]
    · exact ⟨rfl, rfl, rfl, rfl, rfl⟩
  | some q =>
    have hclient : q ∈ s.procs.clients :=
      h.lists.overloaded_client q (heir_overloaded h hheir)
    by_cases hfull : s.Full q
    · have hnone := h.pickThread_full hclient hfull core
      simp only [Dataplane.pickThreadForProc, hnone]
      apply Offered.refused
      · simp [hheir, hfull]
      · exact ⟨rfl, rfl, rfl, rfl, rfl⟩
    · obtain ⟨th, hpick⟩ := pickThread_isSome (h.idle_ne_nil hclient hfull)
        core
      obtain ⟨rfl, hidx, hparked⟩ := pickThread_parked h hclient hpick
      have h₁ : DpInv none
          { s with launched := update s.launched th.p false } :=
        { h with }
      have hgrant := wakeKthreadOnCore_grant h₁ hcore hparked hclient hidx
      simp only [Dataplane.pickThreadForProc, hpick]
      apply (hgrant.succeeds.and
        (wakeKthreadOnCore_overloaded _ th core hparked)).imp
      rintro t ⟨⟨_, hprocs, hcores, hthreads, hwakes, hroom⟩, hlists⟩
      exact .taken hheir hfull ⟨hprocs, hcores, hthreads, hwakes, hroom⟩
        hlists

structure Ceded (s : Dataplane π) (th : ThreadRef π) (t : Dataplane π) :
    Prop where
  wanting : ∀ q, t.Wanting q ↔
    s.Wanting q ∨ q = th.p ∧ s.lists.overloaded q = true
  active : (t.threads.activeThreads th.p).length + 1 =
    (s.threads.activeThreads th.p).length

theorem DpInv.ceded (h : DpInv none s) (hth : s.threads.parked th = false)
    {i : Nat} (hprocs : t.procs = s.procs)
    (hthreads : t.threads = s.threads.deactivate th i)
    (hlists : t.lists.overloaded = s.lists.overloaded) : Ceded s th t := by
  have hlen := deactivate_length (i := i) h.threads hth
  have hle := h.active_le th.p
  constructor
  · intro q
    have hq := hlen q
    unfold Dataplane.Wanting Dataplane.Full
    rw [hprocs, hthreads, hlists]
    rcases eq_or_ne q th.p with rfl | hne
    · rw [if_pos rfl] at hq
      have hnot : ((s.threads.deactivate th i).activeThreads th.p).length ≠
          s.procs.threadCount th.p := by omega
      simp only [hnot, not_false_eq_true, and_true, true_and]
      tauto
    · rw [if_neg hne, add_zero] at hq
      simp [hq, hne]
  · rw [hthreads]
    simpa using hlen th.p

inductive CorePassed (s : Dataplane π) (th : ThreadRef π) (t : Dataplane π) :
    Prop
  | handed : s.cores.next (s.threads.core th) ≠ none →
      t.cores.nrAvailCores = s.cores.nrAvailCores → Ceded s th t →
      CorePassed s th t
  | idle : s.cores.next (s.threads.core th) = none →
      (∀ q ∈ s.heir (s.threads.core th), q ≠ th.p ∧ s.Full q) →
      t.cores.nrAvailCores = s.cores.nrAvailCores + 1 → Ceded s th t →
      CorePassed s th t
  | taken {q : π} : s.cores.next (s.threads.core th) = none →
      s.heir (s.threads.core th) = some q → q = th.p ∨ ¬ s.Full q →
      t.cores.nrAvailCores = s.cores.nrAvailCores →
      (∀ r, t.Wanting r → r ≠ q ∧ (s.Wanting r ∨ r = th.p)) →
      CorePassed s th t

theorem Ceded.full_iff (h : Ceded s th t) (hq : s.lists.overloaded q = true)
    (hlists : t.lists.overloaded = s.lists.overloaded) :
    t.Full q ↔ q ≠ th.p ∧ s.Full q := by
  have hwants := h.wanting q
  simp only [Dataplane.Wanting, hlists, hq, true_and, and_true] at hwants
  tauto

theorem releaseCore_passes (h : DpInv none s) (hth : s.Running th)
    (hremoved : ∀ p, s.procs.removed p = false) :
    Meets anyFailure (s.releaseCore th (s.threads.core th)) fun t =>
      CorePassed s th t := by
  unfold Dataplane.releaseCore
  apply ((threadCede_yields h hth.1).succeeds.and
    (threadCede_overloaded _ th)).bind
  rintro s₁ ⟨hy, hlist, hflags⟩
  obtain ⟨i, hthreads⟩ := hy.threads
  have hceded : Ceded s th s₁ := h.ceded hth.1 hy.procs hthreads hflags
  cases hnext : s.cores.next (s.threads.core th) with
  | none =>
    have hheir : s₁.heir (s.threads.core th) =
        s.heir (s.threads.core th) := by
      unfold Dataplane.heir Dataplane.wantsCore
      rw [hy.cores, hy.procs, hflags, hlist]
      rfl
    have havail : s₁.cores.nrAvailCores = s.cores.nrAvailCores + 1 := by
      rw [hy.cores]
      rfl
    apply (regrantCore_offers (hy.inv h hth hnext) hy.avail).imp
    intro t hoffered
    cases hoffered with
    | refused hfull hsame =>
      apply CorePassed.idle hnext
      · intro q hq
        have hover := heir_overloaded h hq
        rw [← hheir] at hq
        exact (hceded.full_iff hover hflags).mp (hfull q hq)
      · rw [hsame.cores, havail]
      · exact h.ceded hth.1 (hsame.procs.trans hy.procs)
          (hsame.threads.trans hthreads) (by rw [hsame.lists, hflags])
    | @taken th' hq hnot hgranted htaken =>
      rw [hheir] at hq
      rw [hceded.full_iff (heir_overloaded h hq) hflags] at hnot
      apply CorePassed.taken hnext hq
      · tauto
      · rw [hgranted.cores]
        change s₁.cores.nrAvailCores - 1 = _
        omega
      · intro r hr
        obtain ⟨hne, hwants⟩ := (hgranted.wanting_iff htaken r).mp hr
        exact ⟨hne, ((hceded.wanting r).mp hwants).imp_right And.left⟩
  | some n =>
    apply (hy.regrantCore h hth.2 hnext (hremoved n.p)).succeeds.imp
    rintro _ ⟨refs, rfl⟩
    apply CorePassed.handed
    · simp [hnext]
    · change s₁.cores.nrAvailCores - 1 = _
      rw [hy.cores]
      rfl
    · exact h.ceded hth.1 hy.procs hthreads hflags

omit [DecidableEq π] in
theorem served_of_taken (hserved : s.Served)
    (hover : s.lists.overloaded q = true) (hq : q = th.p ∨ ¬ s.Full q)
    (havail : t.cores.nrAvailCores = s.cores.nrAvailCores)
    (hwants : ∀ r, t.Wanting r → r ≠ q ∧ (s.Wanting r ∨ r = th.p)) :
    t.Served := by
  intro hpos r hr
  rw [havail] at hpos
  obtain ⟨hne, hbefore | rfl⟩ := hwants r hr
  · exact hserved hpos r hbefore
  · have hnot : ¬ s.Full q := hq.resolve_left hne.symm
    exact hserved hpos q ⟨hover, hnot⟩

/-- When a park command leaves work undone, its own proc is the only one to
blame, or there is one idle core. -/
theorem CorePassed.unserved (h : DpInv none s) (hserved : s.Served)
    (hpassed : CorePassed s th t) (hnot : ¬ t.Served) :
    (t.threads.activeThreads th.p).length + 1 =
      (s.threads.activeThreads th.p).length ∧
    (t.cores.nrAvailCores = 1 ∨ ∀ q, t.Wanting q → q = th.p) := by
  have hown : 0 < s.cores.nrAvailCores → Ceded s th t →
      ∀ q, t.Wanting q → q = th.p := by
    intro hpos hceded q hq
    rcases (hceded.wanting q).mp hq with hbefore | ⟨heq, _⟩
    · exact absurd hbefore (hserved hpos q)
    · exact heq
  cases hpassed with
  | handed _ havail hceded =>
    have hpos : 0 < t.cores.nrAvailCores := by
      by_contra hnone
      exact hnot fun hpos => absurd hpos hnone
    rw [havail] at hpos
    exact ⟨hceded.active, .inr (hown hpos hceded)⟩
  | idle _ _ havail hceded =>
    refine ⟨hceded.active, ?_⟩
    rcases Nat.eq_zero_or_pos s.cores.nrAvailCores with hnone | hpos
    · left
      omega
    · exact .inr (hown hpos hceded)
  | taken _ hheir hq havail hwants =>
    exact absurd (served_of_taken hserved (heir_overloaded h hheir) hq
      havail hwants) hnot

end Park

section Commands

/-- The condition on a park command. If nobody waits for the core, there are
packets for the kthread, or the proc the core is offered to can use it, or no
proc can. If a thread does, no core is idle, or the proc of the kthread that
parks wants none. -/
def ParkKeeps (s : Dataplane π) (th : ThreadRef π) (wb : BitVec 32) : Prop :=
  if s.cores.next (s.threads.core th) = none then
    0 < lrpcGetCachedLength (lrpcPollSendTail (s.rxq th) wb) ∨
    (∀ q ∈ s.heir (s.threads.core th), q = th.p ∨ ¬ s.Full q) ∨ s.AllFull
  else s.cores.nrAvailCores = 0 ∨ s.lists.overloaded th.p = false

omit [DecidableEq π] in
theorem allFull_of_no_heir (hheir : s.heir core = none) : s.AllFull := by
  have hlist : s.lists.overloadedProcs = [] :=
    List.head?_eq_none_iff.mp (Option.or_eq_none_iff.mp hheir).2
  intro q hq
  rw [hlist] at hq
  exact absurd hq List.not_mem_nil

variable (h : DpInv none s) (hth : s.Running th)
  (hremoved : ∀ p, s.procs.removed p = false)
include h hth hremoved

theorem CorePassed.served_iff (hserved : s.Served)
    (hpassed : CorePassed s th t) {wb : BitVec 32}
    (hquiet : s.cores.next (s.threads.core th) = none →
      ¬ 0 < lrpcGetCachedLength (lrpcPollSendTail (s.rxq th) wb)) :
    t.Served ↔ ParkKeeps s th wb := by
  unfold ParkKeeps
  cases hpassed with
  | handed hnext havail hceded =>
    rw [if_neg hnext]
    unfold Dataplane.Served
    rw [havail]
    constructor
    · intro ht
      rcases Nat.eq_zero_or_pos s.cores.nrAvailCores with hnone | hpos
      · exact .inl hnone
      · right
        by_contra hover
        exact ht hpos th.p ((hceded.wanting th.p).mpr
          (.inr ⟨rfl, by simpa using hover⟩))
    · rintro (hnone | hcalm) hpos q hq
      · exact absurd hnone hpos.ne'
      · rcases (hceded.wanting q).mp hq with hbefore | ⟨rfl, hover⟩
        · exact hserved hpos q hbefore
        · exact Bool.noConfusion (hcalm.symm.trans hover)
  | idle hnext hheir havail hceded =>
    rw [if_pos hnext]
    constructor
    · intro ht
      refine .inr (.inr (h.allFull_iff.mpr fun q hq => ?_))
      exact ht (by omega) q ((hceded.wanting q).mpr (.inl hq))
    · intro hkeeps _ q hq
      have hall : s.AllFull := by
        rcases hkeeps with hraced | hfits | hall
        · exact absurd hraced (hquiet hnext)
        · cases hnone : s.heir (s.threads.core th) with
          | none => exact allFull_of_no_heir hnone
          | some r =>
            obtain ⟨hne, hfull⟩ := hheir r hnone
            exact absurd hfull ((hfits r hnone).resolve_left hne)
        · exact hall
      rcases (hceded.wanting q).mp hq with hbefore | ⟨rfl, hover⟩
      · exact h.allFull_iff.mp hall q hbefore
      · have hfirst := heir_running hth (hremoved th.p) hover
        exact (hheir th.p hfirst).1 rfl
  | @taken q hnext hheir hq havail hwants =>
    rw [if_pos hnext]
    apply iff_of_true
    · exact served_of_taken hserved (heir_overloaded h hheir) hq havail
        hwants
    · refine .inr (.inl fun r hr => ?_)
      obtain rfl : q = r := Option.some.inj (hheir.symm.trans hr)
      exact hq

theorem coresParkKthread_passes (wb : BitVec 32) :
    Meets anyFailure (s.coresParkKthread th false wb) fun r =>
      (r.2 = false ∧ s.cores.next (s.threads.core th) = none ∧
        0 < lrpcGetCachedLength (lrpcPollSendTail (s.rxq th) wb) ∧
        SameAlloc s r.1) ∨
      (r.2 = true ∧ CorePassed s th r.1 ∧
        (s.cores.next (s.threads.core th) = none →
          ¬ 0 < lrpcGetCachedLength (lrpcPollSendTail (s.rxq th) wb))) := by
  unfold Dataplane.coresParkKthread
  simp only
  split_ifs with _ _ hnext hraced
  · trivial
  · trivial
  · rw [update_self] at hraced
    exact .inl ⟨rfl, hnext.1, hraced, rfl, rfl, rfl, rfl, rfl⟩
  · rw [update_self] at hraced
    apply Meets.map
    apply Meets.imp (releaseCore_passes ?_ ?_ ?_)
    · intro t hpassed
      refine .inr ⟨rfl, ?_, fun _ => hraced⟩
      -- the cached tail of the receive queue plays no part in it
      cases hpassed with
      | handed hsome havail hceded =>
        exact .handed hsome havail ⟨hceded.wanting, hceded.active⟩
      | idle hnone hheir havail hceded =>
        exact .idle hnone hheir havail ⟨hceded.wanting, hceded.active⟩
      | taken hnone hheir hq havail hwants =>
        exact .taken hnone hheir hq havail hwants
    · exact { h with }
    · exact hth
    · exact hremoved
  · apply Meets.map
    apply (releaseCore_passes h hth hremoved).imp
    intro t hpassed
    refine .inr ⟨rfl, hpassed, fun hnone => ?_⟩
    exact absurd ⟨hnone, trivial⟩ hnext

/-- After the park, work is conserved exactly under the condition; if not, the
kthread stays parked. -/
theorem coresParkKthread_served_iff (hserved : s.Served) (wb : BitVec 32) :
    Meets anyFailure (s.coresParkKthread th false wb) fun r =>
      (r.1.Served ↔ ParkKeeps s th wb) ∧
      (¬ r.1.Served → r.2 = true ∧ (r.1.threads.activeThreads th.p).length + 1 =
          (s.threads.activeThreads th.p).length ∧
        (r.1.cores.nrAvailCores = 1 ∨ ∀ q, r.1.Wanting q → q = th.p)) := by
  apply (coresParkKthread_passes h hth hremoved wb).imp
  rintro ⟨t, stays⟩ (⟨_, hnext, hraced, hsame⟩ | ⟨hstays, hpassed, hquiet⟩)
  · have ht : t.Served := hsame.served_iff.mpr hserved
    refine ⟨iff_of_true ht ?_, fun hnot => absurd ht hnot⟩
    unfold ParkKeeps
    rw [if_pos hnext]
    exact .inl hraced
  · exact ⟨hpassed.served_iff h hth hremoved hserved hquiet,
      fun hnot => ⟨hstays, hpassed.unserved h hserved hnot⟩⟩

/-- A park command with a payload has the runtime join the kthread, which gives
a core to a proc that runs nowhere else. -/
theorem cmdParked_served_iff (hserved : s.Served) (payload : BitVec 64)
    (wb : BitVec 32) (mem : LrpcMem) :
    Meets anyFailure (s.cmdParked th payload wb mem) fun t =>
      t.Served ↔ ParkKeeps s th wb ∨
        payload ≠ 0 ∧ (s.threads.activeThreads th.p).length = 1 := by
  have hkept := coresParkKthread_kept h hth (fun n _ => hremoved n.p) wb
  have hcount : 0 < s.procs.threadCount th.p :=
    Nat.zero_lt_of_lt (h.started hth.1).2.2
  unfold Dataplane.cmdParked
  apply (hkept.succeeds.and
    (coresParkKthread_served_iff h hth hremoved hserved wb)).bind
  rintro ⟨t, stays⟩ ⟨⟨ht, hprocs⟩, hiff, hunserved⟩
  have hjoin : DpInv none { t with
      nextThreadRr := update t.nextThreadRr th.p
        (t.nextThreadRr th.p + 1) } := { ht with }
  have hclient : th.p ∈ t.procs.clients :=
    client_of_procs hprocs (h.running_client hth)
  simp only
  by_cases hts : t.Served
  · have hkeeps := hiff.mp hts
    split_ifs
    · apply Meets.map
      apply (rxSendToRuntime_served _ _ _ _ hjoin hclient hts).imp
      exact fun u hu => iff_of_true hu (.inl hkeeps)
    · exact iff_of_true hts (.inl hkeeps)
  · obtain ⟨hstays, hactive, hown⟩ := hunserved hts
    obtain rfl : stays = true := hstays
    change (t.threads.activeThreads th.p).length + 1 = _ at hactive
    have hbroken : ¬ ParkKeeps s th wb := fun hkeeps => hts (hiff.mpr hkeeps)
    by_cases hpayload : payload ≠ 0
    · rw [if_pos ⟨rfl, hpayload⟩]
      apply Meets.map
      by_cases hlast : (s.threads.activeThreads th.p).length = 1
      · have hidle : t.threads.activeThreads th.p = [] := by
          apply List.eq_nil_of_length_eq_zero
          omega
        rw [← hprocs] at hcount
        apply (rxSendToRuntime_repairs _ _ _ _ hjoin hclient hidle hcount
          hown).imp
        exact fun u hu => iff_of_true hu (.inr ⟨hpayload, hlast⟩)
      · have hbusy : t.threads.activeThreads th.p ≠ [] := by
          intro hnil
          rw [hnil] at hactive
          exact hlast hactive.symm
        refine (rxSendToRuntime_active _ _ _ _ ?_).imp ?_
        · exact hbusy
        · intro u hsame
          have hu : ¬ u.1.Served := fun hu => hts (hsame.served_iff.mp hu)
          simp [hu, hbroken, hlast]
    · rw [if_neg fun hboth => hpayload hboth.2]
      exact iff_of_false hts
        (not_or_intro hbroken fun hlast => hpayload hlast.1)

theorem cmdParkedLast_served_iff (hserved : s.Served) (payload : BitVec 64)
    (wb : BitVec 32) (now : BitVec 64) :
    Meets anyFailure (s.cmdParkedLast th payload wb now) fun t =>
      t.Served ↔ ParkKeeps s th wb := by
  unfold Dataplane.cmdParkedLast
  apply (coresParkKthread_served_iff h hth hremoved hserved wb).bind
  rintro ⟨t, stays⟩ ⟨hiff, _⟩
  simp only
  split_ifs
  · exact hiff
  · exact hiff

end Commands

section Runs

def conserves (s : Dataplane π) : DpAct π → Prop
  | .parked th payload wb _ => ParkKeeps s th wb ∨
      payload ≠ 0 ∧ (s.threads.activeThreads th.p).length = 1
  | .parkedLast th _ wb _ => ParkKeeps s th wb
  | _ => True

theorem dpNext_served_iff (h : DpInv none s)
    (hremoved : ∀ p, s.procs.removed p = false) (hserved : s.Served)
    {a : DpAct π} (ha : noRemoval s a) (hnext : dpNext s a = some t) :
    t.Served ↔ conserves s a := by
  rw [dpNext_iff] at hnext
  cases a with
  | create p cfg =>
    obtain ⟨hfresh, ⟨⟩⟩ := guarded hnext
    exact iff_of_true (controlCreateProc_served h hfresh.1 hserved cfg)
      trivial
  | add p =>
    simp only [dpStep] at hnext
    split_ifs at hnext with hpending
    have hadd := dpClientsAddClient_served h hpending hserved
    exact iff_of_true (hadd.of_ok (Option.some.inj hnext)) trivial
  | setRemoved p => exact ha.elim
  | remove p => exact ha.elim
  | parked th payload wb mem =>
    simp only [dpStep] at hnext
    split_ifs at hnext with hth
    exact (cmdParked_served_iff h hth hremoved hserved payload wb mem).of_ok
      (Option.some.inj hnext)
  | parkedLast th payload wb now =>
    simp only [dpStep] at hnext
    split_ifs at hnext with hth
    exact (cmdParkedLast_served_iff h hth hremoved hserved payload wb
      now).of_ok (Option.some.inj hnext)
  | rxSend p hash cmd payload mem =>
    simp only [dpStep] at hnext
    split_ifs at hnext with hclient
    have hsend : Meets anyFailure
        ((s.rxSendToRuntime p hash cmd payload mem).map Prod.fst)
        Dataplane.Served :=
      (rxSendToRuntime_served hash cmd payload mem h hclient hserved).map
    exact iff_of_true (hsend.of_ok (Option.some.inj hnext)) trivial
  | adjust obs =>
    have hadjust := coresAdjustAssignments_served h obs
    exact iff_of_true (hadjust.of_ok (Option.some.inj hnext)) trivial

theorem served_reach
    (hs : (dpSystem π).Reach (fun s a => noRemoval s a ∧ conserves s a) s) :
    s.Served := by
  induction hs with
  | init hinit =>
    obtain ⟨cpuCount, usable, _, rfl⟩ := hinit
    exact fun _ p hp => Bool.noConfusion hp.1
  | step hreach hok hnext ih =>
    obtain ⟨h, hremoved⟩ := dpSystem_inv_of_noRemoval
      (hreach.mono fun _ _ => And.left)
    exact (dpNext_served_iff h hremoved ih hok.1 hnext).mpr hok.2

/-- In every run of additions, park commands, packets for runtimes and
reassignments whose park commands meet the condition, no core is idle while a
proc waits for one that it could use; and the first park command that does not
meet it leaves a core idle. -/
theorem work_conserving_iff
    (hs : (dpSystem π).Reach (fun s a => noRemoval s a ∧ conserves s a) s) :
    WorkConserving s ∧ ∀ a t, noRemoval s a → dpNext s a = some t →
      (WorkConserving t ↔ conserves s a) := by
  have hruns : (dpSystem π).Reach noRemoval s := hs.mono fun _ _ => And.left
  obtain ⟨h, hremoved⟩ := dpSystem_inv_of_noRemoval hruns
  have hserved := served_reach hs
  refine ⟨h.workConserving_iff.mpr hserved, fun a t ha hnext => ?_⟩
  have ht := (dpNext_inv h (removalOk_of_noRemoval hremoved ha) hnext).1
  rw [ht.workConserving_iff]
  exact dpNext_served_iff h hremoved hserved ha hnext

theorem work_conserving_iff_preempting :
    (dpSystem Nat).Reach (fun s a => noRemoval s a ∧ conserves s a)
      preempting ∧
    (dpNext preempting (.parkedLast ⟨0, 0⟩ 0 0 0)).isSome ∧
    ∀ t, dpNext preempting (.parkedLast ⟨0, 0⟩ 0 0 0) = some t →
      WorkConserving t := by
  have hs : (dpSystem Nat).Reach
      (fun s a => noRemoval s a ∧ conserves s a) preempting := by
    apply preempting_reach
    simp [preemptRun, noRemoval, conserves]
  refine ⟨hs, by decide, fun t ht => ?_⟩
  obtain ⟨_, hsteps⟩ := work_conserving_iff hs
  apply (hsteps (.parkedLast ⟨0, 0⟩ 0 0 0) t trivial ht).mpr
  change ParkKeeps preempting ⟨0, 0⟩ 0
  unfold ParkKeeps
  rw [if_neg (by decide)]
  exact .inl (by decide)

def twoCongested : Observed Nat where
  rqHead th := if th.p = 2 then 0 else 1
  rqTail _ := 0
  rxqWb _ := 0
  microtime _ := 0

/-- Three procs hold a core each; proc 0, which has another kthread, and proc 1,
which has none, are overloaded. -/
def headFullRun : List (DpAct Nat) :=
  [.create 0 ⟨2, 0, 0, fun _ => ⟨0, 0, 0, 0, 4⟩⟩, .add 0,
    .create 1 (oneThread 0), .add 1, .create 2 (oneThread 0), .add 2,
    .adjust twoCongested, .adjust twoCongested]

def threeCores : Dataplane Nat := .boot 3 fun _ => true

theorem headFullRun_isSome :
    ((dpSystem Nat).exec threeCores headFullRun).isSome := by
  with_unfolding_all decide

def headFull : Dataplane Nat :=
  ((dpSystem Nat).exec threeCores headFullRun).get headFullRun_isSome

theorem headFull_parks :
    (dpNext headFull (.parkedLast ⟨2, 0⟩ 0 0 0)).isSome := by
  with_unfolding_all decide

/-- Proc 2 parks. Its core is offered to proc 1, the head of the list, and stays
idle, though proc 0 waits for a core with a kthread to run on it. -/
theorem idle_core_beside_waiting_proc :
    (dpSystem Nat).Reach noRemoval headFull ∧ WorkConserving headFull ∧
    ∃ t, dpNext headFull (.parkedLast ⟨2, 0⟩ 0 0 0) = some t ∧
      t.cores.nrAvailCores = 1 ∧ 0 ∈ t.lists.overloadedProcs ∧
      (t.threads.activeThreads 0).length < t.procs.threadCount 0 := by
  have hinit : (dpSystem Nat).init threeCores :=
    ⟨3, fun _ => true, by decide, rfl⟩
  refine ⟨?_, ?_, _, (Option.some_get headFull_parks).symm, ?_, ?_, ?_⟩
  · apply System.Reach.exec_of (.init hinit) headFullRun
    · simp [headFullRun, noRemoval]
    · exact (Option.some_get headFullRun_isSome).symm
  · exact fun havail => absurd havail (by with_unfolding_all decide)
  · with_unfolding_all decide
  · with_unfolding_all decide
  · with_unfolding_all decide

end Runs

end Libut.Hwalloc
