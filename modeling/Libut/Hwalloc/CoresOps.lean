import Libut.Hwalloc.CoresAssign

/-!
The functions of `cores.c` keep the invariant. Each has one specification: from
a state with the invariant it ends in one, or stops because there is no core or
no room, and never at one of the `BUG_ON`s about the allocator's own records.
-/

namespace Libut.Hwalloc

open Function Machine

variable {π : Type} [DecidableEq π] {s t : Dataplane π} {leaving : Option π}
  {th : ThreadRef π} {p : π} {core : Nat}

theorem DpInv.congr (h : DpInv leaving s) (hprocs : t.procs = s.procs)
    (hlists : t.lists = s.lists) (hthreads : t.threads = s.threads)
    (hpoll : t.poll = s.poll) (hcores : t.cores = s.cores) :
    DpInv leaving t := by
  cases s
  cases t
  cases hprocs
  cases hlists
  cases hthreads
  cases hpoll
  cases hcores
  exact { h with }

theorem DpInv.setLists (h : DpInv leaving s) {l : ProcLists π}
    (hlists : ListsOk l s.threads s.procs) :
    DpInv leaving { s with lists := l } :=
  { h with lists := hlists }

theorem DpInv.started (h : DpInv leaving s)
    (hth : s.threads.parked th = false) :
    th.p ∈ s.procs.created ∧ th.p ∉ s.procs.pending ∧
      th.idx < s.procs.threadCount th.p := by
  obtain ⟨hlive, hidx⟩ := h.threads.live th hth
  rcases hlive with hclient | hleaving
  · exact ⟨h.procs.clients_created _ hclient,
      h.procs.clients_started _ hclient, hidx⟩
  · obtain ⟨hcreated, hstarted, _⟩ := h.procs.leaving_only _ hleaving
    exact ⟨hcreated, hstarted, hidx⟩

/-- What parking a kthread never does: it keeps the procs, starts no preemption,
and wakes threads of clients only. -/
structure Released (s t : Dataplane π) : Prop where
  procs : t.procs = s.procs
  next : ∀ core n, t.cores.next core = some n →
    s.cores.next core = some n ∧ t.cores.current core = s.cores.current core
  parked : ∀ th, th.p ∉ s.procs.clients → s.threads.parked th = true →
    t.threads.parked th = true

omit [DecidableEq π] in
theorem Released.refl (s : Dataplane π) : Released s s :=
  ⟨rfl, fun _ _ hnext => ⟨hnext, rfl⟩, fun _ _ hth => hth⟩

omit [DecidableEq π] in
theorem Released.trans {u : Dataplane π} (h : Released s t)
    (h' : Released t u) : Released s u := by
  refine ⟨h'.procs.trans h.procs, fun core n hn => ?_, fun th hp hth => ?_⟩
  · obtain ⟨hnext, hcurrent⟩ := h'.next core n hn
    obtain ⟨hnext', hcurrent'⟩ := h.next core n hnext
    exact ⟨hnext', hcurrent.trans hcurrent'⟩
  · exact h'.parked th (h.procs ▸ hp) (h.parked th hp hth)

section Pick

omit [DecidableEq π] in
theorem mem_procThreads {n : Nat} {th : ThreadRef π} :
    th ∈ procThreads p n ↔ th.p = p ∧ th.idx < n := by
  unfold procThreads
  rw [List.mem_map]
  constructor
  · rintro ⟨i, hi, rfl⟩
    exact ⟨rfl, List.mem_range.mp hi⟩
  · rintro ⟨rfl, hidx⟩
    exact ⟨th.idx, List.mem_range.mpr hidx, rfl⟩

omit [DecidableEq π] in
theorem procThreads_nodup (p : π) (n : Nat) : (procThreads p n).Nodup := by
  apply List.Nodup.map _ List.nodup_range
  intro i j hij
  exact congrArg ThreadRef.idx hij

theorem pickThread_cases (hpick : s.pickThread p core = some th) :
    th ∈ s.threads.idleThreads p ∨
      th.p = p ∧ s.threads.parked th = true ∧
        (s.cores.current core = some th ∨ s.cores.prev core = some th) := by
  have hreuse : ∀ last, s.reusable p last = some th →
      last = some th ∧ th.p = p ∧ s.threads.parked th = true := by
    intro last hre
    simpa only [Dataplane.reusable, Option.filter_eq_some_iff,
      Bool.and_eq_true, decide_eq_true_eq] using hre
  unfold Dataplane.pickThread at hpick
  simp only at hpick
  split_ifs at hpick
  · exact .inl (List.mem_of_head? hpick)
  · exact .inl (List.mem_of_head? hpick)
  · rcases Option.or_eq_some_iff.mp hpick with hcur | ⟨_, hpick⟩
    · obtain ⟨hcur, hp, hparked⟩ := hreuse _ hcur
      exact .inr ⟨hp, hparked, .inl hcur⟩
    · rcases Option.or_eq_some_iff.mp hpick with hprev | ⟨_, hlast⟩
      · obtain ⟨hprev, hp, hparked⟩ := hreuse _ hprev
        exact .inr ⟨hp, hparked, .inr hprev⟩
      · exact .inl (List.mem_of_getLast? hlast)

theorem pickThread_parked (h : DpInv leaving s) (hp : p ∈ s.procs.clients)
    (hpick : s.pickThread p core = some th) :
    th.p = p ∧ th.idx < s.procs.threadCount p ∧
      s.threads.parked th = true := by
  rcases pickThread_cases hpick with hidle | ⟨rfl, hparked, hlast⟩
  · exact (h.threads.mem_idle p (h.procs.clients_started p hp) th).mp hidle
  · exact ⟨rfl, (h.cores.known core th hlast).2.2, hparked⟩

theorem pickThread_isSome (hidle : s.threads.idleThreads p ≠ []) (core : Nat) :
    ∃ th, s.pickThread p core = some th := by
  have hhead : (s.threads.idleThreads p).head?.isSome = true := by
    simpa [List.isSome_head?] using hidle
  have hlast : (s.threads.idleThreads p).getLast?.isSome = true := by
    simpa [List.getLast?_isSome] using hidle
  rw [← Option.isSome_iff_exists]
  unfold Dataplane.pickThread
  simp only
  split_ifs
  · exact hhead
  · exact hhead
  · simp [hlast]

theorem bitmapFindNextSet_cases (bits : Nat → Bool) (n : Nat) :
    bits (bitmapFindNextSet bits n) = true ∧ bitmapFindNextSet bits n < n ∨
    bitmapFindNextSet bits n = n ∧ ∀ i < n, bits i = false := by
  unfold bitmapFindNextSet
  cases hfind : (List.range n).find? bits with
  | some i =>
    left
    exact ⟨List.find?_some hfind,
      List.mem_range.mp (List.mem_of_find?_eq_some hfind)⟩
  | none =>
    right
    refine ⟨rfl, fun i hi => ?_⟩
    simpa using List.find?_eq_none.mp hfind i (List.mem_range.mpr hi)

def CoreTable.Takeable (c : CoreTable π) (core : Nat) : Prop :=
  c.availCores core = true ∨
  c.onlineCores core = true ∧ c.availCores core = false ∧
    c.next core = none ∧ ∃ cur, c.current core = some cur

omit [DecidableEq π] in
theorem preemptible_iff : s.preemptible core = true ↔
    ∃ cur, s.cores.current core = some cur ∧ s.lists.bursting cur.p = true ∧
      s.cores.next core = none := by
  unfold Dataplane.preemptible
  cases s.cores.current core with
  | none => simp
  | some cur => simp

def Dataplane.OnlyFromBursting (s : Dataplane π) (core : Nat) : Prop :=
  s.cores.availCores core = false →
    s.cores.nrAvailCores = 0 ∧ s.preemptible core = true

theorem CoresOk.none_available {c : CoreTable π} {ts : ThreadTable π}
    {ps : ProcTable π} (h : CoresOk c ts ps)
    (hnone : ∀ i < c.cpuCount, c.availCores i = false) :
    c.nrAvailCores = 0 := by
  rw [h.nr_avail, Finset.card_eq_zero]
  apply Finset.filter_eq_empty_iff.mpr
  intro i _ hset
  have hlt := h.online_lt i (h.avail_online i hset)
  exact Bool.noConfusion ((hnone i hlt).symm.trans hset)

def Dataplane.NoCore (s : Dataplane π) : Prop :=
  ∀ core, s.cores.availCores core = false ∧ s.preemptible core = false

theorem CoresOk.current_online {c : CoreTable π} {ts : ThreadTable π}
    {ps : ProcTable π} (h : CoresOk c ts ps) {cur : ThreadRef π}
    (hcur : c.current core = some cur) : c.onlineCores core = true := by
  by_contra hoff
  have hnocur := (h.offline core (by simpa using hoff)).1
  exact absurd (hnocur.symm.trans hcur) (by simp)

theorem pickAnyCore_meets (h : DpInv leaving s) :
    Meets (fun f => f = .noCores ∧ s.NoCore) s.pickAnyCore fun core =>
      s.cores.Takeable core ∧ s.OnlyFromBursting core := by
  unfold Dataplane.pickAnyCore
  simp only
  rcases bitmapFindNextSet_cases s.cores.availCores s.cores.cpuCount with
    ⟨hset, hlt⟩ | ⟨heq, hnone⟩
  · rw [if_pos hlt.ne]
    exact ⟨.inl hset, fun hbusy => Bool.noConfusion (hbusy.symm.trans hset)⟩
  · rw [if_neg (not_not_intro heq)]
    cases hfind : (List.range s.cores.cpuCount).find? s.preemptible with
    | some c =>
      have hc := List.mem_range.mp (List.mem_of_find?_eq_some hfind)
      have hpre := List.find?_some hfind
      obtain ⟨cur, hcur, _, hnext⟩ := preemptible_iff.mp hpre
      exact ⟨.inr ⟨h.cores.current_online hcur, hnone c hc, hnext, cur, hcur⟩,
        fun _ => ⟨h.cores.none_available hnone, hpre⟩⟩
    | none =>
      refine ⟨rfl, fun c => ⟨?_, ?_⟩⟩
      · by_contra hset
        rw [Bool.not_eq_false] at hset
        have hlt := h.cores.online_lt c (h.cores.avail_online c hset)
        exact Bool.noConfusion ((hnone c hlt).symm.trans hset)
      · by_contra hset
        rw [Bool.not_eq_false] at hset
        obtain ⟨cur, hcur, _⟩ := preemptible_iff.mp hset
        have hlt := h.cores.online_lt c (h.cores.current_online hcur)
        exact List.find?_eq_none.mp hfind c (List.mem_range.mpr hlt) hset

theorem pickCoreForProc_meets (h : DpInv leaving s) (hp : p ∈ s.procs.clients)
    (hidle : s.threads.idleThreads p ≠ []) :
    Meets (fun f => f = .noCores ∧ s.NoCore) (s.pickCoreForProc p) fun core =>
      s.cores.Takeable core ∧ s.OnlyFromBursting core := by
  unfold Dataplane.pickCoreForProc
  cases hhead : (s.threads.idleThreads p).head? with
  | none => exact absurd (List.head?_eq_none_iff.mp hhead) hidle
  | some last =>
    obtain ⟨hlp, hidx, _⟩ := (h.threads.mem_idle p
      (h.procs.clients_started p hp) last).mp (List.mem_of_head? hhead)
    have honline := h.cores.core_online last (hlp ▸ hp) (hlp ▸ hidx)
    simp only
    rw [if_neg (not_le.mpr (h.cores.core_lt honline))]
    by_cases havail : s.cores.availCores (s.threads.core last) = true
    · rw [if_pos havail]
      exact ⟨.inl havail, fun hbusy =>
        Bool.noConfusion (hbusy.symm.trans havail)⟩
    rw [if_neg havail]
    have hbusy : s.cores.availCores (s.threads.core last) = false := by
      simpa using havail
    obtain ⟨cur, hcur, _⟩ := h.cores.busy _ honline hbusy
    by_cases hfree : s.cores.nrAvailCores = 0 ∧
        s.cores.next (s.threads.core last) = none
    · rw [if_pos hfree, hcur]
      simp only
      split_ifs with hother
      · have hpre := preemptible_iff.mpr ⟨cur, hcur, hother.2, hfree.2⟩
        exact ⟨.inr ⟨honline, hbusy, hfree.2, cur, hcur⟩,
          fun _ => ⟨hfree.1, hpre⟩⟩
      · exact pickAnyCore_meets h
    · rw [if_neg hfree]
      exact pickAnyCore_meets h

theorem DpInv.idle_ne_nil (h : DpInv leaving s) (hp : p ∈ s.procs.clients)
    (hfull : (s.threads.activeThreads p).length ≠ s.procs.threadCount p) :
    s.threads.idleThreads p ≠ [] := by
  intro hnil
  have hstarted := h.procs.clients_started p hp
  have hmem : ∀ th, th ∈ s.threads.activeThreads p ↔
      th ∈ procThreads p (s.procs.threadCount p) := by
    intro th
    rw [h.threads.mem_active, mem_procThreads]
    constructor
    · rintro ⟨rfl, hparked⟩
      exact ⟨rfl, (h.threads.live th hparked).2⟩
    · rintro ⟨hthp, hidx⟩
      refine ⟨hthp, ?_⟩
      by_contra hparked
      have hidle := (h.threads.mem_idle p hstarted th).mpr
        ⟨hthp, hidx, by simpa using hparked⟩
      rw [hnil] at hidle
      cases hidle
  have hperm := (List.perm_ext_iff_of_nodup (h.threads.active p).nodup
    (procThreads_nodup p _)).mpr hmem
  apply hfull
  rw [hperm.length_eq]
  simp [procThreads]

end Pick

section Wake

theorem coreReserve_meets (th : ThreadRef π)
    (hnext : s.cores.next core = none ∨ s.cores.next core = some th) :
    Meets (fun _ => False) (s.coreReserve core th) fun t =>
      ∃ refs, t = { s with cores := s.cores.reserve core th, refs := refs } := by
  unfold Dataplane.coreReserve
  rw [if_neg (by rintro ⟨hsome, hother⟩; exact hnext.elim hsome hother)]
  exact ⟨_, rfl⟩

structure Granted (s : Dataplane π) (th : ThreadRef π) (core : Nat)
    (t : Dataplane π) : Prop where
  procs : t.procs = s.procs
  cores : t.cores = s.cores.reserve core th
  threads : t.threads = s.threads.activate th core
  wakes : t.wakes = update s.wakes th (s.wakes th ++ [core + 1])
  room : s.poll.ts.length < ncpu

theorem wakeKthreadOnCore_grant (h : DpInv leaving s)
    (hcore : s.cores.availCores core = true) (hth : s.threads.parked th = true)
    (hclient : th.p ∈ s.procs.clients)
    (hidx : th.idx < s.procs.threadCount th.p) :
    Meets s.PollFull (s.wakeKthreadOnCore th core) fun t =>
      DpInv leaving t ∧ Granted s th core t := by
  have hreserve := coreReserve_meets th
    (.inl (h.cores.avail_next core hcore))
  unfold Dataplane.wakeKthreadOnCore
  rw [if_neg (by simp [hcore])]
  apply Meets.bind (hreserve.weaken fun _ => False.elim)
  rintro _ ⟨refs, rfl⟩
  rw [if_pos hth]
  apply (threadReserve_meets
    (s := { s with cores := s.cores.reserve core th, refs := refs })
    h.lists h.threads h.poll hth hclient hidx).bind
  rintro t ⟨hroom, hthreads, hcores, hprocs, hwakes, hlists, hthreadsOk, hpoll⟩
  have hassign := h.cores.grant h.procs hcore hth hclient hidx
  have ht : DpInv leaving t := by
    refine ⟨?_, hlists, hthreadsOk, hpoll, ?_⟩
    · rw [hprocs]
      exact h.procs
    · rw [hcores, hthreads, hprocs]
      exact hassign
  refine ⟨{ ht with }, hprocs, hcores, hthreads, ?_, hroom⟩
  simp [Dataplane.writeEfd, hthreads, hwakes, ThreadTable.activate]

theorem Granted.released (h : Granted s th core t)
    (hclient : th.p ∈ s.procs.clients) : Released s t := by
  refine ⟨h.procs, fun d n hn => ?_, fun th' hp hth' => ?_⟩
  · rw [h.cores] at hn ⊢
    have hdc : d ≠ core := by
      rintro rfl
      simp [CoreTable.reserve] at hn
    simpa [CoreTable.reserve, hdc] using hn
  · have hne : th' ≠ th := by
      rintro rfl
      exact hp hclient
    rw [h.threads]
    simpa [ThreadTable.activate, hne] using hth'

section

omit [DecidableEq π]

theorem wantsCore_overloaded {last : Option (ThreadRef π)} {q : π}
    (hq : s.wantsCore last = some q) : s.lists.overloaded q = true := by
  simp only [Dataplane.wantsCore, Option.filter_eq_some_iff,
    Bool.and_eq_true] at hq
  exact hq.2.2

/-- The proc that `pick_thread_for_core` chooses is overloaded. -/
theorem wanted_overloaded {top : π} {rest : List π}
    (hflagged : Flagged s.lists.overloadedProcs s.lists.overloaded)
    (hlist : s.lists.overloadedProcs = top :: rest) (core : Nat) :
    s.lists.overloaded (((s.wantsCore (s.cores.current core)).or
      (s.wantsCore (s.cores.prev core))).getD top) = true := by
  cases hor : (s.wantsCore (s.cores.current core)).or
      (s.wantsCore (s.cores.prev core)) with
  | some q =>
    rcases Option.or_eq_some_iff.mp hor with hcur | ⟨_, hprev⟩
    · exact wantsCore_overloaded hcur
    · exact wantsCore_overloaded hprev
  | none =>
    rw [Option.getD_none, ← hflagged.mem_iff, hlist]
    exact List.mem_cons_self

end

theorem pickThreadForCore_idle (h : DpInv leaving s)
    (hnext : s.cores.next core = none) :
    Meets (fun _ => False) (s.pickThreadForCore core) fun r =>
      (∃ launched, r.1 = { s with launched := launched }) ∧
      ∀ th ∈ r.2, th.p ∈ s.procs.clients ∧
        th.idx < s.procs.threadCount th.p ∧ s.threads.parked th = true := by
  unfold Dataplane.pickThreadForCore
  simp only [hnext, Option.filter_none]
  cases hlist : s.lists.overloadedProcs with
  | nil => exact ⟨⟨s.launched, rfl⟩, fun th hth => by cases hth⟩
  | cons top rest =>
    refine ⟨⟨_, rfl⟩, fun th hth => ?_⟩
    have hclient := h.lists.overloaded_client _
      (wanted_overloaded h.lists.overloaded hlist core)
    obtain ⟨hp, hidx, hparked⟩ := pickThread_parked h hclient hth
    exact ⟨hp.symm ▸ hclient, hp.symm ▸ hidx, hparked⟩

inductive Regranted (s : Dataplane π) (core : Nat) (t : Dataplane π) : Prop
  | idle : t.procs = s.procs → t.cores = s.cores → t.threads = s.threads →
      t.wakes = s.wakes → Regranted s core t
  | granted {th : ThreadRef π} : th.p ∈ s.procs.clients →
      s.threads.parked th = true → Granted s th core t → Regranted s core t

theorem Regranted.released (h : Regranted s core t) : Released s t := by
  cases h with
  | idle hprocs hcores hthreads _ =>
    refine ⟨hprocs, fun d n hn => ?_, fun th' _ hth' => ?_⟩
    · rw [hcores] at hn ⊢
      exact ⟨hn, rfl⟩
    · rw [hthreads]
      exact hth'
  | granted hclient _ hgranted => exact hgranted.released hclient

theorem regrantCore_idle (h : DpInv leaving s)
    (hcore : s.cores.availCores core = true) :
    Meets (· = Fault.overrun) (s.regrantCore core) fun t =>
      DpInv leaving t ∧ Regranted s core t := by
  have hpick := pickThreadForCore_idle h (h.cores.avail_next core hcore)
  unfold Dataplane.regrantCore
  apply Meets.bind (hpick.weaken fun _ => False.elim)
  rintro ⟨s₁, thNew⟩ ⟨⟨launched, hs₁⟩, hnew⟩
  obtain rfl : s₁ = { s with launched := launched } := hs₁
  have h₁ : DpInv leaving { s with launched := launched } :=
    { h with }
  cases thNew with
  | none => exact ⟨h₁, .idle rfl rfl rfl rfl⟩
  | some th =>
    obtain ⟨hclient, hidx, hparked⟩ := hnew th rfl
    apply ((wakeKthreadOnCore_grant h₁ hcore hparked hclient hidx).weaken
      fun _ hfull => hfull.1).imp
    rintro t ⟨ht, hprocs, hcores, hthreads, hwakes, hroom⟩
    exact ⟨ht, .granted hclient hparked
      ⟨hprocs, hcores, hthreads, hwakes, hroom⟩⟩

variable {n : ThreadRef π} {s₁ : Dataplane π}

theorem pickThreadForCore_waiting {cur : ThreadRef π}
    (hcur : s.cores.current core = some cur)
    (hnext : s.cores.next core = some n)
    (hremoved : s.procs.removed n.p = false) :
    s.pickThreadForCore core =
      .ok ({ s with cores := s.cores.endPreempt cur.p }, some n) := by
  simp only [Dataplane.pickThreadForCore, hnext, hcur, Option.filter_some,
    hremoved, Bool.not_false, if_true]

theorem regrantCore_waiting {cur : ThreadRef π}
    (hcore : s.cores.availCores core = true)
    (hcur : s.cores.current core = some cur)
    (hnext : s.cores.next core = some n)
    (hremoved : s.procs.removed n.p = false)
    (hn : s.threads.parked n = false) :
    Meets (fun _ => False) (s.regrantCore core) fun t => ∃ refs,
      t = { s with
            cores := (s.cores.endPreempt cur.p).reserve core n
            refs := refs
            wakes := update s.wakes n
              (s.wakes n ++ [s.threads.core n + 1]) } := by
  have hreserve := coreReserve_meets
    (s := { s with cores := s.cores.endPreempt cur.p }) n (.inr hnext)
  unfold Dataplane.regrantCore
  rw [pickThreadForCore_waiting hcur hnext hremoved]
  change Meets _ (Dataplane.wakeKthreadOnCore _ n core) _
  unfold Dataplane.wakeKthreadOnCore
  rw [if_neg (by simp [CoreTable.endPreempt, hcore])]
  apply Meets.bind hreserve
  rintro _ ⟨refs, rfl⟩
  rw [if_neg (by simp [hn])]
  exact ⟨refs, rfl⟩

inductive CoreReleased (s : Dataplane π) (th : ThreadRef π) (t : Dataplane π) :
    Prop
  | regranted {s₁ : Dataplane π} {i : Nat} :
      s.cores.next (s.threads.core th) = none → s₁.procs = s.procs →
      s₁.cores = s.cores.cede (s.threads.core th) →
      s₁.threads = s.threads.deactivate th i → s₁.wakes = s.wakes →
      Regranted s₁ (s.threads.core th) t → CoreReleased s th t
  | handed {n : ThreadRef π} {i : Nat} :
      s.cores.next (s.threads.core th) = some n → n ≠ th →
      t.procs = s.procs →
      t.cores = ((s.cores.cede (s.threads.core th)).endPreempt th.p).reserve
        (s.threads.core th) n →
      t.threads = s.threads.deactivate th i →
      t.wakes = update s.wakes n
        (s.wakes n ++ [s.threads.core th + 1]) → CoreReleased s th t

theorem parked_deactivate {ts : ThreadTable π} {th' : ThreadRef π} (i : Nat)
    (hth' : ts.parked th' = true) : (ts.deactivate th i).parked th' = true := by
  rcases eq_or_ne th' th with rfl | hne
  · exact update_self ..
  · simpa [ThreadTable.deactivate, hne] using hth'

theorem CoreReleased.released (h : CoreReleased s th t) : Released s t := by
  cases h with
  | @regranted s₁ i _ hprocs hcores hthreads _ hregranted =>
    obtain ⟨hprocs', hnext, hparked⟩ := hregranted.released
    refine ⟨hprocs'.trans hprocs, fun d n hn => ?_, fun th' hp hth' => ?_⟩
    · have hn' := hnext d n hn
      rw [hcores] at hn'
      exact hn'
    · apply hparked th' (hprocs ▸ hp)
      rw [hthreads]
      exact parked_deactivate i hth'
  | @handed n i _ _ hprocs hcores hthreads _ =>
    refine ⟨hprocs, fun d m hm => ?_, fun th' _ hth' => ?_⟩
    · rw [hcores] at hm ⊢
      have hdc : d ≠ s.threads.core th := by
        rintro rfl
        simp [CoreTable.reserve] at hm
      simpa [CoreTable.reserve, CoreTable.endPreempt, hdc, CoreTable.cede]
        using hm
    · rw [hthreads]
      exact parked_deactivate i hth'

theorem CoreReleased.parked (h : CoreReleased s th t)
    (hp : th.p ∉ s.procs.clients) : t.threads.parked th = true := by
  cases h with
  | regranted _ hprocs _ hthreads _ hregranted =>
    apply hregranted.released.parked th (hprocs ▸ hp)
    rw [hthreads]
    exact update_self ..
  | handed _ _ _ _ hthreads _ =>
    rw [hthreads]
    exact update_self ..

theorem DpInv.waiting_ne (h : DpInv leaving s)
    (hcurrent : s.cores.current (s.threads.core th) = some th)
    (hnext : s.cores.next (s.threads.core th) = some n) : n ≠ th := by
  rintro rfl
  exact (h.cores.waiting _ n hnext).2.2 hcurrent

structure Yielded (leaving : Option π) (s : Dataplane π) (th : ThreadRef π)
    (t : Dataplane π) : Prop where
  threads : ∃ i, t.threads = s.threads.deactivate th i
  cores : t.cores = s.cores.cede (s.threads.core th)
  procs : t.procs = s.procs
  wakes : t.wakes = s.wakes
  lists_ok : ListsOk t.lists t.threads t.procs
  threads_ok : ThreadsOk leaving t.threads t.procs
  poll_ok : PollOk t.poll t.threads

theorem threadCede_yields (h : DpInv leaving s)
    (hth : s.threads.parked th = false) :
    Meets (fun _ => False)
      (Dataplane.threadCede
        { s with cores := s.cores.cede (s.threads.core th) } th)
      (Yielded leaving s th) := by
  obtain ⟨_, hstarted, _⟩ := h.started hth
  apply (threadCede_meets
    (s := { s with cores := s.cores.cede (s.threads.core th) })
    h.lists h.threads h.poll hth hstarted).imp
  rintro t ⟨hthreads, hcores, hprocs, hwakes, hlists, hthreadsOk, hpoll⟩
  exact ⟨hthreads, hcores, hprocs, hwakes, hlists, hthreadsOk, hpoll⟩

theorem Yielded.avail (h : Yielded leaving s th s₁) :
    s₁.cores.availCores (s.threads.core th) = true := by
  rw [h.cores]
  exact update_self ..

theorem Yielded.waiting_parked (hy : Yielded leaving s th s₁)
    (h : DpInv leaving s)
    (hcurrent : s.cores.current (s.threads.core th) = some th)
    (hnext : s.cores.next (s.threads.core th) = some n) :
    s₁.threads.parked n = false := by
  obtain ⟨i, hthreads⟩ := hy.threads
  have hn := (h.cores.waiting _ n hnext).1
  rw [hthreads]
  simpa [ThreadTable.deactivate, h.waiting_ne hcurrent hnext] using hn

theorem Yielded.inv (hy : Yielded leaving s th s₁) (h : DpInv leaving s)
    (hth : s.Running th) (hnext : s.cores.next (s.threads.core th) = none) :
    DpInv leaving s₁ := by
  obtain ⟨i, hthreads⟩ := hy.threads
  refine ⟨?_, hy.lists_ok, hy.threads_ok, hy.poll_ok, ?_⟩
  · rw [hy.procs]
    exact h.procs
  · rw [hy.cores, hthreads, hy.procs]
    exact h.cores.park hth.1 hth.2 hnext

theorem Yielded.regrantCore
    (hy : Yielded leaving s th s₁) (h : DpInv leaving s)
    (hcurrent : s.cores.current (s.threads.core th) = some th)
    (hnext : s.cores.next (s.threads.core th) = some n)
    (hremoved : s.procs.removed n.p = false) :
    Meets (fun _ => False) (s₁.regrantCore (s.threads.core th)) fun t =>
      ∃ refs, t = { s₁ with
        cores := (s₁.cores.endPreempt th.p).reserve (s.threads.core th) n
        refs := refs
        wakes := update s₁.wakes n
          (s₁.wakes n ++ [s₁.threads.core n + 1]) } := by
  apply regrantCore_waiting hy.avail
  · rw [hy.cores]
    exact hcurrent
  · rw [hy.cores]
    exact hnext
  · rw [hy.procs]
    exact hremoved
  · exact hy.waiting_parked h hcurrent hnext

/-- A kthread that parks gives its core up. The condition is on the thread that
waits for the core: its proc is not being removed. -/
theorem releaseCore_meets (h : DpInv leaving s) (hth : s.Running th)
    (hremoved : ∀ n, s.cores.next (s.threads.core th) = some n →
      s.procs.removed n.p = false) :
    Meets (· = Fault.overrun) (s.releaseCore th (s.threads.core th)) fun t =>
      DpInv leaving t ∧ CoreReleased s th t := by
  unfold Dataplane.releaseCore
  apply Meets.bind ((threadCede_yields h hth.1).weaken fun _ => False.elim)
  intro s₁ hy
  obtain ⟨i, hthreads⟩ := hy.threads
  cases hnext : s.cores.next (s.threads.core th) with
  | none =>
    apply (regrantCore_idle (hy.inv h hth hnext) hy.avail).imp
    rintro t ⟨ht, hregranted⟩
    exact ⟨ht, .regranted hnext hy.procs hy.cores hthreads hy.wakes hregranted⟩
  | some n =>
    obtain ⟨hn, hncore, _⟩ := h.cores.waiting _ n hnext
    have hne := h.waiting_ne hth.2 hnext
    apply ((hy.regrantCore h hth.2 hnext (hremoved n hnext)).weaken
      fun _ => False.elim).imp
    rintro _ ⟨refs, rfl⟩
    refine ⟨⟨?_, hy.lists_ok, hy.threads_ok, hy.poll_ok, ?_⟩,
      .handed hnext hne hy.procs ?_ hthreads ?_⟩
    · change ProcsOk leaving s₁.procs
      rw [hy.procs]
      exact h.procs
    · change CoresOk ((s₁.cores.endPreempt th.p).reserve _ n) s₁.threads
        s₁.procs
      rw [hy.cores, hthreads, hy.procs]
      exact h.cores.handoff hth.1 hth.2 hnext (h.started hn)
    · change (s₁.cores.endPreempt th.p).reserve _ n = _
      rw [hy.cores]
    · simp only [hy.wakes, hthreads, ThreadTable.deactivate, hncore]

structure Raced (s : Dataplane π) (th : ThreadRef π) (t : Dataplane π) :
    Prop where
  procs : t.procs = s.procs
  cores : t.cores = s.cores
  threads : t.threads = s.threads
  wakes : t.wakes = update s.wakes th
    (s.wakes th ++ [s.threads.core th + 1])

theorem coresParkKthread_meets (h : DpInv leaving s) (hth : s.Running th)
    (hremoved : ∀ n, s.cores.next (s.threads.core th) = some n →
      s.procs.removed n.p = false) (force : Bool) (wb : BitVec 32) :
    Meets (· = Fault.overrun) (s.coresParkKthread th force wb) fun r =>
      DpInv leaving r.1 ∧
      (force = false ∧ r.2 = false ∧ Raced s th r.1 ∨
        r.2 = true ∧ CoreReleased s th r.1) := by
  have hbusy := (h.cores.placed th hth.1).2.1
  obtain ⟨_, hstarted, hidx⟩ := h.started hth.1
  have havailable : s.threads.availableThreads th = false :=
    (h.threads.available th hstarted hidx).trans hth.1
  unfold Dataplane.coresParkKthread
  simp only [hbusy, havailable, Bool.false_eq_true, if_false]
  by_cases hpoll : s.cores.next (s.threads.core th) = none ∧ force = false
  · rw [if_pos hpoll]
    split_ifs
    · exact ⟨{ h with },
        .inl ⟨hpoll.2, rfl, rfl, rfl, rfl, rfl⟩⟩
    · apply Meets.map
      apply Meets.imp (releaseCore_meets ?_ ?_ ?_)
      · rintro t ⟨ht, hreleased⟩
        refine ⟨ht, .inr ⟨rfl, ?_⟩⟩
        -- the cached tail of the receive queue is in none of the tables
        cases hreleased with
        | regranted hnext hprocs hcores hthreads hwakes hregranted =>
          exact .regranted hnext hprocs hcores hthreads hwakes hregranted
        | handed hnext hne hprocs hcores hthreads hwakes =>
          exact .handed hnext hne hprocs hcores hthreads hwakes
      · exact { h with }
      · exact hth
      · exact hremoved
  · rw [if_neg hpoll]
    apply Meets.map
    apply (releaseCore_meets h hth hremoved).imp
    rintro t ⟨ht, hreleased⟩
    exact ⟨ht, .inr ⟨rfl, hreleased⟩⟩

theorem parked_released {stays : Bool} {force : Bool}
    (h : force = false ∧ stays = false ∧ Raced s th t ∨
      stays = true ∧ CoreReleased s th t) : Released s t := by
  rcases h with ⟨_, _, hprocs, hcores, hthreads, _⟩ | ⟨_, hreleased⟩
  · refine ⟨hprocs, fun d n hn => ?_, fun th' _ hth' => ?_⟩
    · rw [hcores] at hn ⊢
      exact ⟨hn, rfl⟩
    · rw [hthreads]
      exact hth'
  · exact hreleased.released

end Wake

section Add

structure Preempted (s : Dataplane π) (th : ThreadRef π) (core : Nat)
    (cur : ThreadRef π) (t : Dataplane π) : Prop where
  procs : t.procs = s.procs
  cores : t.cores = s.cores.beginPreempt core cur.p th
  threads : t.threads = s.threads.activate th core
  wakes : t.wakes = s.wakes
  room : s.poll.ts.length < ncpu

theorem preemptCore_meets (h : DpInv leaving s)
    (honline : s.cores.onlineCores core = true)
    (hbusy : s.cores.availCores core = false)
    (hnext : s.cores.next core = none) (hth : s.threads.parked th = true)
    (hclient : th.p ∈ s.procs.clients)
    (hidx : th.idx < s.procs.threadCount th.p) {cur : ThreadRef π}
    (hcur : s.cores.current core = some cur)
    (hvictim : cur.p ∈ s.procs.clients) :
    Meets s.PollFull (s.preemptCore th core) fun t =>
      DpInv leaving t ∧ Preempted s th core cur t := by
  unfold Dataplane.preemptCore
  apply Meets.bind
    (threadReserve_meets h.lists h.threads h.poll hth hclient hidx)
  rintro t ⟨hroom, hthreads, hcores, hprocs, hwakes, hlists, hthreadsOk, hpoll⟩
  have hcur' : t.cores.current core = some cur := by
    rw [hcores]
    exact hcur
  have hnext' : t.cores.next core = none := by
    rw [hcores]
    exact hnext
  simp only [hcur', hnext', ne_eq, not_true_eq_false, if_false, meets_ok]
  refine ⟨⟨?_, hlists.setOverloaded ?_, hthreadsOk, hpoll, ?_⟩, hprocs, ?_,
    hthreads, hwakes, hroom⟩
  · rw [hprocs]
    exact h.procs
  · rw [hprocs]
    exact hvictim
  · rw [hcores, hthreads, hprocs]
    exact h.cores.preempt honline hbusy hcur hnext hth
  · rw [hcores]

/-- What `cores_add_core` did, with the thread it returned: nothing if every
thread of the proc is active; otherwise a parked thread got an idle core, or,
when there is none, waits for the core of a bursting proc. -/
inductive CoreAdded (s : Dataplane π) (p : π) :
    Dataplane π → Option (ThreadRef π) → Prop
  | full : (s.threads.activeThreads p).length = s.procs.threadCount p →
      CoreAdded s p s none
  | granted {th : ThreadRef π} {core : Nat} {t : Dataplane π} :
      s.cores.availCores core = true → th.p = p →
      s.threads.parked th = true → Granted s th core t →
      CoreAdded s p t (some th)
  | preempted {th cur : ThreadRef π} {core : Nat} {t : Dataplane π} :
      s.cores.nrAvailCores = 0 → s.cores.onlineCores core = true →
      s.cores.current core = some cur → s.lists.bursting cur.p = true →
      s.cores.next core = none → th.p = p → s.threads.parked th = true →
      Preempted s th core cur t → CoreAdded s p t (some th)

theorem CoreAdded.procs {r : Option (ThreadRef π)} (h : CoreAdded s p t r) :
    t.procs = s.procs := by
  cases h with
  | full => rfl
  | granted _ _ _ hgranted => exact hgranted.procs
  | preempted _ _ _ _ _ _ _ hpreempted => exact hpreempted.procs

/-- Why `cores_add_core` stops: there is no core to take, or no room to poll
one more thread. -/
def Dataplane.Starved (s : Dataplane π) (f : Fault) : Prop :=
  f = .noCores ∧ s.NoCore ∨ s.PollFull f

omit [DecidableEq π] in
theorem Dataplane.Starved.exhausted (f : Fault) (h : s.Starved f) :
    f.Exhausted :=
  h.imp And.left And.left

/-- `cores_add_core` for a client. While a proc is leaving no core is taken from
it: it is on no list. -/
theorem coresAddCore_meets (h : DpInv none s) (hp : p ∈ s.procs.clients) :
    Meets s.Starved (s.coresAddCore p) fun r =>
      DpInv none r.1 ∧ CoreAdded s p r.1 r.2 := by
  unfold Dataplane.coresAddCore
  split_ifs with hfull
  · exact ⟨h, .full hfull⟩
  · have h₀ : DpInv none
        { s with pendingTimer := update s.pendingTimer p false } :=
      { h with }
    have hidle := h.idle_ne_nil hp hfull
    apply Meets.bind ((pickCoreForProc_meets h₀ hp hidle).weaken
      fun _ hnone => .inl hnone)
    rintro core ⟨htake, hbursting⟩
    obtain ⟨th, hpick⟩ := pickThread_isSome
      (s := { s with pendingTimer := update s.pendingTimer p false })
      hidle core
    obtain ⟨rfl, hidx, hparked⟩ := pickThread_parked h₀ hp hpick
    have havailable : s.threads.availableThreads th = true :=
      (h.threads.available th (h.procs.clients_started th.p hp) hidx).trans
        hparked
    have h₁ : DpInv none
        { s with
          pendingTimer := update s.pendingTimer th.p false
          launched := update s.launched th.p false } :=
      { h with }
    simp only [Dataplane.pickThreadForProc, hpick, havailable,
      Bool.true_eq_false, if_false]
    rcases htake with hcore | ⟨honline, hbusy, hnext, _⟩
    · rw [if_pos hcore]
      apply Meets.bind ((wakeKthreadOnCore_grant h₁ hcore hparked hp
        hidx).weaken fun _ hpoll => .inr hpoll)
      rintro t ⟨ht, hprocs, hcores, hthreads, hwakes, hroom⟩
      exact ⟨ht, .granted hcore rfl hparked
        ⟨hprocs, hcores, hthreads, hwakes, hroom⟩⟩
    · rw [if_neg fun hcore => Bool.noConfusion (hbusy.symm.trans hcore)]
      obtain ⟨hnone, hpre⟩ := hbursting hbusy
      obtain ⟨cur, hcur, hburst, _⟩ := preemptible_iff.mp hpre
      have hvictim := h.lists.bursting_client cur.p hburst
      apply Meets.bind ((preemptCore_meets h₁ honline hbusy hnext hparked hp
        hidx hcur hvictim).weaken fun _ hpoll => .inr hpoll)
      rintro t ⟨ht, hprocs, hcores, hthreads, hwakes, hroom⟩
      exact ⟨ht, .preempted hnone honline hcur hburst hnext rfl hparked
        ⟨hprocs, hcores, hthreads, hwakes, hroom⟩⟩

end Add

end Libut.Hwalloc
