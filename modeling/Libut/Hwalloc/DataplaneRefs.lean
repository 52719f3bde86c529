import Libut.Hwalloc.DataplaneFrame
import Libut.Hwalloc.DataplaneRuns
import Libut.Machine.RefCount

/-!
Reference counts of procs. A proc is referred to by the control thread until
the dataplane has removed it, by each core whose current or previous thread is
one of its threads, and by each of its threads in the polling array. The count
is right in every run, also in those with removals in which the records of the
allocator no longer agree: what it rests on is kept by each function alone. A
reference is only ever taken to a proc that is a client.
-/

namespace Libut.Hwalloc

open Function Machine Base

variable {π : Type} [DecidableEq π] {s t u : Dataplane π}
  {leaving : Option π} {th : ThreadRef π} {p : π} {core : Nat}

section Counts

/-- The reference the control thread holds, until the `proc_put` at the end of
`dp_clients_remove_client`. -/
def controlRef (leaving : Option π) (ps : ProcTable π) (p : π) : Nat :=
  if p ∈ ps.pending ∨ p ∈ ps.clients ∨ leaving = some p then 1 else 0

/-- The cores at which a column of `core_history` has a thread of `p`. -/
def historyRefs (column : Nat → Option (ThreadRef π)) (p : π) : Nat :=
  ((Finset.range ncpu).filter fun core =>
    (column core).map ThreadRef.p = some p).card

/-- The threads of `p` in `ts`. -/
def pollRefs (ts : List (ThreadRef π)) (p : π) : Nat :=
  ts.countP fun th => decide (th.p = p)

def refCount (leaving : Option π) (s : Dataplane π) (p : π) : Nat :=
  controlRef leaving s.procs p + historyRefs s.cores.current p +
    historyRefs s.cores.prev p + pollRefs s.poll.ts p

def slotRef (slot : Option (ThreadRef π)) (p : π) : Nat :=
  if slot.map ThreadRef.p = some p then 1 else 0

theorem historyRefs_update (column : Nat → Option (ThreadRef π))
    (hcore : core < ncpu) (slot : Option (ThreadRef π)) (p : π) :
    historyRefs (update column core slot) p +
        slotRef (column core) p =
      historyRefs column p + slotRef slot p := by
  have hchange := card_filter_change (S := Finset.range ncpu)
    (P := fun d => (column d).map ThreadRef.p = some p)
    (Q := fun d => (update column core slot d).map ThreadRef.p =
      some p) (Finset.mem_range.mpr hcore) fun d hd => by
        rw [update_of_ne hd]
  simp only [update_self] at hchange
  exact hchange

theorem slotRef_le (column : Nat → Option (ThreadRef π)) (hcore : core < ncpu)
    (p : π) : slotRef (column core) p ≤ historyRefs column p := by
  unfold slotRef
  split_ifs with hslot
  · apply Finset.card_pos.mpr
    exact ⟨core, Finset.mem_filter.mpr ⟨Finset.mem_range.mpr hcore, hslot⟩⟩
  · exact Nat.zero_le _

@[simp]
theorem slotRef_some (p : π) :
    slotRef (some th) p = if p = th.p then 1 else 0 := by
  simp [slotRef, eq_comm]

@[simp]
theorem slotRef_none (p : π) : slotRef (none : Option (ThreadRef π)) p = 0 := by
  simp [slotRef]

theorem pollRefs_push (ts : List (ThreadRef π)) (th : ThreadRef π) (p : π) :
    pollRefs (ts ++ [th]) p = pollRefs ts p + if p = th.p then 1 else 0 := by
  simp [pollRefs, List.countP_append, List.countP_singleton, eq_comm]

theorem pollRefs_drop {ts : List (ThreadRef π)} {i : Nat}
    (hi : ts[i]? = some th) (p : π) :
    pollRefs ts p =
      pollRefs (swapRemove ts i) p + if p = th.p then 1 else 0 := by
  unfold pollRefs
  rw [← (swapRemove_perm hi).countP_eq, List.countP_cons]
  simp [eq_comm]

theorem controlRef_client (leaving : Option π) {ps : ProcTable π}
    (hp : p ∈ ps.clients) : controlRef leaving ps p = 1 :=
  if_pos (.inr (.inl hp))

end Counts

def Started (ps : ProcTable π) (th : ThreadRef π) : Prop :=
  th.p ∈ ps.created ∧ th.p ∉ ps.pending ∧ th.idx < ps.threadCount th.p

structure ListedClients (l : ProcLists π) (clients : List π) : Prop where
  overloaded : Flagged l.overloadedProcs l.overloaded
  overloaded_client : ∀ p, l.overloaded p = true → p ∈ clients
  bursting_client : ∀ p, l.bursting p = true → p ∈ clients

structure UnparkedClients (leaving : Option π) (ts : ThreadTable π)
    (ps : ProcTable π) : Prop where
  live : ∀ th, ts.parked th = false →
    (th.p ∈ ps.clients ∨ leaving = some th.p) ∧
    th.idx < ps.threadCount th.p ∧ ts.core th < ncpu
  idle : ∀ p ∉ ps.pending, ∀ th ∈ ts.idleThreads p,
    th.p = p ∧ th.idx < ps.threadCount p
  available : ∀ th, th.p ∉ ps.pending → th.idx < ps.threadCount th.p →
    ts.availableThreads th = ts.parked th

structure HistoryKnown (c : CoreTable π) (ps : ProcTable π) : Prop where
  cpus : c.cpuCount ≤ ncpu
  current : ∀ core th, c.current core = some th →
    core < ncpu ∧ Started ps th
  prev : ∀ core th, c.prev core = some th → core < ncpu ∧ Started ps th
  next : ∀ core th, c.next core = some th → core < ncpu ∧ Started ps th

structure PollKnown (a : PollArray π) (ps : ProcTable π) : Prop where
  indexed : Indexed a.ts a.tsIdx
  mem_ts : ∀ th i, a.tsIdx th = some i → th ∈ a.ts
  started : ∀ th ∈ a.ts, Started ps th

structure RefInv (leaving : Option π) (s : Dataplane π) : Prop where
  procs : ProcsOk leaving s.procs
  gone : ∀ p ∈ s.procs.created, p ∉ s.procs.pending → p ∉ s.procs.clients →
    s.procs.removed p = true
  lists : ListedClients s.lists s.procs.clients
  threads : UnparkedClients leaving s.threads s.procs
  cores : HistoryKnown s.cores s.procs
  poll : PollKnown s.poll s.procs
  counted : Counted (· ∈ s.procs.created) (refCount leaving s) s.refs.ref
    s.refs.released

structure Steady (leaving : Option π) (s t : Dataplane π) : Prop where
  inv : RefInv leaving t
  procs : t.procs = s.procs
  parked : ∀ th, th.p ∉ s.procs.clients → s.threads.parked th = true →
    t.threads.parked th = true

theorem RefInv.steady (h : RefInv leaving s) : Steady leaving s s :=
  ⟨h, rfl, fun _ _ hth => hth⟩

theorem Steady.trans (h : Steady leaving s t) (h' : Steady leaving t u) :
    Steady leaving s u := by
  refine ⟨h'.inv, h'.procs.trans h.procs, fun th hp hth => ?_⟩
  exact h'.parked th (h.procs ▸ hp) (h.parked th hp hth)

theorem RefInv.congr (h : RefInv leaving s) (hprocs : t.procs = s.procs)
    (hlists : t.lists = s.lists) (hthreads : t.threads = s.threads)
    (hpoll : t.poll = s.poll) (hcores : t.cores = s.cores)
    (hrefs : t.refs = s.refs) : RefInv leaving t := by
  cases s
  cases t
  cases hprocs
  cases hlists
  cases hthreads
  cases hpoll
  cases hcores
  cases hrefs
  exact { h with }

theorem RefInv.started (h : RefInv leaving s) (hp : th.p ∈ s.procs.clients)
    (hidx : th.idx < s.procs.threadCount th.p) : Started s.procs th :=
  ⟨h.procs.clients_created _ hp, h.procs.clients_started _ hp, hidx⟩

section Tables

variable {l : ProcLists π} {clients : List π} {ts : ThreadTable π}
  {ps : ProcTable π} {c : CoreTable π} {a : PollArray π} {i : Nat}

section

variable (h : ListedClients l clients)
include h

theorem ListedClients.setOverloaded (hp : p ∈ clients) :
    ListedClients (l.procSetOverloaded p) clients := by
  unfold ProcLists.procSetOverloaded
  split_ifs with hset
  · exact h
  · refine ⟨h.overloaded.set (by simpa using hset), fun q hq => ?_,
      h.bursting_client⟩
    rcases eq_or_ne q p with rfl | hne
    · exact hp
    · exact h.overloaded_client q (by simpa [hne] using hq)

theorem ListedClients.clearOverloaded (p : π) :
    ListedClients (l.procClearOverloaded p) clients := by
  unfold ProcLists.procClearOverloaded
  split_ifs with hset
  · refine ⟨h.overloaded.clear, fun q hq => ?_, h.bursting_client⟩
    rcases eq_or_ne q p with rfl | hne
    · simp at hq
    · exact h.overloaded_client q (by simpa [hne] using hq)
  · exact h

theorem ListedClients.setBursting (hp : p ∈ clients) :
    ListedClients (l.procSetBursting p) clients := by
  unfold ProcLists.procSetBursting
  split_ifs with hset
  · exact h
  · refine ⟨h.overloaded, h.overloaded_client, fun q hq => ?_⟩
    rcases eq_or_ne q p with rfl | hne
    · exact hp
    · exact h.bursting_client q (by simpa [hne] using hq)

theorem ListedClients.clearBursting (p : π) :
    ListedClients (l.procClearBursting p) clients := by
  unfold ProcLists.procClearBursting
  split_ifs with hset
  · refine ⟨h.overloaded, h.overloaded_client, fun q hq => ?_⟩
    rcases eq_or_ne q p with rfl | hne
    · simp at hq
    · exact h.bursting_client q (by simpa [hne] using hq)
  · exact h

end

theorem UnparkedClients.activate (h : UnparkedClients leaving ts ps)
    (hp : th.p ∈ ps.clients) (hidx : th.idx < ps.threadCount th.p)
    (hcore : core < ncpu) :
    UnparkedClients leaving (ts.activate th core) ps := by
  refine ⟨fun th' hth' => ?_, fun q hq th' hth' => ?_,
    fun th' hpend hidx' => ?_⟩
  · rcases eq_or_ne th' th with rfl | hne
    · exact ⟨.inl hp, hidx, by simpa [ThreadTable.activate] using hcore⟩
    · simp only [ThreadTable.activate, update_of_ne hne] at hth' ⊢
      exact h.live th' hth'
  · apply h.idle q hq
    rcases eq_or_ne q th.p with rfl | hne
    · simp only [ThreadTable.activate, update_self] at hth'
      exact List.mem_of_mem_erase hth'
    · simpa [ThreadTable.activate, hne] using hth'
  · rcases eq_or_ne th' th with rfl | hne
    · simp [ThreadTable.activate]
    · simpa [ThreadTable.activate, hne] using h.available th' hpend hidx'

theorem UnparkedClients.deactivate (h : UnparkedClients leaving ts ps)
    (hth : ts.parked th = false) :
    UnparkedClients leaving (ts.deactivate th i) ps := by
  refine ⟨fun th' hth' => ?_, fun q hq th' hth' => ?_,
    fun th' hpend hidx' => ?_⟩
  · rcases eq_or_ne th' th with rfl | hne
    · simp [ThreadTable.deactivate] at hth'
    · exact h.live th' (by simpa [ThreadTable.deactivate, hne] using hth')
  · rcases eq_or_ne q th.p with rfl | hne
    · simp only [ThreadTable.deactivate, update_self] at hth'
      rcases List.mem_cons.mp hth' with rfl | hth'
      · exact ⟨rfl, (h.live th' hth).2.1⟩
      · exact h.idle _ hq th' hth'
    · exact h.idle q hq th' (by simpa [ThreadTable.deactivate, hne] using hth')
  · rcases eq_or_ne th' th with rfl | hne
    · simp [ThreadTable.deactivate]
    · simpa [ThreadTable.deactivate, hne] using h.available th' hpend hidx'

omit [DecidableEq π] in
theorem HistoryKnown.reserve (h : HistoryKnown c ps) (hcore : core < ncpu)
    (hth : Started ps th) : HistoryKnown (c.reserve core th) ps := by
  refine ⟨h.cpus, fun d th' hd => ?_, fun d th' hd => ?_, fun d th' hd => ?_⟩
  · rcases eq_or_ne d core with rfl | hne
    · obtain rfl : th = th' := by simpa [CoreTable.reserve] using hd
      exact ⟨hcore, hth⟩
    · exact h.current d th' (by simpa [CoreTable.reserve, hne] using hd)
  · rcases eq_or_ne d core with rfl | hne
    · exact h.current d th' (by simpa [CoreTable.reserve] using hd)
    · exact h.prev d th' (by simpa [CoreTable.reserve, hne] using hd)
  · rcases eq_or_ne d core with rfl | hne
    · simp [CoreTable.reserve] at hd
    · exact h.next d th' (by simpa [CoreTable.reserve, hne] using hd)

theorem HistoryKnown.beginPreempt (h : HistoryKnown c ps) (hcore : core < ncpu)
    (hth : Started ps th) : HistoryKnown (c.beginPreempt core p th) ps := by
  refine { h with next := fun d th' hd => ?_ }
  rcases eq_or_ne d core with rfl | hne
  · obtain rfl : th = th' := by simpa [CoreTable.beginPreempt] using hd
    exact ⟨hcore, hth⟩
  · exact h.next d th' (by simpa [CoreTable.beginPreempt, hne] using hd)

theorem PollKnown.push (h : PollKnown a ps) (hth : Started ps th)
    (hnone : a.tsIdx th = none) : PollKnown (a.push th) ps := by
  have hnot : th ∉ a.ts := by
    intro hmem
    obtain ⟨i, hi⟩ := List.mem_iff_getElem?.mp hmem
    exact absurd (hnone.symm.trans (h.indexed i th hi)) (by simp)
  refine ⟨?_, fun th' i hi => ?_, fun th' hth' => ?_⟩
  · refine h.indexed.push (fun th' hth' => ?_) (update_self ..)
    exact update_of_ne (fun heq : th' = th => hnot (heq ▸ hth')) ..
  · rcases eq_or_ne th' th with rfl | hne
    · exact List.mem_append_right _ (by simp)
    · apply List.mem_append_left
      exact h.mem_ts th' i (by simpa [PollArray.push, hne] using hi)
  · rcases List.mem_append.mp hth' with hth' | hth'
    · exact h.started th' hth'
    · rw [List.mem_singleton.mp hth']
      exact hth

theorem PollKnown.drop (h : PollKnown a ps) (hi : a.tsIdx th = some i) :
    PollKnown (a.drop th i) ps := by
  have hslot := h.indexed.getElem? (h.mem_ts th i hi) hi
  refine ⟨?_, fun th' j hj => ?_, fun th' hth' => ?_⟩
  · refine h.indexed.swapRemove hslot (fun last hlast hne => ?_)
      fun th' _ hne hother => ?_
    · exact (update_of_ne hne ..).trans (reindex_moved hlast)
    · exact (update_of_ne hne ..).trans (reindex_other hother)
  · have hne : th' ≠ th := by
      rintro rfl
      simp [PollArray.drop] at hj
    simp only [PollArray.drop, update_of_ne hne] at hj
    apply (h.indexed.mem_swapRemove hslot).mpr
    refine ⟨?_, hne⟩
    by_cases hlast : th' ∈ a.ts.getLast?
    · exact List.mem_of_getLast? hlast
    · rw [reindex_other hlast] at hj
      exact h.mem_ts th' j hj
  · exact h.started th' ((h.indexed.mem_swapRemove hslot).mp hth').1

end Tables

section Functions

theorem refCount_reserve (leaving : Option π) (s : Dataplane π)
    (hcore : core < ncpu) (th : ThreadRef π) (refs : RefTable π) (q : π) :
    refCount leaving
        { s with cores := s.cores.reserve core th, refs := refs } q +
      slotRef (s.cores.prev core) q =
    refCount leaving s q + if q = th.p then 1 else 0 := by
  have hcurrent := historyRefs_update s.cores.current hcore (some th) q
  have hprev := historyRefs_update s.cores.prev hcore
    (s.cores.current core) q
  rw [slotRef_some] at hcurrent
  simp only [refCount, CoreTable.reserve]
  omega

theorem RefInv.dropPrev (h : RefInv leaving s) (hcore : core < ncpu) :
    Counted (· ∈ s.procs.created)
      (fun q => refCount leaving s q - slotRef (s.cores.prev core) q)
      (match s.cores.prev core with
        | none => s.refs
        | some old => s.refs.procPut old.p).ref
      (match s.cores.prev core with
        | none => s.refs
        | some old => s.refs.procPut old.p).released := by
  have hle := slotRef_le s.cores.prev hcore
  cases hprev : s.cores.prev core with
  | none => exact h.counted.congr fun q _ => by simp
  | some old =>
    obtain ⟨_, hcreated, _⟩ := h.cores.prev core old hprev
    rw [hprev] at hle
    apply h.counted.put hcreated
    · have hself := hle old.p
      rw [slotRef_some, if_pos rfl] at hself ⊢
      unfold refCount
      omega
    · intro q hq
      rw [slotRef_some, if_neg hq, Nat.sub_zero]

theorem coreReserve_refs (h : RefInv leaving s) (hcore : core < ncpu)
    (hp : th.p ∈ s.procs.clients) (hidx : th.idx < s.procs.threadCount th.p) :
    Meets anyFailure (s.coreReserve core th) fun t =>
      Steady leaving s t ∧ t.threads = s.threads := by
  unfold Dataplane.coreReserve
  split_ifs
  · trivial
  · have hcount := refCount_reserve leaving s hcore th s.refs
    have hle := slotRef_le s.cores.prev hcore
    refine ⟨⟨{ h with
      cores := h.cores.reserve hcore (h.started hp hidx)
      counted := ?_ }, rfl, fun _ _ hth => hth⟩, rfl⟩
    apply (h.dropPrev hcore).get (h.procs.clients_created _ hp)
    · have hclient := controlRef_client leaving hp
      have hself := hle th.p
      simp only [refCount]
      omega
    · have hself := hcount th.p
      have hslot := hle th.p
      rw [if_pos rfl] at hself
      simp only [refCount] at hself ⊢
      omega
    · intro q hq
      have hother := hcount q
      rw [if_neg hq] at hother
      simp only [refCount] at hother ⊢
      omega

theorem pollThread_refs (h : RefInv leaving s) (hp : th.p ∈ s.procs.clients)
    (hidx : th.idx < s.procs.threadCount th.p) :
    Meets anyFailure (s.pollThread th) fun t =>
      RefInv leaving t ∧ t.procs = s.procs ∧ t.threads = s.threads ∧
      t.cores = s.cores := by
  unfold Dataplane.pollThread
  split_ifs with hlisted
  · exact ⟨h, rfl, rfl, rfl⟩
  · refine ⟨{ h with
      poll := h.poll.push (h.started hp hidx) (not_not.mp hlisted)
      counted := ?_ }, rfl, rfl, rfl⟩
    apply h.counted.get (h.procs.clients_created _ hp)
    · have hclient := controlRef_client leaving hp
      simp only [refCount]
      omega
    · simp only [refCount, PollArray.push, pollRefs_push, if_true]
      omega
    · intro q hq
      simp only [refCount, PollArray.push, pollRefs_push, if_neg hq]
      omega
  · trivial

theorem unpollThread_refs (h : RefInv leaving s) :
    RefInv leaving (s.unpollThread th) := by
  unfold Dataplane.unpollThread
  cases hidx : s.poll.tsIdx th with
  | none => exact h
  | some i =>
    have hmem := h.poll.mem_ts th i hidx
    have hslot := h.poll.indexed.getElem? hmem hidx
    refine { h with poll := h.poll.drop hidx, counted := ?_ }
    apply h.counted.put (h.poll.started th hmem).1
    · simp only [refCount, PollArray.drop, pollRefs_drop hslot, if_true]
      omega
    · intro q hq
      simp only [refCount, PollArray.drop, pollRefs_drop hslot, if_neg hq]
      omega

theorem parked_activate {ts : ThreadTable π} {th' : ThreadRef π}
    (hp : th.p ∈ s.procs.clients) (hp' : th'.p ∉ s.procs.clients)
    (hth' : ts.parked th' = true) :
    (ts.activate th core).parked th' = true := by
  have hne : th' ≠ th := by
    rintro rfl
    exact hp' hp
  simpa [ThreadTable.activate, hne] using hth'

section

variable (h : RefInv leaving s)
include h

theorem threadReserve_refs (hcore : core < ncpu) (hp : th.p ∈ s.procs.clients)
    (hidx : th.idx < s.procs.threadCount th.p) :
    Meets anyFailure (s.threadReserve th core) fun t =>
      Steady leaving s t ∧ t.cores = s.cores := by
  have hlists : ∀ bursts : Prop, ∀ [Decidable bursts], ListedClients
      ((if bursts then s.lists.procSetBursting th.p
        else s.lists).procClearOverloaded th.p) s.procs.clients := by
    intro bursts _
    apply ListedClients.clearOverloaded
    split_ifs
    · exact h.lists.setBursting hp
    · exact h.lists
  have h₁ : RefInv leaving
      { s with
        threads := s.threads.activate th core
        lists := (if s.procs.guaranteedCores th.p <
            ((s.threads.activate th core).activeThreads th.p).length then
            s.lists.procSetBursting th.p
          else s.lists).procClearOverloaded th.p
        waking := update s.waking th true } :=
    { h with
      lists := hlists _
      threads := h.threads.activate hp hidx hcore }
  unfold Dataplane.threadReserve
  apply (pollThread_refs h₁ hp hidx).imp
  rintro t ⟨ht, hprocs, hthreads, hcores⟩
  refine ⟨⟨ht, hprocs, fun th' hp' hth' => ?_⟩, hcores⟩
  rw [hthreads]
  exact parked_activate hp hp' hth'

theorem threadCede_refs (hth : s.threads.parked th = false) :
    Meets anyFailure (s.threadCede th) fun t =>
      Steady leaving s t ∧ t.threads.parked th = true := by
  have hkeeps := threadCede_untouched s th
  unfold Dataplane.threadCede at hkeeps ⊢
  cases hidx : s.threads.atIdx th with
  | none => trivial
  | some i =>
    rw [hidx] at hkeeps
    have hparked : ∀ u : Dataplane π,
        (u.unpollThread th).threads = u.threads := by
      intro u
      unfold Dataplane.unpollThread
      cases u.poll.tsIdx th <;> rfl
    refine ⟨⟨unpollThread_refs ?_, hkeeps.procs, fun th' _ hth' => ?_⟩, ?_⟩
    · refine { h with lists := ?_, threads := h.threads.deactivate hth }
      simp only
      split_ifs
      · exact h.lists.clearBursting th.p
      · exact h.lists
    · rw [hparked]
      exact parked_deactivate i hth'
    · rw [hparked]
      exact update_self ..

theorem wakeKthreadOnCore_refs (hcore : core < ncpu)
    (hp : th.p ∈ s.procs.clients) (hidx : th.idx < s.procs.threadCount th.p) :
    Meets anyFailure (s.wakeKthreadOnCore th core) (Steady leaving s) := by
  unfold Dataplane.wakeKthreadOnCore
  split_ifs
  · trivial
  · apply (coreReserve_refs h hcore hp hidx).bind
    rintro t ⟨ht, _⟩
    have hp' : th.p ∈ t.procs.clients := by
      rw [ht.procs]
      exact hp
    have hidx' : th.idx < t.procs.threadCount th.p := by
      rw [ht.procs]
      exact hidx
    -- writing to the eventfd touches none of the tables
    have hefd : ∀ u, Steady leaving s u →
        Steady leaving s (u.writeEfd th) := fun u hu =>
      ⟨{ hu.inv with }, hu.procs, hu.parked⟩
    simp only
    split_ifs
    · apply (threadReserve_refs ht.inv hcore hp' hidx').bind
      exact fun u hu => hefd u (ht.trans hu.1)
    · exact hefd t ht

theorem pickThread_own (hp : p ∈ s.procs.clients)
    (hpick : s.pickThread p core = some th) :
    th.p = p ∧ th.idx < s.procs.threadCount p := by
  rcases pickThread_cases hpick with hidle | ⟨rfl, -, hcur | hprev⟩
  · exact h.threads.idle p (h.procs.clients_started p hp) th hidle
  · exact ⟨rfl, (h.cores.current core th hcur).2.2.2⟩
  · exact ⟨rfl, (h.cores.prev core th hprev).2.2.2⟩

theorem pickThreadForProc_refs (hp : p ∈ s.procs.clients) (core : Nat) :
    Steady leaving s (s.pickThreadForProc p core).1 ∧
    (s.pickThreadForProc p core).1.cores = s.cores ∧
    ∀ th ∈ (s.pickThreadForProc p core).2,
      th.p ∈ (s.pickThreadForProc p core).1.procs.clients ∧
      th.idx < (s.pickThreadForProc p core).1.procs.threadCount th.p := by
  refine ⟨⟨{ h with }, rfl, fun _ _ hth => hth⟩, rfl,
    fun th hth => ?_⟩
  obtain ⟨rfl, hidx⟩ := pickThread_own h hp hth
  exact ⟨hp, hidx⟩

/-- The thread `pick_thread_for_core` returns is one of a client: a thread that
waits for the core is passed over if its proc is removed. -/
theorem pickThreadForCore_refs :
    Meets anyFailure (s.pickThreadForCore core) fun r =>
      Steady leaving s r.1 ∧ ∀ th ∈ r.2, th.p ∈ s.procs.clients ∧
        th.idx < s.procs.threadCount th.p := by
  unfold Dataplane.pickThreadForCore
  cases hnext : (s.cores.next core).filter
      fun th => !s.procs.removed th.p with
  | some n =>
    obtain ⟨hn, hkept⟩ := Option.filter_eq_some_iff.mp hnext
    obtain ⟨_, hcreated, hstarted, hidx⟩ := h.cores.next core n hn
    have hclient : n.p ∈ s.procs.clients := by
      by_contra hout
      rw [h.gone n.p hcreated hstarted hout] at hkept
      cases hkept
    cases s.cores.current core with
    | none => trivial
    | some cur =>
      refine ⟨⟨{ h with cores := { h.cores with } }, rfl,
        fun _ _ hth => hth⟩, fun th hth => ?_⟩
      cases hth
      exact ⟨hclient, hidx⟩
  | none =>
    cases hlist : s.lists.overloadedProcs with
    | nil =>
      refine ⟨h.steady, fun th hth => ?_⟩
      cases hth
    | cons top rest =>
      have hclient := h.lists.overloaded_client _
        (wanted_overloaded h.lists.overloaded hlist core)
      obtain ⟨hsteady, _, hown⟩ := pickThreadForProc_refs h hclient core
      exact ⟨hsteady, hown⟩

theorem regrantCore_refs (hcore : core < ncpu) :
    Meets anyFailure (s.regrantCore core) (Steady leaving s) := by
  unfold Dataplane.regrantCore
  apply (pickThreadForCore_refs h).bind
  rintro ⟨t, picked⟩ ⟨ht, hpicked⟩
  cases picked with
  | none => exact ht
  | some th =>
    obtain ⟨hclient, hidx⟩ := hpicked th rfl
    rw [← ht.procs] at hclient hidx
    apply (wakeKthreadOnCore_refs ht.inv hcore hclient hidx).imp
    exact fun u hu => ht.trans hu

/-- A thread of a proc that is no client stays parked when its core is given
up. -/
theorem releaseCore_refs (hth : s.threads.parked th = false) :
    Meets anyFailure (s.releaseCore th (s.threads.core th)) fun t =>
      Steady leaving s t ∧
      (th.p ∉ s.procs.clients → t.threads.parked th = true) := by
  have hcore := (h.threads.live th hth).2.2
  have hcede : RefInv leaving
      { s with cores := s.cores.cede (s.threads.core th) } :=
    { h with cores := { h.cores with } }
  unfold Dataplane.releaseCore
  apply (threadCede_refs hcede hth).bind
  rintro t ⟨ht, hparked⟩
  have ht' : Steady leaving s t := { ht with }
  apply (regrantCore_refs ht.inv hcore).imp
  intro u hu
  refine ⟨ht'.trans hu, fun hp => hu.parked th ?_ hparked⟩
  rw [ht'.procs]
  exact hp

theorem coresParkKthread_refs (hth : s.threads.parked th = false)
    (force : Bool) (wb : BitVec 32) :
    Meets anyFailure (s.coresParkKthread th force wb) fun r =>
      Steady leaving s r.1 ∧ (force = true → th.p ∉ s.procs.clients →
        r.1.threads.parked th = true) := by
  unfold Dataplane.coresParkKthread
  simp only
  split_ifs with hav hmap hpoll hraced
  · trivial
  · trivial
  · exact ⟨⟨{ h with }, rfl, fun _ _ hth' => hth'⟩,
      fun hforce => absurd hforce (by simp [hpoll.2])⟩
  · have h₁ : RefInv leaving
        { s with
          rxq := update s.rxq th
            (lrpcPollSendTail (s.rxq th) wb) } :=
      { h with }
    apply Meets.map
    apply (releaseCore_refs h₁ hth).imp
    rintro t ⟨ht, _⟩
    exact ⟨{ ht with },
      fun hforce => absurd hforce (by simp [hpoll.2])⟩
  · apply Meets.map
    apply (releaseCore_refs h hth).imp
    rintro t ⟨ht, hparked⟩
    exact ⟨ht, fun _ => hparked⟩

theorem pickCoreForProc_refs :
    Meets anyFailure (s.pickCoreForProc p) fun core => core < ncpu ∧
      (s.cores.availCores core = false → ∀ cur,
        s.cores.current core = some cur → cur.p ∈ s.procs.clients) := by
  have hany : Meets anyFailure s.pickAnyCore fun core => core < ncpu ∧
      (s.cores.availCores core = false → ∀ cur,
        s.cores.current core = some cur → cur.p ∈ s.procs.clients) := by
    unfold Dataplane.pickAnyCore
    simp only
    rcases bitmapFindNextSet_cases s.cores.availCores s.cores.cpuCount with
      ⟨hset, hlt⟩ | ⟨heq, _⟩
    · rw [if_pos hlt.ne]
      exact ⟨hlt.trans_le h.cores.cpus, fun hbusy =>
        Bool.noConfusion (hbusy.symm.trans hset)⟩
    · rw [if_neg (not_not_intro heq)]
      cases hfind : (List.range s.cores.cpuCount).find? s.preemptible with
      | none => trivial
      | some c =>
        have hc := List.mem_range.mp (List.mem_of_find?_eq_some hfind)
        obtain ⟨cur, hcur, hbursting, _⟩ :=
          preemptible_iff.mp (List.find?_some hfind)
        refine ⟨hc.trans_le h.cores.cpus, fun _ cur' hcur' => ?_⟩
        cases hcur.symm.trans hcur'
        exact h.lists.bursting_client cur.p hbursting
  unfold Dataplane.pickCoreForProc
  split
  · trivial
  · rename_i last _
    simp only
    split_ifs with hrange havail hfree
    · trivial
    · exact ⟨not_le.mp hrange, fun hbusy =>
        Bool.noConfusion (hbusy.symm.trans havail)⟩
    · split
      · trivial
      · rename_i cur hcur
        split_ifs with hother
        · refine ⟨not_le.mp hrange, fun _ cur' hcur' => ?_⟩
          cases hcur.symm.trans hcur'
          exact h.lists.bursting_client cur.p hother.2
        · exact hany
    · exact hany

theorem preemptCore_refs (hcore : core < ncpu) (hp : th.p ∈ s.procs.clients)
    (hidx : th.idx < s.procs.threadCount th.p)
    (hvictim : ∀ cur, s.cores.current core = some cur →
      cur.p ∈ s.procs.clients) :
    Meets anyFailure (s.preemptCore th core) (Steady leaving s) := by
  unfold Dataplane.preemptCore
  apply (threadReserve_refs h hcore hp hidx).bind
  rintro t ⟨ht, hcores⟩
  cases hcur : t.cores.current core with
  | none => trivial
  | some cur =>
    simp only
    split_ifs
    · trivial
    · rw [hcores] at hcur
      have hclient : cur.p ∈ t.procs.clients := by
        rw [ht.procs]
        exact hvictim cur hcur
      have hstarted : Started t.procs th := by
        rw [ht.procs]
        exact h.started hp hidx
      exact ⟨{ ht.inv with
        lists := ht.inv.lists.setOverloaded hclient
        cores := ht.inv.cores.beginPreempt hcore hstarted }, ht.procs,
        ht.parked⟩

theorem coresAddCore_refs (hp : p ∈ s.procs.clients) :
    Meets anyFailure (s.coresAddCore p) fun r => Steady leaving s r.1 := by
  unfold Dataplane.coresAddCore
  split_ifs
  · exact h.steady
  · have h₀ : RefInv leaving
        { s with pendingTimer := update s.pendingTimer p false } :=
      { h with }
    apply (pickCoreForProc_refs h₀).bind
    rintro core ⟨hcore, hvictim⟩
    have hpick := pickThreadForProc_refs h₀ hp core
    generalize Dataplane.pickThreadForProc _ p core = r at hpick
    obtain ⟨t, picked⟩ := r
    obtain ⟨ht, hcores, hpicked⟩ := hpick
    have ht' : Steady leaving s t := { ht with }
    cases picked with
    | none => trivial
    | some th =>
      obtain ⟨hclient, hidx⟩ := hpicked th rfl
      simp only
      split_ifs with hactive hav
      · trivial
      · apply (wakeKthreadOnCore_refs ht.inv hcore hclient hidx).bind
        exact fun u hu => ht'.trans hu
      · have hbusy : s.cores.availCores core = false := by
          rw [hcores] at hav
          simpa using hav
        have hvictim' : ∀ cur, t.cores.current core = some cur →
            cur.p ∈ t.procs.clients := by
          rw [hcores, ht'.procs]
          exact hvictim hbusy
        apply (preemptCore_refs ht.inv hcore hclient hidx hvictim').bind
        exact fun u hu => ht'.trans hu

end

end Functions

section Clients

theorem RefInv.count_fresh (h : RefInv none s) (hp : p ∉ s.procs.created) :
    refCount none s p = 0 := by
  have hhistory : ∀ column : Nat → Option (ThreadRef π),
      (∀ core th, column core = some th → core < ncpu ∧
        Started s.procs th) → historyRefs column p = 0 := by
    intro column hknown
    apply Finset.card_eq_zero.mpr
    apply Finset.filter_eq_empty_iff.mpr
    intro core _ hslot
    obtain ⟨th, hth, rfl⟩ := Option.map_eq_some_iff.mp hslot
    exact hp (hknown core th hth).2.1
  have hpoll : pollRefs s.poll.ts p = 0 := by
    apply List.countP_eq_zero.mpr
    intro th hth hthp
    exact hp (of_decide_eq_true hthp ▸ (h.poll.started th hth).1)
  have hcontrol : controlRef none s.procs p = 0 := by
    apply if_neg
    rintro (hpend | hclient | hleaving)
    · exact hp (h.procs.pending_created p hpend)
    · exact hp (h.procs.clients_created p hclient)
    · cases hleaving
  rw [refCount, hhistory _ h.cores.current, hhistory _ h.cores.prev, hpoll,
    hcontrol]

omit [DecidableEq π] in
theorem HistoryKnown.mono {c : CoreTable π} {ps ps' : ProcTable π}
    (h : HistoryKnown c ps) (hstarted : ∀ th, Started ps th → Started ps' th) :
    HistoryKnown c ps' where
  cpus := h.cpus
  current core th hth := (h.current core th hth).imp_right (hstarted th)
  prev core th hth := (h.prev core th hth).imp_right (hstarted th)
  next core th hth := (h.next core th hth).imp_right (hstarted th)

theorem RefInv.parked_of_not_client (h : RefInv none s)
    (hp : p ∉ s.procs.clients) (hthp : th.p = p) :
    s.threads.parked th = true := by
  by_contra hth
  obtain ⟨hlive, _⟩ := h.threads.live th (by simpa using hth)
  exact hp (hthp ▸ hlive.resolve_right (by simp))

theorem RefInv.create (h : RefInv none s) (hp : p ∉ s.procs.created)
    (cfg : ProcConfig) : RefInv none (s.controlCreateProc p cfg) := by
  have hne : ∀ q ∈ s.procs.created, q ≠ p := by
    rintro q hq rfl
    exact hp hq
  have hstarted : ∀ th, Started s.procs th →
      Started (s.controlCreateProc p cfg).procs th := by
    rintro th ⟨hcreated, hpend, hidx⟩
    have hthp := hne th.p hcreated
    refine ⟨List.mem_cons_of_mem p hcreated, ?_, ?_⟩
    · exact fun hmem => hpend (List.mem_of_ne_of_mem hthp hmem)
    · simpa [Dataplane.controlCreateProc, hthp] using hidx
  have hparked : onThreads s.threads.parked p cfg.threadCount (fun _ => true) =
      s.threads.parked :=
    onThreads_same fun th hth => h.parked_of_not_client
      (fun hclient => hp (h.procs.clients_created p hclient)) hth
  have htsIdx : onThreads s.poll.tsIdx p cfg.threadCount (fun _ => none) =
      s.poll.tsIdx := by
    apply onThreads_same
    intro th hth
    by_contra hlisted
    obtain ⟨i, hi⟩ := Option.ne_none_iff_exists'.mp hlisted
    exact hp (hth ▸ (h.poll.started th (h.poll.mem_ts th i hi)).1)
  have hcontrol : ∀ q, q ≠ p → controlRef none
      (s.controlCreateProc p cfg).procs q = controlRef none s.procs q := by
    intro q hq
    simp [controlRef, Dataplane.controlCreateProc, hq]
  have hcounted : Counted (· ∈ p :: s.procs.created)
      (refCount none (s.controlCreateProc p cfg))
      (s.controlCreateProc p cfg).refs.ref s.refs.released := by
    apply h.counted.make hp
    · exact fun q => List.mem_cons
    · have hfresh := h.count_fresh hp
      have hnew : controlRef none (s.controlCreateProc p cfg).procs p = 1 :=
        if_pos (.inl List.mem_cons_self)
      simp only [refCount] at hfresh ⊢
      rw [hnew]
      simp only [Dataplane.controlCreateProc]
      omega
    · intro q hq
      simp only [refCount, hcontrol q hq]
      rfl
  refine ⟨h.procs.create hp rfl rfl rfl, fun q hq hpend hclient => ?_, h.lists,
    ⟨fun th hth => ?_, fun q hq th hth => ?_, fun th hpend hidx => ?_⟩,
    h.cores.mono hstarted, ?_, hcounted⟩
  · obtain ⟨hqp, hpend⟩ := not_or.mp (mt List.mem_cons.mpr hpend)
    simpa [Dataplane.controlCreateProc, hqp] using
      h.gone q (List.mem_of_ne_of_mem hqp hq) hpend hclient
  · simp only [Dataplane.controlCreateProc, hparked] at hth
    obtain ⟨hlive, hidx, hcore⟩ := h.threads.live th hth
    have hthp := hne _
      (h.procs.clients_created _ (hlive.resolve_right (by simp)))
    exact ⟨hlive, by simpa [Dataplane.controlCreateProc, hthp] using hidx,
      hcore⟩
  · obtain ⟨hqp, hq⟩ := not_or.mp (mt List.mem_cons.mpr hq)
    simpa [Dataplane.controlCreateProc, hqp] using h.threads.idle q hq th hth
  · obtain ⟨hthp, hpend⟩ := not_or.mp (mt List.mem_cons.mpr hpend)
    simp only [Dataplane.controlCreateProc, update_of_ne hthp] at hidx
    simpa [Dataplane.controlCreateProc, hparked] using
      h.threads.available th hpend hidx
  · simp only [Dataplane.controlCreateProc, htsIdx]
    exact ⟨h.poll.indexed, h.poll.mem_ts, fun th hth =>
      hstarted th (h.poll.started th hth)⟩

theorem RefInv.reset (h : RefInv none s) (hp : p ∈ s.procs.pending) :
    RefInv none ((s.pushClient p).resetProc p) := by
  have hnew : p ∉ s.procs.clients := fun hclient =>
    h.procs.clients_started p hclient hp
  have hparked : ∀ th, th.p = p → s.threads.parked th = true :=
    fun th hthp => h.parked_of_not_client hnew hthp
  have hpend : ∀ q, q ∉ s.procs.pending.erase p → q ≠ p →
      q ∉ s.procs.pending := fun q hq hne hmem =>
    hq ((List.mem_erase_of_ne hne).mpr hmem)
  have hstarted : ∀ th, Started s.procs th →
      Started (s.pushClient p).procs th := by
    rintro th ⟨hcreated, hpending, hidx⟩
    exact ⟨hcreated, fun hmem => hpending (List.mem_of_mem_erase hmem), hidx⟩
  have hbursting : update s.lists.bursting p false =
      s.lists.bursting := by
    have hclear : s.lists.bursting p = false := by
      by_contra hset
      exact hnew (h.lists.bursting_client p (by simpa using hset))
    rw [← hclear, update_eq_self]
  have hoverloaded : update s.lists.overloaded p false =
      s.lists.overloaded := by
    have hclear : s.lists.overloaded p = false := by
      by_contra hset
      exact hnew (h.lists.overloaded_client p (by simpa using hset))
    rw [← hclear, update_eq_self]
  constructor
  · exact h.procs.push hp
  · intro q hq hpending hclient
    have hqp : q ≠ p := by
      rintro rfl
      exact hclient (List.mem_append_right _ (by simp))
    exact h.gone q hq (hpend q hpending hqp) fun hmem =>
      hclient (List.mem_append_left _ hmem)
  · unfold Dataplane.resetProc Dataplane.pushClient
    simp only [hbursting, hoverloaded]
    refine ⟨h.lists.overloaded, fun q hq => ?_, fun q hq => ?_⟩
    · exact List.mem_append_left _ (h.lists.overloaded_client q hq)
    · exact List.mem_append_left _ (h.lists.bursting_client q hq)
  · constructor
    · intro th hth
      obtain ⟨hlive, hidx, hcore⟩ := h.threads.live th hth
      have hne : th.p ≠ p := by
        intro hthp
        exact Bool.noConfusion ((hparked th hthp).symm.trans hth)
      refine ⟨hlive.imp_left (List.mem_append_left _), hidx, ?_⟩
      change onThreads s.threads.core p (s.procs.threadCount p)
        (fun _ => bitmapFindNextSet s.cores.onlineCores ncpu) th < ncpu
      rw [onThreads_other hne]
      exact hcore
    · intro q hq th hth
      change th ∈ update s.threads.idleThreads p
        (procThreads p (s.procs.threadCount p)) q at hth
      rcases eq_or_ne q p with rfl | hne
      · rw [update_self, mem_procThreads] at hth
        exact hth
      · rw [update_of_ne hne] at hth
        exact h.threads.idle q (hpend q hq hne) th hth
    · intro th hpending hidx
      change onThreads s.threads.availableThreads p (s.procs.threadCount p)
        (fun _ => true) th = s.threads.parked th
      rcases eq_or_ne th.p p with hthp | hne
      · rw [onThreads_own hthp (hthp ▸ hidx)]
        exact (hparked th hthp).symm
      · rw [onThreads_other hne]
        exact h.threads.available th (hpend th.p hpending hne) hidx
  · exact { h.cores.mono hstarted with }
  · exact ⟨h.poll.indexed, h.poll.mem_ts, fun th hth =>
      hstarted th (h.poll.started th hth)⟩
  · -- the reference held for the message is now the one of a client
    apply h.counted.congr
    intro q _
    have hcontrol : controlRef none (s.pushClient p).procs q =
        controlRef none s.procs q := by
      unfold controlRef Dataplane.pushClient
      rcases eq_or_ne q p with rfl | hne
      · simp [hp]
      · simp [hne, List.mem_erase_of_ne]
    simp only [refCount, Dataplane.resetProc, hcontrol]
    rfl

theorem RefInv.leave (h : RefInv none s) {i : Nat}
    (hi : s.procs.clients[i]? = some p) (hremoved : s.procs.removed p = true) :
    RefInv (some p) (s.leave p i) := by
  have hp : p ∈ s.procs.clients := List.mem_of_getElem? hi
  have hmem : ∀ q, q ∈ (s.dropClient i).procs.clients ↔
      q ∈ s.procs.clients ∧ q ≠ p := fun q => mem_dropClient h.procs hi
  constructor
  · exact h.procs.leave hi
  · intro q hq hpending hclient
    rcases eq_or_ne q p with rfl | hne
    · exact hremoved
    · exact h.gone q hq hpending fun hold => hclient ((hmem q).mpr ⟨hold, hne⟩)
  · have hlists := (h.lists.clearBursting p).clearOverloaded p
    refine ⟨hlists.overloaded, fun q hq => ?_, fun q hq => ?_⟩
    · apply (hmem q).mpr
      refine ⟨hlists.overloaded_client q hq, ?_⟩
      rintro rfl
      change ((s.lists.procClearBursting q).procClearOverloaded
        q).overloaded q = true at hq
      rw [procClearOverloaded_overloaded] at hq
      simp at hq
    · apply (hmem q).mpr
      refine ⟨hlists.bursting_client q hq, ?_⟩
      rintro rfl
      have hsame : ((s.lists.procClearBursting q).procClearOverloaded
          q).bursting = (s.lists.procClearBursting q).bursting := by
        unfold ProcLists.procClearOverloaded
        split_ifs <;> rfl
      change ((s.lists.procClearBursting q).procClearOverloaded
        q).bursting q = true at hq
      rw [hsame, procClearBursting_bursting] at hq
      simp at hq
  · refine ⟨fun th hth => ?_, h.threads.idle, h.threads.available⟩
    obtain ⟨hlive, hrest⟩ := h.threads.live th hth
    refine ⟨?_, hrest⟩
    rcases eq_or_ne th.p p with hthp | hne
    · exact .inr (congrArg some hthp.symm)
    · exact .inl ((hmem th.p).mpr ⟨hlive.resolve_right (by simp), hne⟩)
  · exact { h.cores with }
  · exact { h.poll with }
  · apply h.counted.congr
    intro q _
    have hcontrol : controlRef (some p) (s.leave p i).procs q =
        controlRef none s.procs q := by
      apply if_congr ?_ rfl rfl
      change q ∈ s.procs.pending ∨ q ∈ (s.dropClient i).procs.clients ∨
        some p = some q ↔ _
      rw [hmem q]
      rcases eq_or_ne q p with rfl | hne
      · simp [hp]
      · simp [hne, hne.symm]
    simp only [refCount, hcontrol]
    rfl

theorem freeThread_refs (h : RefInv (some p) s) (hthp : th.p = p)
    (hidx : th.idx < s.procs.threadCount th.p) :
    Meets anyFailure (s.freeThread th) fun t =>
      Steady (some p) s t ∧ t.threads.parked th = true := by
  obtain ⟨_, hstarted, hleft⟩ := h.procs.leaving_only p rfl
  have havailable := h.threads.available th (hthp ▸ hstarted) hidx
  unfold Dataplane.freeThread
  split_ifs with hset
  · exact ⟨h.steady, havailable.symm.trans hset⟩
  · have hparked : s.threads.parked th = false := by
      rw [← havailable]
      simpa using hset
    apply Meets.map
    apply (coresParkKthread_refs h hparked true 0).imp
    rintro r ⟨hr, hforced⟩
    exact ⟨hr, hforced rfl (hthp ▸ hleft)⟩

theorem RefInv.left (h : RefInv (some p) s)
    (hparked : ∀ th, th.p = p → th.idx < s.procs.threadCount th.p →
      s.threads.parked th = true) :
    RefInv none { s with refs := s.refs.procPut p } := by
  obtain ⟨hcreated, hstarted, hleft⟩ := h.procs.leaving_only p rfl
  have hcontrol : ∀ q, controlRef (some p) s.procs q =
      controlRef none s.procs q + if q = p then 1 else 0 := by
    intro q
    unfold controlRef
    rcases eq_or_ne q p with rfl | hne
    · simp [hstarted, hleft]
    · simp [hne, hne.symm]
  refine { h with
    procs := { h.procs with leaving_only := by simp }
    threads := { h.threads with live := fun th hth => ?_ }
    counted := ?_ }
  · obtain ⟨hlive, hidx, hcore⟩ := h.threads.live th hth
    refine ⟨.inl (hlive.resolve_right fun hleaving => ?_), hidx, hcore⟩
    have hthp : th.p = p := (Option.some.inj hleaving).symm
    exact Bool.noConfusion ((hparked th hthp hidx).symm.trans hth)
  · apply h.counted.put hcreated
    · simp only [refCount, hcontrol, if_true]
      omega
    · intro q hq
      simp only [refCount, hcontrol, if_neg hq]
      rfl

theorem dpClientsRemoveClient_refs (h : RefInv none s)
    (hp : p ∈ s.procs.clients) (hremoved : s.procs.removed p = true) :
    Meets anyFailure (s.dpClientsRemoveClient p) (RefInv none) := by
  obtain ⟨i, hidxOf, hi⟩ := idxOf?_of_mem hp
  have hpass : ∀ t, ∀ th ∈ procThreads p (s.procs.threadCount p),
      Steady (some p) (s.leave p i) t →
      Meets anyFailure (t.freeThread th) fun t' =>
        Steady (some p) (s.leave p i) t' ∧
        (th.p = p → t'.threads.parked th = true) ∧
        ∀ th', (th'.p = p → t.threads.parked th' = true) →
          th'.p = p → t'.threads.parked th' = true := by
    intro t th hth ht
    obtain ⟨_, _, hleft⟩ := ht.inv.procs.leaving_only p rfl
    obtain ⟨hthp, hidx⟩ := mem_procThreads.mp hth
    have hidx' : th.idx < t.procs.threadCount th.p := by
      rw [ht.procs, hthp]
      exact hidx
    apply (freeThread_refs ht.inv hthp hidx').imp
    rintro t' ⟨ht', hparked⟩
    exact ⟨ht.trans ht', fun _ => hparked,
      fun th' hth' hp' => ht'.parked th' (hp' ▸ hleft) (hth' hp')⟩
  unfold Dataplane.dpClientsRemoveClient
  rw [hidxOf]
  apply (Meets.foldlM_each _ _ (h.leave hi hremoved).steady hpass).bind
  rintro t ⟨ht, hall, _⟩
  apply ht.inv.left
  intro th hthp hidx
  rw [ht.procs, hthp] at hidx
  exact hall th (mem_procThreads.mpr ⟨hthp, hidx⟩) hthp

end Clients

section Runs

variable {a : DpAct π}

theorem refs_callInv (s : Dataplane π) :
    CallInv anyFailure (· ∈ s.procs.clients) (Steady none s) := by
  have hclient : ∀ {t : Dataplane π} {p}, Steady none s t →
      p ∈ s.procs.clients → p ∈ t.procs.clients := by
    intro t p ht hp
    rw [ht.procs]
    exact hp
  constructor
  · trivial
  · intro t u ht hsame
    refine ⟨ht.inv.congr hsame.procs hsame.lists hsame.threads hsame.poll
      hsame.cores hsame.refs, hsame.procs.trans ht.procs, ?_⟩
    rw [hsame.threads]
    exact ht.parked
  · intro t p ht hp
    have hlists := ht.inv.lists.setOverloaded (hclient ht hp)
    exact ⟨{ ht.inv with lists := hlists }, ht.procs, ht.parked⟩
  · intro t p ht
    have hlists := ht.inv.lists.clearOverloaded p
    exact ⟨{ ht.inv with lists := hlists }, ht.procs, ht.parked⟩
  · intro t p ht hp _
    apply (coresAddCore_refs ht.inv (hclient ht hp)).imp
    exact fun r hr => ht.trans hr
  · intro t ht p hp
    rw [ht.procs] at hp
    exact hp
  · intro t ht p hp
    have hflag := (ht.inv.lists.overloaded.mem_iff p).mp hp
    rw [← ht.procs]
    exact ht.inv.lists.overloaded_client p hflag

theorem boot_refs {cpuCount : Nat} (hcpus : cpuCount ≤ ncpu)
    (usable : Nat → Bool) :
    RefInv none (Dataplane.boot cpuCount usable : Dataplane π) := by
  have h := boot_inv (π := π) hcpus usable
  have hinit := coresInit_ok (π := π) hcpus usable
  refine ⟨h.procs, nofun, ⟨h.lists.overloaded, h.lists.overloaded_client,
    h.lists.bursting_client⟩, ⟨fun th hth => Bool.noConfusion hth, nofun,
    nofun⟩, ⟨h.cores.cpus, ?_, ?_, ?_⟩, ⟨h.poll.indexed, nofun, nofun⟩,
    ⟨nofun, nofun, nofun, nofun⟩⟩
  · intro core th hth
    exact absurd ((hinit.current core).symm.trans hth) (by simp)
  · intro core th hth
    exact absurd ((hinit.prev core).symm.trans hth) (by simp)
  · intro core th hth
    exact absurd ((hinit.next core).symm.trans hth) (by simp)

theorem dpNext_refs (h : RefInv none s) (hnext : dpNext s a = some t) :
    RefInv none t := by
  have hstep := dpNext_iff.mp hnext
  have hclient : ∀ th, s.Running th → th.p ∈ s.procs.clients := fun th hth =>
    (h.threads.live th hth.1).1.resolve_right (by simp)
  have hpark : ∀ th wb, s.Running th →
      Meets anyFailure (s.coresParkKthread th false wb)
        fun r => Steady none s r.1 := by
    intro th wb hth
    apply (coresParkKthread_refs h hth.1 false wb).imp
    exact fun r hr => hr.1
  cases a with
  | create p cfg =>
    obtain ⟨hfresh, ⟨⟩⟩ := guarded hstep
    exact h.create hfresh.1 cfg
  | add p =>
    simp only [dpStep] at hstep
    split_ifs at hstep with hpending
    have hadd : Meets anyFailure (s.dpClientsAddClient p) (RefInv none) := by
      unfold Dataplane.dpClientsAddClient
      split_ifs
      · apply Meets.map
        apply (coresAddCore_refs (h.reset hpending)
          (List.mem_append_right _ (by simp))).imp
        exact fun r hr => hr.inv
      · trivial
    exact hadd.of_ok (Option.some.inj hstep)
  | setRemoved p =>
    obtain ⟨-, ⟨⟩⟩ := guarded hstep
    refine { h with
      procs := { h.procs with }
      gone := fun q hq hpending hout => ?_
      threads := { h.threads with }
      cores := { h.cores with }
      poll := { h.poll with } }
    change update s.procs.removed p true q = true
    rcases eq_or_ne q p with rfl | hne
    · exact update_self ..
    · rw [update_of_ne hne]
      exact h.gone q hq hpending hout
  | remove p =>
    simp only [dpStep] at hstep
    split_ifs at hstep with hguard
    exact (dpClientsRemoveClient_refs h hguard.2 hguard.1).of_ok
      (Option.some.inj hstep)
  | parked th payload wb mem =>
    simp only [dpStep] at hstep
    split_ifs at hstep with hrunning
    have hcall := (refs_callInv s).cmdParked (hclient th hrunning)
      (hpark th wb hrunning) payload mem
    exact (hcall.of_ok (Option.some.inj hstep)).inv
  | parkedLast th payload wb now =>
    simp only [dpStep] at hstep
    split_ifs at hstep with hrunning
    have hcall := (refs_callInv s).cmdParkedLast (hpark th wb hrunning)
      payload now
    exact (hcall.of_ok (Option.some.inj hstep)).inv
  | rxSend p hash cmd payload mem =>
    simp only [dpStep] at hstep
    split_ifs at hstep with hguard
    have hcall : Meets anyFailure
        ((s.rxSendToRuntime p hash cmd payload mem).map Prod.fst)
        (Steady none s) := by
      apply Meets.map
      exact (refs_callInv s).rxSendToRuntime h.steady hguard hash cmd
        payload mem
    exact (hcall.of_ok (Option.some.inj hstep)).inv
  | adjust obs =>
    have hcall := (refs_callInv s).coresAdjustAssignments h.steady obs
    exact (hcall.of_ok (Option.some.inj hstep)).inv

theorem dpSystem_refs (hs : (dpSystem π).Reach anyStep s) : RefInv none s := by
  apply hs.invariant
  · rintro s ⟨cpuCount, usable, hcpus, rfl⟩
    exact boot_refs hcpus usable
  · intro s a t h _ hnext
    exact dpNext_refs h hnext

structure Unreferenced (s : Dataplane π) (p : π) : Prop where
  pending : p ∉ s.procs.pending
  clients : p ∉ s.procs.clients
  current : ∀ core th, s.cores.current core = some th → th.p ≠ p
  prev : ∀ core th, s.cores.prev core = some th → th.p ≠ p
  polled : ∀ th ∈ s.poll.ts, th.p ≠ p

theorem historyRefs_eq_zero {column : Nat → Option (ThreadRef π)}
    (hcolumn : ∀ core th, column core = some th → core < ncpu) :
    historyRefs column p = 0 ↔
      ∀ core th, column core = some th → th.p ≠ p := by
  unfold historyRefs
  rw [Finset.card_eq_zero, Finset.filter_eq_empty_iff]
  constructor
  · intro hempty core th hth hthp
    apply hempty (Finset.mem_range.mpr (hcolumn core th hth))
    rw [hth, Option.map_some, hthp]
  · intro hnone core _ hslot
    obtain ⟨th, hth, hthp⟩ := Option.map_eq_some_iff.mp hslot
    exact hnone core th hth hthp

theorem RefInv.count_eq_zero (h : RefInv none s) :
    refCount none s p = 0 ↔ Unreferenced s p := by
  have hcontrol : controlRef none s.procs p = 0 ↔
      p ∉ s.procs.pending ∧ p ∉ s.procs.clients := by
    simp [controlRef]
  have hcurrent := historyRefs_eq_zero (p := p) fun core th hth =>
    (h.cores.current core th hth).1
  have hprev := historyRefs_eq_zero (p := p) fun core th hth =>
    (h.cores.prev core th hth).1
  have hpoll : pollRefs s.poll.ts p = 0 ↔ ∀ th ∈ s.poll.ts, th.p ≠ p := by
    simp [pollRefs]
  simp only [refCount, Nat.add_eq_zero_iff, hcontrol, hcurrent, hprev, hpoll]
  constructor
  · rintro ⟨⟨⟨⟨hpending, hclients⟩, hcur⟩, hpre⟩, hts⟩
    exact ⟨hpending, hclients, hcur, hpre, hts⟩
  · rintro ⟨hpending, hclients, hcur, hpre, hts⟩
    exact ⟨⟨⟨⟨hpending, hclients⟩, hcur⟩, hpre⟩, hts⟩

/-- In every run, with removals or without: the counter of a proc is the number
of references to it, and `proc_release` has been called once for it if it was
created and nothing refers to it any more, and otherwise not at all. -/
theorem proc_refcount_exact (hs : (dpSystem π).Reach anyStep s) (p : π) :
    (p ∈ s.procs.created → s.refs.ref p =
      ((if p ∈ s.procs.pending ∨ p ∈ s.procs.clients then 1 else 0) +
        ((Finset.range ncpu).filter fun core =>
          (s.cores.current core).map ThreadRef.p = some p).card +
        ((Finset.range ncpu).filter fun core =>
          (s.cores.prev core).map ThreadRef.p = some p).card +
        s.poll.ts.countP fun th => decide (th.p = p) : Nat)) ∧
    (p ∈ s.procs.created → Unreferenced s p → s.refs.released.count p = 1) ∧
    (¬ (p ∈ s.procs.created ∧ Unreferenced s p) → s.refs.released.count p = 0) ∧
    (p ∈ s.refs.released → s.procs.removed p = true) := by
  have h := dpSystem_refs hs
  have hiff := h.count_eq_zero (p := p)
  have hunreleased : ¬ (p ∈ s.procs.created ∧ Unreferenced s p) →
      p ∉ s.refs.released := by
    intro hnot
    by_cases hp : p ∈ s.procs.created
    · exact h.counted.referenced p hp fun hzero =>
        hnot ⟨hp, hiff.mp hzero⟩
    · exact h.counted.unmade p hp
  refine ⟨fun hp => ?_, fun hp hnone => ?_, fun hnot => ?_, fun hrel => ?_⟩
  · rw [h.counted.ref_eq p hp]
    simp only [refCount, controlRef, historyRefs, pollRefs, reduceCtorEq,
      or_false]
  · exact h.counted.unreferenced p hp (hiff.mpr hnone)
  · exact List.count_eq_zero.mpr (hunreleased hnot)
  · by_contra hkept
    apply hunreleased _ hrel
    rintro ⟨hp, hnone⟩
    exact hkept (h.gone p hp hnone.pending hnone.clients)

/-- Proc 0 is removed from the only core, which proc 1 is given twice. -/
def outliveRun : List (DpAct Nat) :=
  [.create 0 (oneThread 1), .add 0, .setRemoved 0, .remove 0,
    .create 1 (oneThread 1), .add 1, .parked ⟨1, 0⟩ 0 0 ⟨fun _ => ⟨0, 0⟩, 0⟩]

theorem outliveRun_isSome :
    ((dpSystem Nat).exec oneCore outliveRun).isSome := by
  decide

/-- Proc 0 is gone, but the core was its own before it was proc 1's. -/
def outlived : Dataplane Nat :=
  ((dpSystem Nat).exec oneCore outliveRun).get outliveRun_isSome

theorem outlived_isSome :
    ((dpSystem Nat).next outlived
      (.rxSend 1 0 0 0 ⟨fun _ => ⟨0, 0⟩, 0⟩)).isSome := by
  decide

def forgotten : Dataplane Nat :=
  ((dpSystem Nat).next outlived
    (.rxSend 1 0 0 0 ⟨fun _ => ⟨0, 0⟩, 0⟩)).get outlived_isSome

theorem proc_refcount_exact_forgotten :
    (dpSystem Nat).Reach anyStep outlived ∧
      outlived.cores.prev 0 = some ⟨0, 0⟩ ∧
      0 ∉ outlived.procs.clients ∧ outlived.refs.released.count 0 = 0 ∧
      (dpSystem Nat).Reach anyStep forgotten ∧
      forgotten.refs.released.count 0 = 1 ∧ Unreferenced forgotten 0 := by
  have hs : (dpSystem Nat).Reach anyStep outlived :=
    System.Reach.exec (.init oneCore_init) outliveRun
      (Option.some_get outliveRun_isSome).symm
  have hs' : (dpSystem Nat).Reach anyStep forgotten :=
    .step hs trivial (Option.some_get outlived_isSome).symm
  have hprev : outlived.cores.prev 0 = some ⟨0, 0⟩ := by decide
  have hreleased : forgotten.refs.released.count 0 = 1 := by decide
  refine ⟨hs, hprev, by decide, ?_, hs', hreleased, ?_⟩
  · apply (proc_refcount_exact hs 0).2.2.1
    rintro ⟨_, hnone⟩
    exact hnone.prev 0 ⟨0, 0⟩ hprev rfl
  · by_contra hnone
    have hzero := (proc_refcount_exact hs' 0).2.2.1 fun hboth => hnone hboth.2
    omega

end Runs

end Libut.Hwalloc
