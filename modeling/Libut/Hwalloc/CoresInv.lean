import Libut.Hwalloc.Dataplane
import Mathlib.Data.Finset.Card

/-!
The representation invariant of the core allocator.

One set of threads, those not parked, is described by every table of the
daemon: per proc by the active array, the idle list and the bitmap
(`ThreadsOk`), across procs by the polling array (`PollOk`), and per core by
the history (`CoresOk`). Each predicate names the tables it is about, so a
function that changes one table is a lemma about the predicates of that table.

While `cores_free_proc` runs, the proc it frees is no client any more but still
has threads that are not parked: it is the `leaving` proc.
-/

namespace Libut.Hwalloc

open Function Machine

variable {π : Type}

structure Flagged (l : List π) (flag : π → Bool) : Prop where
  nodup : l.Nodup
  mem_iff : ∀ p, p ∈ l ↔ flag p = true

structure ProcsOk (leaving : Option π) (ps : ProcTable π) : Prop where
  clients_nodup : ps.clients.Nodup
  clients_created : ∀ p ∈ ps.clients, p ∈ ps.created
  pending_nodup : ps.pending.Nodup
  pending_created : ∀ p ∈ ps.pending, p ∈ ps.created
  clients_started : ∀ p ∈ ps.clients, p ∉ ps.pending
  leaving_only : ∀ p ∈ leaving,
    p ∈ ps.created ∧ p ∉ ps.pending ∧ p ∉ ps.clients

structure ListsOk (l : ProcLists π) (ts : ThreadTable π) (ps : ProcTable π) :
    Prop where
  overloaded : Flagged l.overloadedProcs l.overloaded
  bursting : Flagged l.burstingProcs l.bursting
  overloaded_client : ∀ p, l.overloaded p = true → p ∈ ps.clients
  bursting_client : ∀ p, l.bursting p = true → p ∈ ps.clients
  bursting_iff : ∀ p ∈ ps.clients, l.bursting p = true ↔
    ps.guaranteedCores p < (ts.activeThreads p).length

structure ThreadsOk (leaving : Option π) (ts : ThreadTable π)
    (ps : ProcTable π) : Prop where
  live : ∀ th, ts.parked th = false →
    (th.p ∈ ps.clients ∨ leaving = some th.p) ∧
    th.idx < ps.threadCount th.p
  active : ∀ p, Indexed (ts.activeThreads p) ts.atIdx
  mem_active : ∀ p th, th ∈ ts.activeThreads p ↔
    th.p = p ∧ ts.parked th = false
  idle_nodup : ∀ p, (ts.idleThreads p).Nodup
  mem_idle : ∀ p ∉ ps.pending, ∀ th, th ∈ ts.idleThreads p ↔
    th.p = p ∧ th.idx < ps.threadCount p ∧ ts.parked th = true
  available : ∀ th, th.p ∉ ps.pending → th.idx < ps.threadCount th.p →
    ts.availableThreads th = ts.parked th

structure PollOk (a : PollArray π) (ts : ThreadTable π) : Prop where
  indexed : Indexed a.ts a.tsIdx
  mem_ts : ∀ th, th ∈ a.ts ↔ ts.parked th = false
  tsIdx_none : ∀ th, ts.parked th = true → a.tsIdx th = none

def CoreTable.preempted [DecidableEq π] (c : CoreTable π) (p : π) :
    Finset Nat :=
  (Finset.range ncpu).filter fun core =>
    (c.next core).isSome = true ∧
    (c.current core).map ThreadRef.p = some p

def CoreTable.available (c : CoreTable π) : Finset Nat :=
  (Finset.range ncpu).filter fun core => c.availCores core = true

structure CoresOk [DecidableEq π] (c : CoreTable π) (ts : ThreadTable π)
    (ps : ProcTable π) : Prop where
  cpus : c.cpuCount ≤ ncpu
  online_lt : ∀ core, c.onlineCores core = true → core < c.cpuCount
  avail_online : ∀ core, c.availCores core = true → c.onlineCores core = true
  nr_avail : c.nrAvailCores = c.available.card
  avail_next : ∀ core, c.availCores core = true → c.next core = none
  offline : ∀ core, c.onlineCores core = false →
    c.current core = none ∧ c.next core = none
  busy : ∀ core, c.onlineCores core = true → c.availCores core = false →
    ∃ th, c.current core = some th ∧ ts.parked th = false ∧
      ts.core th = core
  waiting : ∀ core th, c.next core = some th →
    ts.parked th = false ∧ ts.core th = core ∧ c.current core ≠ some th
  placed : ∀ th, ts.parked th = false →
    c.onlineCores (ts.core th) = true ∧ c.availCores (ts.core th) = false ∧
    (c.current (ts.core th) = some th ∨ c.next (ts.core th) = some th)
  known : ∀ core th, c.current core = some th ∨ c.prev core = some th →
    th.p ∈ ps.created ∧ th.p ∉ ps.pending ∧ th.idx < ps.threadCount th.p
  core_online : ∀ th, th.p ∈ ps.clients → th.idx < ps.threadCount th.p →
    c.onlineCores (ts.core th) = true
  inflight : ∀ p, (c.inflightPreempts p).toNat = (c.preempted p).card

structure DpInv [DecidableEq π] (leaving : Option π) (s : Dataplane π) :
    Prop where
  procs : ProcsOk leaving s.procs
  lists : ListsOk s.lists s.threads s.procs
  threads : ThreadsOk leaving s.threads s.procs
  poll : PollOk s.poll s.threads
  cores : CoresOk s.cores s.threads s.procs

/-- The faults that are not about the allocator's own records: there is no core
to take, or an array is full. -/
def Fault.Exhausted (f : Fault) : Prop :=
  f = .noCores ∨ f = .overrun

/-- `ts` has no room for another thread. -/
def Dataplane.PollFull (s : Dataplane π) (f : Fault) : Prop :=
  f = .overrun ∧ ncpu ≤ s.poll.ts.length

section Lists

variable [DecidableEq π] {q : List π} {flag : π → Bool} {p : π}

theorem Flagged.set (h : Flagged q flag) (hp : flag p = false) :
    Flagged (p :: q) (update flag p true) := by
  refine ⟨List.nodup_cons.mpr ⟨fun hmem => ?_, h.nodup⟩, fun r => ?_⟩
  · exact Bool.noConfusion (hp.symm.trans ((h.mem_iff p).mp hmem))
  · rcases eq_or_ne r p with rfl | hne
    · simp
    · simp [hne, h.mem_iff r]

theorem Flagged.clear (h : Flagged q flag) :
    Flagged (q.erase p) (update flag p false) := by
  refine ⟨h.nodup.erase p, fun r => ?_⟩
  rcases eq_or_ne r p with rfl | hne
  · simp [h.nodup.mem_erase_iff]
  · simp [h.nodup.mem_erase_iff, hne, h.mem_iff r]

variable {l : ProcLists π} {ts : ThreadTable π} {ps : ProcTable π}

theorem procClearOverloaded_overloaded (l : ProcLists π) (p : π) :
    (l.procClearOverloaded p).overloaded =
      update l.overloaded p false := by
  unfold ProcLists.procClearOverloaded
  split_ifs with hp
  · rfl
  · rw [← Bool.eq_false_of_not_eq_true hp, update_eq_self]

theorem procSetBursting_bursting (l : ProcLists π) (p : π) :
    (l.procSetBursting p).bursting = update l.bursting p true := by
  unfold ProcLists.procSetBursting
  split_ifs with hp
  · rw [← hp, update_eq_self]
  · rfl

theorem procClearBursting_bursting (l : ProcLists π) (p : π) :
    (l.procClearBursting p).bursting = update l.bursting p false := by
  unfold ProcLists.procClearBursting
  split_ifs with hp
  · rfl
  · rw [← Bool.eq_false_of_not_eq_true hp, update_eq_self]

theorem ListsOk.setOverloaded (h : ListsOk l ts ps) (hp : p ∈ ps.clients) :
    ListsOk (l.procSetOverloaded p) ts ps := by
  unfold ProcLists.procSetOverloaded
  split_ifs with hover
  · exact h
  · refine ⟨h.overloaded.set (by simpa using hover), h.bursting, ?_,
      h.bursting_client, h.bursting_iff⟩
    intro r hr
    rcases eq_or_ne r p with rfl | hne
    · exact hp
    · exact h.overloaded_client r (by simpa [hne] using hr)

theorem ListsOk.clearOverloaded (h : ListsOk l ts ps) (p : π) :
    ListsOk (l.procClearOverloaded p) ts ps := by
  unfold ProcLists.procClearOverloaded
  split_ifs with hover
  · refine ⟨h.overloaded.clear, h.bursting, ?_, h.bursting_client,
      h.bursting_iff⟩
    intro r hr
    rcases eq_or_ne r p with rfl | hne
    · simp at hr
    · exact h.overloaded_client r (by simpa [hne] using hr)
  · exact h

end Lists

section Reserve

variable [DecidableEq π] {l : ProcLists π} {ts : ThreadTable π}
  {ps : ProcTable π} {a : PollArray π} {leaving : Option π}
  {th : ThreadRef π} {c : Nat}

theorem activate_length (ts : ThreadTable π) (th : ThreadRef π) (c : Nat)
    (p : π) :
    ((ts.activate th c).activeThreads p).length =
      (ts.activeThreads p).length + if p = th.p then 1 else 0 := by
  rcases eq_or_ne p th.p with rfl | hne
  · simp [ThreadTable.activate]
  · simp [ThreadTable.activate, hne]

theorem ThreadsOk.activate (h : ThreadsOk leaving ts ps)
    (hth : ts.parked th = true) (hclient : th.p ∈ ps.clients)
    (hidx : th.idx < ps.threadCount th.p) :
    ThreadsOk leaving (ts.activate th c) ps := by
  have hnot : ∀ p, th ∉ ts.activeThreads p := fun p hmem =>
    Bool.noConfusion (hth.symm.trans ((h.mem_active p th).mp hmem).2)
  refine ⟨fun th' hth' => ?_, fun p => ?_, fun p th' => ?_, fun p => ?_,
    fun p hp th' => ?_, fun th' hp hth' => ?_⟩
  · rcases eq_or_ne th' th with rfl | hne
    · exact ⟨.inl hclient, hidx⟩
    · exact h.live th' (by simpa [ThreadTable.activate, hne] using hth')
  · have hidxOther : ∀ th' ∈ ts.activeThreads p,
        (ts.activate th c).atIdx th' = ts.atIdx th' := fun th' hth' =>
      update_of_ne (fun heq : th' = th => hnot p (heq ▸ hth')) ..
    rcases eq_or_ne p th.p with rfl | hne
    · simp only [ThreadTable.activate, update_self]
      exact (h.active th.p).push hidxOther (update_self ..)
    · simp only [ThreadTable.activate, update_of_ne hne]
      exact (h.active p).congr hidxOther
  · rcases eq_or_ne th' th with rfl | hne
    · rcases eq_or_ne p th'.p with rfl | hp
      · simp [ThreadTable.activate]
      · simp [ThreadTable.activate, hp, hnot p, hp.symm]
    · rcases eq_or_ne p th.p with rfl | hp
      · simp [ThreadTable.activate, hne, h.mem_active]
      · simp [ThreadTable.activate, hp, hne, h.mem_active]
  · rcases eq_or_ne p th.p with rfl | hp
    · simpa [ThreadTable.activate] using (h.idle_nodup th.p).erase th
    · simpa [ThreadTable.activate, hp] using h.idle_nodup p
  · rcases eq_or_ne th' th with rfl | hne
    · rcases eq_or_ne p th'.p with rfl | hp'
      · simp [ThreadTable.activate, (h.idle_nodup th'.p).mem_erase_iff]
      · simp [ThreadTable.activate, hp', h.mem_idle p hp, hp'.symm]
    · rcases eq_or_ne p th.p with rfl | hp'
      · simp [ThreadTable.activate, (h.idle_nodup th.p).mem_erase_iff, hne,
          h.mem_idle _ hp]
      · simp [ThreadTable.activate, hp', hne, h.mem_idle p hp]
  · rcases eq_or_ne th' th with rfl | hne
    · simp [ThreadTable.activate]
    · simpa [ThreadTable.activate, hne] using h.available th' hp hth'

theorem PollOk.push (h : PollOk a ts) (hth : ts.parked th = true) :
    PollOk (a.push th) (ts.activate th c) := by
  have hnot : th ∉ a.ts := fun hmem =>
    Bool.noConfusion (hth.symm.trans ((h.mem_ts th).mp hmem))
  refine ⟨?_, fun th' => ?_, fun th' hth' => ?_⟩
  · refine h.indexed.push (fun th' hth' => ?_) (update_self ..)
    exact update_of_ne (fun heq : th' = th => hnot (heq ▸ hth')) ..
  · rcases eq_or_ne th' th with rfl | hne
    · simp [PollArray.push, ThreadTable.activate]
    · simp [PollArray.push, ThreadTable.activate, hne, h.mem_ts]
  · rcases eq_or_ne th' th with rfl | hne
    · simp [ThreadTable.activate] at hth'
    · simp only [PollArray.push, update_of_ne hne]
      exact h.tsIdx_none th' (by simpa [ThreadTable.activate, hne] using hth')

theorem ListsOk.activate (h : ListsOk l ts ps) (hclient : th.p ∈ ps.clients) :
    ListsOk
      (if ps.guaranteedCores th.p <
          ((ts.activate th c).activeThreads th.p).length then
        l.procSetBursting th.p else l)
      (ts.activate th c) ps := by
  have hother : ∀ p ∈ ps.clients, p ≠ th.p → (l.bursting p = true ↔
      ps.guaranteedCores p < ((ts.activate th c).activeThreads p).length) := by
    intro p hp hne
    rw [activate_length, if_neg hne]
    exact h.bursting_iff p hp
  split_ifs with hg
  · have hbursting := procSetBursting_bursting l th.p
    unfold ProcLists.procSetBursting at hbursting ⊢
    refine ⟨?_, ?_, ?_, fun p hp => ?_, fun p hp => ?_⟩
    · split_ifs <;> exact h.overloaded
    · split_ifs with hb
      · exact h.bursting
      · exact h.bursting.set (by simpa using hb)
    · split_ifs <;> exact h.overloaded_client
    · rw [hbursting] at hp
      rcases eq_or_ne p th.p with rfl | hne
      · exact hclient
      · exact h.bursting_client p (by simpa [hne] using hp)
    · rw [hbursting]
      rcases eq_or_ne p th.p with rfl | hne
      · simpa using hg
      · simpa [hne] using hother p hp hne
  · refine { h with bursting_iff := fun p hp => ?_ }
    rcases eq_or_ne p th.p with rfl | hne
    · rw [h.bursting_iff _ hp]
      rw [activate_length, if_pos rfl] at hg ⊢
      omega
    · exact hother p hp hne

theorem pollThread_meets {s : Dataplane π} (hts : s.poll.tsIdx th = none) :
    Meets s.PollFull (s.pollThread th) fun t =>
      s.poll.ts.length < ncpu ∧
      t = { s with poll := s.poll.push th, refs := s.refs.procGet th.p } := by
  unfold Dataplane.pollThread
  rw [if_neg (not_not_intro hts)]
  split_ifs with hroom
  · exact ⟨hroom, rfl⟩
  · exact ⟨rfl, not_lt.mp hroom⟩

theorem threadReserve_meets {s : Dataplane π}
    (hlists : ListsOk s.lists s.threads s.procs)
    (hthreads : ThreadsOk leaving s.threads s.procs)
    (hpoll : PollOk s.poll s.threads) (hth : s.threads.parked th = true)
    (hclient : th.p ∈ s.procs.clients)
    (hidx : th.idx < s.procs.threadCount th.p) :
    Meets s.PollFull (s.threadReserve th c) fun t =>
      s.poll.ts.length < ncpu ∧ t.threads = s.threads.activate th c ∧
      t.cores = s.cores ∧ t.procs = s.procs ∧ t.wakes = s.wakes ∧
      ListsOk t.lists t.threads t.procs ∧
      ThreadsOk leaving t.threads t.procs ∧ PollOk t.poll t.threads := by
  unfold Dataplane.threadReserve
  refine Meets.imp (pollThread_meets ?_) ?_
  · exact hpoll.tsIdx_none th hth
  rintro t ⟨hroom, rfl⟩
  exact ⟨hroom, rfl, rfl, rfl, rfl, (hlists.activate hclient).clearOverloaded th.p,
    hthreads.activate hth hclient hidx, hpoll.push hth⟩

end Reserve

section Cede

variable [DecidableEq π] {l : ProcLists π} {ts : ThreadTable π}
  {ps : ProcTable π} {a : PollArray π} {leaving : Option π}
  {th : ThreadRef π} {i : Nat}

theorem reindex_moved {idx : ThreadRef π → Option Nat} {q : List (ThreadRef π)}
    {last : ThreadRef π} (hlast : last ∈ q.getLast?) :
    reindex idx q i last = some i := by
  rw [reindex, Option.mem_def.mp hlast]
  exact update_self ..

theorem reindex_other {idx : ThreadRef π → Option Nat} {q : List (ThreadRef π)}
    (hother : th ∉ q.getLast?) : reindex idx q i th = idx th := by
  unfold reindex
  cases hlast : q.getLast? with
  | none => rfl
  | some moved =>
    refine update_of_ne ?_ ..
    rintro rfl
    exact hother hlast

omit [DecidableEq π] in
theorem ThreadsOk.active_slot (h : ThreadsOk leaving ts ps)
    (hth : ts.parked th = false) :
    ∃ i, ts.atIdx th = some i ∧ (ts.activeThreads th.p)[i]? = some th := by
  have hmem := (h.mem_active th.p th).mpr ⟨rfl, hth⟩
  obtain ⟨i, hi⟩ := List.mem_iff_getElem?.mp hmem
  exact ⟨i, h.active th.p i th hi, hi⟩

theorem deactivate_length (h : ThreadsOk leaving ts ps)
    (hth : ts.parked th = false) (p : π) :
    ((ts.deactivate th i).activeThreads p).length + (if p = th.p then 1 else 0)
      = (ts.activeThreads p).length := by
  rcases eq_or_ne p th.p with rfl | hne
  · have hmem := (h.mem_active th.p th).mpr ⟨rfl, hth⟩
    have hpos := List.length_pos_of_mem hmem
    simp only [ThreadTable.deactivate, update_self, swapRemove_length, if_true]
    omega
  · simp [ThreadTable.deactivate, hne]

theorem ThreadsOk.deactivate (h : ThreadsOk leaving ts ps)
    (hth : ts.parked th = false) (hstarted : th.p ∉ ps.pending)
    (hi : (ts.activeThreads th.p)[i]? = some th) :
    ThreadsOk leaving (ts.deactivate th i) ps := by
  have hidx := (h.live th hth).2
  have hbusy : th ∉ ts.idleThreads th.p := fun hmem =>
    Bool.noConfusion (hth.symm.trans
      ((h.mem_idle th.p hstarted th).mp hmem).2.2)
  have hlast : ∀ last ∈ (ts.activeThreads th.p).getLast?, last.p = th.p :=
    fun last hlast =>
      ((h.mem_active th.p last).mp (List.mem_of_getLast? hlast)).1
  refine ⟨fun th' hth' => ?_, fun p => ?_, fun p th' => ?_, fun p => ?_,
    fun p hp th' => ?_, fun th' hp hth' => ?_⟩
  · rcases eq_or_ne th' th with rfl | hne
    · simp [ThreadTable.deactivate] at hth'
    · exact h.live th' (by simpa [ThreadTable.deactivate, hne] using hth')
  · rcases eq_or_ne p th.p with rfl | hne
    · simp only [ThreadTable.deactivate, update_self]
      refine (h.active th.p).swapRemove hi (fun last hmem _ => ?_)
        fun th' _ _ hother => ?_
      · exact reindex_moved hmem
      · exact reindex_other hother
    · simp only [ThreadTable.deactivate, update_of_ne hne]
      refine (h.active p).congr fun th' hth' => reindex_other fun hmem => ?_
      exact hne (((h.mem_active p th').mp hth').1.symm.trans (hlast th' hmem))
  · rcases eq_or_ne p th.p with rfl | hp
    · simp only [ThreadTable.deactivate, update_self,
        (h.active th.p).mem_swapRemove hi, h.mem_active]
      rcases eq_or_ne th' th with rfl | hne
      · simp
      · simp [hne]
    · rcases eq_or_ne th' th with rfl | hne
      · simp [ThreadTable.deactivate, hp, h.mem_active, hp.symm]
      · simp [ThreadTable.deactivate, hp, hne, h.mem_active]
  · rcases eq_or_ne p th.p with rfl | hp
    · simpa [ThreadTable.deactivate] using ⟨hbusy, h.idle_nodup th.p⟩
    · simpa [ThreadTable.deactivate, hp] using h.idle_nodup p
  · rcases eq_or_ne th' th with rfl | hne
    · rcases eq_or_ne p th'.p with rfl | hp'
      · simp [ThreadTable.deactivate, hidx]
      · simp [ThreadTable.deactivate, hp', h.mem_idle p hp, hp'.symm]
    · rcases eq_or_ne p th.p with rfl | hp'
      · simp [ThreadTable.deactivate, hne, h.mem_idle _ hp]
      · simp [ThreadTable.deactivate, hp', hne, h.mem_idle p hp]
  · rcases eq_or_ne th' th with rfl | hne
    · simp [ThreadTable.deactivate]
    · simpa [ThreadTable.deactivate, hne] using h.available th' hp hth'

theorem PollOk.drop (h : PollOk a ts) (hth : ts.parked th = false) {j : Nat}
    (hj : a.ts[j]? = some th) : PollOk (a.drop th j) (ts.deactivate th i) := by
  refine ⟨?_, fun th' => ?_, fun th' hth' => ?_⟩
  · refine h.indexed.swapRemove hj (fun last hmem hne => ?_)
      fun th' _ hne hother => ?_
    · exact (update_of_ne hne ..).trans (reindex_moved hmem)
    · exact (update_of_ne hne ..).trans (reindex_other hother)
  · simp only [PollArray.drop, h.indexed.mem_swapRemove hj, h.mem_ts]
    rcases eq_or_ne th' th with rfl | hne
    · simp [ThreadTable.deactivate]
    · simp [ThreadTable.deactivate, hne]
  · rcases eq_or_ne th' th with rfl | hne
    · exact update_self ..
    · have hparked : ts.parked th' = true := by
        simpa [ThreadTable.deactivate, hne] using hth'
      have hnotlast : th' ∉ a.ts.getLast? := fun hmem =>
        Bool.noConfusion (hparked.symm.trans
          ((h.mem_ts th').mp (List.mem_of_getLast? hmem)))
      exact (update_of_ne hne ..).trans
        ((reindex_other hnotlast).trans (h.tsIdx_none th' hparked))

theorem ListsOk.deactivate (h : ListsOk l ts ps)
    (hthreads : ThreadsOk leaving ts ps) (hth : ts.parked th = false) :
    ListsOk
      (if ((ts.deactivate th i).activeThreads th.p).length =
          ps.guaranteedCores th.p then
        l.procClearBursting th.p else l)
      (ts.deactivate th i) ps := by
  have hlength := deactivate_length (i := i) hthreads hth
  have hother : ∀ p ∈ ps.clients, p ≠ th.p → (l.bursting p = true ↔
      ps.guaranteedCores p <
        ((ts.deactivate th i).activeThreads p).length) := by
    intro p hp hne
    rw [h.bursting_iff p hp, ← hlength p, if_neg hne, add_zero]
  have hself := hlength th.p
  rw [if_pos rfl] at hself
  split_ifs with hg
  · have hbursting := procClearBursting_bursting l th.p
    unfold ProcLists.procClearBursting at hbursting ⊢
    refine ⟨?_, ?_, ?_, fun p hp => ?_, fun p hp => ?_⟩
    · split_ifs <;> exact h.overloaded
    · split_ifs with hb
      · exact h.bursting.clear
      · exact h.bursting
    · split_ifs <;> exact h.overloaded_client
    · rw [hbursting] at hp
      rcases eq_or_ne p th.p with rfl | hne
      · simp at hp
      · exact h.bursting_client p (by simpa [hne] using hp)
    · rw [hbursting]
      rcases eq_or_ne p th.p with rfl | hne
      · simp [hg]
      · simpa [hne] using hother p hp hne
  · refine { h with bursting_iff := fun p hp => ?_ }
    rcases eq_or_ne p th.p with rfl | hne
    · rw [h.bursting_iff _ hp]
      omega
    · exact hother p hp hne

theorem unpollThread_eq {s : Dataplane π} {j : Nat}
    (hts : s.poll.tsIdx th = some j) :
    s.unpollThread th =
      { s with poll := s.poll.drop th j, refs := s.refs.procPut th.p } := by
  rw [Dataplane.unpollThread, hts]

theorem threadCede_meets {s : Dataplane π}
    (hlists : ListsOk s.lists s.threads s.procs)
    (hthreads : ThreadsOk leaving s.threads s.procs)
    (hpoll : PollOk s.poll s.threads) (hth : s.threads.parked th = false)
    (hstarted : th.p ∉ s.procs.pending) :
    Meets (fun _ => False) (s.threadCede th) fun t =>
      (∃ i, t.threads = s.threads.deactivate th i) ∧ t.cores = s.cores ∧
      t.procs = s.procs ∧ t.wakes = s.wakes ∧
      ListsOk t.lists t.threads t.procs ∧
      ThreadsOk leaving t.threads t.procs ∧ PollOk t.poll t.threads := by
  obtain ⟨i, hidx, hslot⟩ := hthreads.active_slot hth
  obtain ⟨j, hj⟩ := List.mem_iff_getElem?.mp ((hpoll.mem_ts th).mpr hth)
  have htsIdx : s.poll.tsIdx th = some j := hpoll.indexed j th hj
  rw [Dataplane.threadCede, hidx]
  change _ ∧ _
  rw [unpollThread_eq (j := j)]
  · exact ⟨⟨i, rfl⟩, rfl, rfl, rfl, hlists.deactivate hthreads hth,
      hthreads.deactivate hth hstarted hslot, hpoll.drop hth hj⟩
  · exact htsIdx

end Cede

end Libut.Hwalloc
