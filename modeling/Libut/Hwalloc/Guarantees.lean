import Libut.Hwalloc.DataplaneFrame
import Libut.Hwalloc.DataplaneRuns
import Mathlib.Algebra.Order.BigOperators.Group.Finset

/-!
Core guarantees. A proc that has fewer active threads than it was guaranteed
cores may take a core from a bursting proc, unless somebody already waits for
that core. As long as the guarantees add up to at most the online cores there
is one to take: a count of the cores that are held and the cores that are waited
for.

When a core is taken, the flag `bursting` of the victim does not tell how many
of its cores have been asked for already, so a proc can be asked for more than
its surplus. And a proc without a guarantee is started all the same, whether or
not there is a core for it.
-/

namespace Libut.Hwalloc

open Function Machine

variable {π : Type} [DecidableEq π] {s t u : Dataplane π} {th : ThreadRef π}
  {p : π} {a : DpAct π}

section Count

def CoreTable.held (c : CoreTable π) (p : π) : Finset Nat :=
  (Finset.range ncpu).filter fun core =>
    c.availCores core = false ∧ (c.current core).map ThreadRef.p = some p

def CoreTable.awaited (c : CoreTable π) (p : π) : Finset Nat :=
  (Finset.range ncpu).filter fun core =>
    (c.next core).map ThreadRef.p = some p

def CoreTable.online (c : CoreTable π) : Finset Nat :=
  (Finset.range ncpu).filter fun core => c.onlineCores core = true

omit [DecidableEq π] in
theorem CoreTable.first_online {c : CoreTable π} (hpos : 0 < c.online.card) :
    c.onlineCores (bitmapFindNextSet c.onlineCores ncpu) = true := by
  rcases bitmapFindNextSet_cases c.onlineCores ncpu with hset | hnone
  · exact hset.1
  · have hempty : c.online = ∅ :=
      Finset.filter_eq_empty_iff.mpr fun i hi => by
        simp [hnone.2 i (Finset.mem_range.mp hi)]
    rw [hempty, Finset.card_empty] at hpos
    exact absurd hpos (lt_irrefl 0)

theorem mem_held (h : DpInv none s) {core : Nat} {cur : ThreadRef π}
    (hbusy : s.cores.availCores core = false)
    (hcur : s.cores.current core = some cur) : core ∈ s.cores.held cur.p := by
  have hlt := h.cores.core_lt (h.cores.current_online hcur)
  simp [CoreTable.held, hlt, hbusy, hcur]

theorem mem_awaited (h : DpInv none s) {core : Nat} {n : ThreadRef π}
    (hnext : s.cores.next core = some n) : core ∈ s.cores.awaited n.p := by
  obtain ⟨hparked, hcore, _⟩ := h.cores.waiting core n hnext
  have hlt := h.cores.core_lt (h.cores.placed n hparked).1
  rw [hcore] at hlt
  simp [CoreTable.awaited, hlt, hnext]

/-- Each active thread of a proc runs on one core or waits for one. -/
theorem held_add_awaited_le (h : DpInv none s) (p : π) :
    (s.cores.held p).card + (s.cores.awaited p).card ≤
      (s.threads.activeThreads p).length := by
  set active := (s.threads.activeThreads p).toFinset with hactive
  set running := active.filter fun th =>
    s.cores.current (s.threads.core th) = some th with hrunning
  set waiting := active.filter fun th =>
    s.cores.next (s.threads.core th) = some th with hwaiting
  have hheld : s.cores.held p ⊆ running.image s.threads.core := by
    intro core hcore
    simp only [CoreTable.held, Finset.mem_filter, Option.map_eq_some_iff]
      at hcore
    obtain ⟨_, hbusy, cur, hcur, rfl⟩ := hcore
    have honline := h.cores.current_online hcur
    obtain ⟨cur', hcur', hparked, rfl⟩ := h.cores.busy core honline hbusy
    cases hcur.symm.trans hcur'
    simp only [hrunning, hactive, Finset.mem_image, Finset.mem_filter,
      List.mem_toFinset, h.threads.mem_active]
    exact ⟨cur, ⟨⟨rfl, hparked⟩, hcur⟩, rfl⟩
  have hawaited : s.cores.awaited p ⊆ waiting.image s.threads.core := by
    intro core hcore
    simp only [CoreTable.awaited, Finset.mem_filter, Option.map_eq_some_iff]
      at hcore
    obtain ⟨_, n, hnext, rfl⟩ := hcore
    obtain ⟨hparked, rfl, _⟩ := h.cores.waiting core n hnext
    simp only [hwaiting, hactive, Finset.mem_image, Finset.mem_filter,
      List.mem_toFinset, h.threads.mem_active]
    exact ⟨n, ⟨⟨rfl, hparked⟩, hnext⟩, rfl⟩
  have hdisjoint : Disjoint running waiting := by
    apply Finset.disjoint_filter.mpr
    intro th _ hcur hnext
    exact (h.cores.waiting _ th hnext).2.2 hcur
  calc
    (s.cores.held p).card + (s.cores.awaited p).card
      ≤ (running.image s.threads.core).card +
          (waiting.image s.threads.core).card :=
        Nat.add_le_add (Finset.card_le_card hheld)
          (Finset.card_le_card hawaited)
    _ ≤ running.card + waiting.card :=
        Nat.add_le_add Finset.card_image_le Finset.card_image_le
    _ = (running ∪ waiting).card :=
        (Finset.card_union_of_disjoint hdisjoint).symm
    _ ≤ active.card := Finset.card_le_card
        (Finset.union_subset (Finset.filter_subset ..)
          (Finset.filter_subset ..))
    _ ≤ (s.threads.activeThreads p).length := List.toFinset_card_le _

/-- The guarantees can be honoured: they add up to at most the online cores,
and no proc waits for more cores than it is guaranteed. -/
structure GuaranteeInv (s : Dataplane π) : Prop where
  inv : DpInv none s
  marks : ∀ p, s.procs.removed p = false
  total : (s.procs.clients.map s.procs.guaranteedCores).sum ≤
    s.cores.online.card
  awaited : ∀ p ∈ s.procs.clients,
    (s.cores.awaited p).card ≤ s.procs.guaranteedCores p

/-- With every core busy and none to take, each online core runs a thread of a
proc that does not burst, or is waited for. -/
theorem NoCore.online_subset (h : DpInv none s) (hnone : s.NoCore) :
    s.cores.online ⊆
      (s.procs.clients.toFinset.filter fun q =>
        s.lists.bursting q = false).biUnion s.cores.held ∪
      s.procs.clients.toFinset.biUnion s.cores.awaited := by
  intro core hcore
  simp only [CoreTable.online, Finset.mem_filter] at hcore
  obtain ⟨hbusy, hpreemptible⟩ := hnone core
  obtain ⟨cur, hcur, hparked, _⟩ := h.cores.busy core hcore.2 hbusy
  have hclient : cur.p ∈ s.procs.clients :=
    (h.threads.live cur hparked).1.resolve_right (by simp)
  rw [Finset.mem_union, Finset.mem_biUnion, Finset.mem_biUnion]
  cases hbursting : s.lists.bursting cur.p with
  | false =>
    left
    exact ⟨cur.p, by simp [hclient, hbursting], mem_held h hbusy hcur⟩
  | true =>
    right
    cases hnext : s.cores.next core with
    | none =>
      have hpre := preemptible_iff.mpr ⟨cur, hcur, hbursting, hnext⟩
      exact Bool.noConfusion (hpreemptible.symm.trans hpre)
    | some n =>
      obtain ⟨hn, _⟩ := h.cores.waiting core n hnext
      have hwaiter : n.p ∈ s.procs.clients :=
        (h.threads.live n hn).1.resolve_right (by simp)
      exact ⟨n.p, by simpa using hwaiter, mem_awaited h hnext⟩

/-- The cores a proc accounts for when no core can be taken: those it waits
for, and unless it bursts those it runs on. -/
def Dataplane.share (s : Dataplane π) (q : π) : Nat :=
  (if s.lists.bursting q = false then (s.cores.held q).card else 0) +
    (s.cores.awaited q).card

theorem NoCore.online_le (h : DpInv none s) (hnone : s.NoCore) :
    s.cores.online.card ≤ ∑ q ∈ s.procs.clients.toFinset, s.share q := by
  set procs := s.procs.clients.toFinset
  calc
    s.cores.online.card
      ≤ ((procs.filter fun q => s.lists.bursting q = false).biUnion
            s.cores.held ∪ procs.biUnion s.cores.awaited).card :=
        Finset.card_le_card (NoCore.online_subset h hnone)
    _ ≤ ((procs.filter fun q => s.lists.bursting q = false).biUnion
            s.cores.held).card + (procs.biUnion s.cores.awaited).card :=
        Finset.card_union_le ..
    _ ≤ (∑ q ∈ procs.filter fun q => s.lists.bursting q = false,
            (s.cores.held q).card) + ∑ q ∈ procs, (s.cores.awaited q).card :=
        Nat.add_le_add Finset.card_biUnion_le Finset.card_biUnion_le
    _ = ∑ q ∈ procs, s.share q := by
        rw [Finset.sum_filter, ← Finset.sum_add_distrib]
        rfl

/-- A client accounts for no more cores than it is guaranteed, and for fewer if
it is short of its guarantee. -/
theorem GuaranteeInv.share_le (h : GuaranteeInv s) (hp : p ∈ s.procs.clients) :
    s.share p ≤ s.procs.guaranteedCores p := by
  have hactive := held_add_awaited_le h.inv p
  have hbursting := h.inv.lists.bursting_iff p hp
  have hawaited := h.awaited p hp
  unfold Dataplane.share
  split_ifs with hflag
  · rw [hflag] at hbursting
    simp only [Bool.false_eq_true, false_iff, not_lt] at hbursting
    omega
  · omega

theorem GuaranteeInv.share_lt (h : GuaranteeInv s)
    (hshort : (s.threads.activeThreads p).length <
      s.procs.guaranteedCores p) : s.share p < s.procs.guaranteedCores p := by
  have hactive := held_add_awaited_le h.inv p
  unfold Dataplane.share
  split_ifs <;> omega

theorem GuaranteeInv.not_noCore (h : GuaranteeInv s) (hp : p ∈ s.procs.clients)
    (hshort : (s.threads.activeThreads p).length <
      s.procs.guaranteedCores p) : ¬ s.NoCore := by
  intro hnone
  have hlt : ∑ q ∈ s.procs.clients.toFinset, s.share q <
      ∑ q ∈ s.procs.clients.toFinset, s.procs.guaranteedCores q := by
    apply Finset.sum_lt_sum
    · intro q hq
      exact h.share_le (by simpa using hq)
    · exact ⟨p, by simpa using hp, h.share_lt hshort⟩
  have htotal := h.total
  rw [← List.sum_toFinset _ h.inv.procs.clients_nodup] at htotal
  exact absurd (NoCore.online_le h.inv hnone)
    (not_le.mpr (hlt.trans_le htotal))

end Count

section Runs

theorem awaited_mono
    (h : ∀ core n, t.cores.next core = some n → s.cores.next core = some n)
    (q : π) : (t.cores.awaited q).card ≤ (s.cores.awaited q).card := by
  apply Finset.card_le_card
  intro core hcore
  simp only [CoreTable.awaited, Finset.mem_filter, Option.map_eq_some_iff]
    at hcore ⊢
  obtain ⟨hlt, n, hnext, hn⟩ := hcore
  exact ⟨hlt, n, h core n hnext, hn⟩

theorem GuaranteeInv.of_next (h : GuaranteeInv s) (ht : DpInv none t)
    (hprocs : t.procs = s.procs)
    (honline : t.cores.onlineCores = s.cores.onlineCores)
    (hnext : ∀ core n, t.cores.next core = some n →
      s.cores.next core = some n) : GuaranteeInv t := by
  refine ⟨ht, ?_, ?_, fun p hp => ?_⟩
  · rw [hprocs]
    exact h.marks
  · unfold CoreTable.online
    rw [hprocs, honline]
    exact h.total
  · rw [hprocs] at hp ⊢
    exact (awaited_mono hnext p).trans (h.awaited p hp)

/-- The thread that gets a promised core is one more that waits. -/
theorem awaited_preempted {cur : ThreadRef π} {core : Nat}
    (h : Preempted s th core cur t) (q : π) :
    (t.cores.awaited q).card ≤
      (s.cores.awaited q).card + if q = th.p then 1 else 0 := by
  rw [h.cores]
  by_cases hq : q = th.p
  · rw [if_pos hq]
    refine (Finset.card_le_card ?_).trans (Finset.card_insert_le core _)
    intro d hd
    simp only [CoreTable.awaited, CoreTable.beginPreempt, Finset.mem_insert,
      Finset.mem_filter] at hd ⊢
    rcases eq_or_ne d core with rfl | hne
    · exact .inl rfl
    · exact .inr (by simpa [hne] using hd)
  · rw [if_neg hq, add_zero]
    apply Finset.card_le_card
    intro d hd
    rw [CoreTable.awaited, Finset.mem_filter] at hd ⊢
    obtain ⟨hlt, hd⟩ := hd
    rcases eq_or_ne d core with rfl | hne
    · exact absurd (by simpa [CoreTable.beginPreempt] using hd) (Ne.symm hq)
    · exact ⟨hlt, by simpa [CoreTable.beginPreempt, hne] using hd⟩

theorem GuaranteeInv.added (h : GuaranteeInv s) (hp : p ∈ s.procs.clients)
    (hentitled : Entitled s p) (ht : DpInv none t) {r : Option (ThreadRef π)}
    (hadded : CoreAdded s p t r) : GuaranteeInv t := by
  cases hadded with
  | full => exact h
  | granted _ hthp _ hgranted =>
    have honline : t.cores.onlineCores = s.cores.onlineCores := by
      rw [hgranted.cores]
      rfl
    apply h.of_next ht hgranted.procs honline
    intro core n hn
    exact ((hgranted.released (hthp ▸ hp)).next core n hn).1
  | @preempted th cur core t hnone _ _ _ _ hthp _ hpreempted =>
    have hshort := hentitled.resolve_right (by omega)
    refine ⟨ht, ?_, ?_, fun q hq => ?_⟩
    · rw [hpreempted.procs]
      exact h.marks
    · rw [hpreempted.procs, hpreempted.cores]
      exact h.total
    · rw [hpreempted.procs] at hq ⊢
      have hwaits := awaited_preempted hpreempted q
      have hold := h.awaited q hq
      split_ifs at hwaits with hqp
      · have hactive := held_add_awaited_le h.inv q
        rw [hqp, hthp] at hactive hwaits ⊢
        omega
      · omega

theorem GuaranteeInv.addCore (h : GuaranteeInv s) (hp : p ∈ s.procs.clients)
    (hentitled : Entitled s p) :
    Meets s.PollFull (s.coresAddCore p) fun r =>
      GuaranteeInv r.1 ∧ CoreAdded s p r.1 r.2 := by
  apply Meets.weaken ((coresAddCore_meets h.inv hp).imp ?_) ?_
  · rintro r ⟨hr, hadded⟩
    exact ⟨h.added hp hentitled hr hadded, hadded⟩
  · rintro f (⟨_, hnone⟩ | hfull)
    · exfalso
      rcases hentitled with hshort | hidle
      · exact h.not_noCore hp hshort hnone
      · have hzero := h.inv.cores.none_available fun i _ => (hnone i).1
        omega
    · exact hfull

theorem CoreReleased.onlineCores (h : CoreReleased s th t) :
    t.cores.onlineCores = s.cores.onlineCores := by
  cases h with
  | regranted _ _ hcores _ _ hregranted =>
    cases hregranted with
    | idle _ hcores' =>
      rw [hcores', hcores]
      rfl
    | granted _ _ hgranted =>
      rw [hgranted.cores, hcores]
      rfl
  | handed _ _ _ hcores =>
    rw [hcores]
    rfl

theorem GuaranteeInv.park (h : GuaranteeInv s) (hth : s.Running th)
    (wb : BitVec 32) :
    Meets (· = Fault.overrun) (s.coresParkKthread th false wb) fun r =>
      GuaranteeInv r.1 ∧ r.1.procs = s.procs := by
  apply (coresParkKthread_meets h.inv hth (fun n _ => h.marks n.p) false wb).imp
  rintro r ⟨hr, hparked⟩
  have hreleased := parked_released hparked
  have honline : r.1.cores.onlineCores = s.cores.onlineCores := by
    rcases hparked with ⟨_, _, hraced⟩ | ⟨_, hcore⟩
    · rw [hraced.cores]
    · exact hcore.onlineCores
  refine ⟨?_, hreleased.procs⟩
  apply h.of_next hr hreleased.procs honline
  exact fun core n hn => (hreleased.next core n hn).1

theorem guarantee_callInv (s : Dataplane π) :
    CallInv (· = Fault.overrun) (· ∈ s.procs.clients)
      (fun t => GuaranteeInv t ∧ t.procs = s.procs) := by
  constructor
  · rfl
  · rintro t u ⟨ht, hprocs⟩ hsame
    have hu : DpInv none u := ht.inv.congr hsame.procs hsame.lists
      hsame.threads hsame.poll hsame.cores
    refine ⟨ht.of_next hu hsame.procs ?_ ?_, hsame.procs.trans hprocs⟩
    · rw [hsame.cores]
    · rw [hsame.cores]
      exact fun _ _ hn => hn
  · rintro t p ⟨ht, hprocs⟩ hp
    have hlists := ht.inv.lists.setOverloaded (client_of_procs hprocs hp)
    exact ⟨ht.of_next (ht.inv.setLists hlists) rfl rfl fun _ _ hn => hn, hprocs⟩
  · rintro t p ⟨ht, hprocs⟩
    have hlists := ht.inv.lists.clearOverloaded p
    exact ⟨ht.of_next (ht.inv.setLists hlists) rfl rfl fun _ _ hn => hn, hprocs⟩
  · rintro t p ⟨ht, hprocs⟩ hp hentitled
    apply Meets.weaken ((ht.addCore (client_of_procs hprocs hp)
      hentitled).imp ?_) fun _ hfull => hfull.1
    rintro r ⟨hr, hadded⟩
    exact ⟨hr, hadded.procs.trans hprocs⟩
  · rintro t ⟨_, hprocs⟩ p hp
    exact client_of_procs hprocs.symm hp
  · rintro t ⟨ht, hprocs⟩ p hp
    apply client_of_procs hprocs.symm
    exact ht.inv.lists.overloaded_client p
      ((ht.inv.lists.overloaded.mem_iff p).mp hp)

/-- The runs that keep to the guarantees: no removals, and each client that is
added has a guaranteed core, where the guarantees of the clients add up to at
most the online cores. -/
def guaranteeOk (s : Dataplane π) : DpAct π → Prop
  | .add p => 1 ≤ s.procs.guaranteedCores p ∧
      s.procs.guaranteedCores p +
        (s.procs.clients.map s.procs.guaranteedCores).sum ≤
      s.cores.online.card
  | .setRemoved _ => False
  | .remove _ => False
  | _ => True

theorem GuaranteeInv.reset (h : GuaranteeInv s) (hp : p ∈ s.procs.pending)
    (hok : guaranteeOk s (.add p)) :
    GuaranteeInv ((s.pushClient p).resetProc p) ∧
    Entitled ((s.pushClient p).resetProc p) p := by
  obtain ⟨hleast, htotal⟩ := hok
  have hnew : p ∉ s.procs.clients := fun hclient =>
    h.inv.procs.clients_started p hclient hp
  have honline := CoreTable.first_online (c := s.cores) (by omega)
  refine ⟨⟨h.inv.reset hp (.inr honline), h.marks, ?_, fun q hq => ?_⟩, ?_⟩
  · change ((s.procs.clients ++ [p]).map s.procs.guaranteedCores).sum ≤
      s.cores.online.card
    rw [List.map_append, List.sum_append, add_comm]
    simpa using htotal
  · change (s.cores.awaited q).card ≤ s.procs.guaranteedCores q
    rcases List.mem_append.mp hq with hold | hq
    · exact h.awaited q hold
    · obtain rfl := List.mem_singleton.mp hq
      have hnone : s.cores.awaited q = ∅ := by
        apply Finset.filter_eq_empty_iff.mpr
        intro core _ hwaits
        obtain ⟨n, hnext, hn⟩ := Option.map_eq_some_iff.mp hwaits
        obtain ⟨hparked, _⟩ := h.inv.cores.waiting core n hnext
        exact hnew (hn ▸
          (h.inv.threads.live n hparked).1.resolve_right (by simp))
      rw [hnone, Finset.card_empty]
      exact Nat.zero_le _
  · have hpos : 0 < s.procs.guaranteedCores p := hleast
    left
    simpa [Dataplane.resetProc, Dataplane.pushClient] using hpos

theorem GuaranteeInv.create (h : GuaranteeInv s) (hp : p ∉ s.procs.created)
    (cfg : ProcConfig) : GuaranteeInv (s.controlCreateProc p cfg) := by
  have hold : ∀ q ∈ s.procs.clients,
      update s.procs.guaranteedCores p cfg.guaranteedCores q =
        s.procs.guaranteedCores q := by
    intro q hq
    apply update_of_ne
    rintro rfl
    exact hp (h.inv.procs.clients_created q hq)
  refine ⟨h.inv.create hp cfg, fun q => ?_, ?_, fun q hq => ?_⟩
  · change update s.procs.removed p false q = false
    rcases eq_or_ne q p with rfl | hne
    · exact update_self ..
    · exact (update_of_ne hne ..).trans (h.marks q)
  · change (s.procs.clients.map (update s.procs.guaranteedCores p
      cfg.guaranteedCores)).sum ≤ s.cores.online.card
    rw [List.map_congr_left hold]
    exact h.total
  · change (s.cores.awaited q).card ≤ update
      s.procs.guaranteedCores p cfg.guaranteedCores q
    rw [hold q hq]
    exact h.awaited q hq

theorem guarantee_step {r : Except Fault (Dataplane π)} (h : GuaranteeInv s)
    (hok : guaranteeOk s a) (hstep : dpStep s a = some r) :
    Meets (· = Fault.overrun) r GuaranteeInv := by
  have hkept : GuaranteeInv s ∧ s.procs = s.procs := ⟨h, rfl⟩
  cases a with
  | create p cfg =>
    obtain ⟨hfresh, ⟨⟩⟩ := guarded hstep
    exact h.create hfresh.1 cfg
  | add p =>
    obtain ⟨hpending, rfl⟩ := guarded hstep
    obtain ⟨hreset, hentitled⟩ := h.reset hpending hok
    unfold Dataplane.dpClientsAddClient
    split_ifs
    · apply Meets.map
      apply Meets.weaken ((hreset.addCore (List.mem_append_right _ (by simp))
        hentitled).imp ?_) fun _ hfull => hfull.1
      exact fun r hr => hr.1
    · rfl
  | setRemoved p => exact hok.elim
  | remove p => exact hok.elim
  | parked th payload wb mem =>
    obtain ⟨hrunning, rfl⟩ := guarded hstep
    apply ((guarantee_callInv s).cmdParked (h.inv.running_client hrunning)
      (h.park hrunning wb) payload mem).imp
    exact fun t ht => ht.1
  | parkedLast th payload wb now =>
    obtain ⟨hrunning, rfl⟩ := guarded hstep
    apply ((guarantee_callInv s).cmdParkedLast (h.park hrunning wb) payload
      now).imp
    exact fun t ht => ht.1
  | rxSend p hash cmd payload mem =>
    obtain ⟨hclient, rfl⟩ := guarded hstep
    apply Meets.map
    apply ((guarantee_callInv s).rxSendToRuntime hkept hclient hash cmd
      payload mem).imp
    exact fun r hr => hr.1
  | adjust obs =>
    cases hstep
    apply ((guarantee_callInv s).coresAdjustAssignments hkept obs).imp
    exact fun t ht => ht.1

theorem guarantee_inv (hs : (dpSystem π).Reach guaranteeOk s) :
    GuaranteeInv s := by
  apply hs.invariant
  · rintro s ⟨cpuCount, usable, hcpus, rfl⟩
    exact ⟨boot_inv hcpus usable, fun _ => rfl, Nat.zero_le _, nofun⟩
  · intro s a t h hok hnext
    exact (guarantee_step h hok (dpNext_iff.mp hnext)).of_ok rfl

theorem GuaranteeInv.addsCore (h : GuaranteeInv s) (hok : guaranteeOk s a)
    (hcall : AddsCore s a u p) :
    GuaranteeInv u ∧ p ∈ u.procs.clients ∧ Entitled u p := by
  by_cases ha : ∃ q, a = .add q
  · obtain ⟨q, rfl⟩ := ha
    cases hcall with
    | add hpending _ =>
      obtain ⟨hreset, hentitled⟩ := h.reset hpending hok
      exact ⟨hreset, List.mem_append_right _ (by simp), hentitled⟩
  · rw [not_exists] at ha
    have hall := (guarantee_callInv s).addsCore ⟨h, rfl⟩ ha hcall
      fun th wb hth => ⟨h.inv.running_client hth, h.park hth wb⟩
    obtain ⟨⟨hu, hprocs⟩, hclient, hentitled⟩ := hall
    exact ⟨hu, client_of_procs hprocs hclient, hentitled⟩

end Runs

section Honoured

/-- A proc below its guarantee does not burst. -/
theorem GuaranteeInv.ne_of_bursting (h : GuaranteeInv s)
    (hp : p ∈ s.procs.clients)
    (hshort : (s.threads.activeThreads p).length < s.procs.guaranteedCores p)
    {q : π} (hbursting : s.lists.bursting q = true) : q ≠ p := by
  rintro rfl
  have hover := (h.inv.lists.bursting_iff q hp).mp hbursting
  omega

/-- Whoever is short of its guarantee finds a core, and takes it from a bursting
proc only when there is no idle one. -/
theorem GuaranteeInv.pickCore (h : GuaranteeInv s) (hp : p ∈ s.procs.clients)
    (hshort : (s.threads.activeThreads p).length < s.procs.guaranteedCores p)
    (hthread : (s.threads.activeThreads p).length < s.procs.threadCount p) :
    ∃ core, s.pickCoreForProc p = .ok core ∧
      (s.cores.nrAvailCores = 0 → ∃ cur, s.cores.current core = some cur ∧
        cur.p ≠ p ∧ s.lists.bursting cur.p = true ∧
        s.cores.next core = none) := by
  have hpick := pickCoreForProc_meets h.inv hp
    (h.inv.idle_ne_nil hp hthread.ne)
  cases hresult : s.pickCoreForProc p with
  | error f =>
    exact absurd (hpick.of_error hresult).2 (h.not_noCore hp hshort)
  | ok core =>
    refine ⟨core, rfl, fun hnone => ?_⟩
    have hbusy : s.cores.availCores core = false := by
      by_contra havail
      rw [Bool.not_eq_false] at havail
      have honline := h.inv.cores.avail_online core havail
      rw [h.inv.cores.nr_avail, Finset.card_eq_zero] at hnone
      have hmem : core ∈ s.cores.available := by
        simp [CoreTable.available, havail, h.inv.cores.core_lt honline]
      rw [hnone] at hmem
      cases hmem
    have hpre := ((hpick.of_ok hresult).2 hbusy).2
    obtain ⟨cur, hcur, hbursting, hnext⟩ := preemptible_iff.mp hpre
    refine ⟨cur, hcur, ?_, hbursting, hnext⟩
    exact h.ne_of_bursting hp hshort hbursting

theorem CoreAdded.active {th : ThreadRef π} (h : CoreAdded s p t (some th)) :
    th.p = p ∧ th ∈ t.threads.activeThreads p := by
  cases h with
  | granted _ hthp _ hgranted =>
    refine ⟨hthp, ?_⟩
    rw [hgranted.threads, ← hthp]
    simp [ThreadTable.activate]
  | preempted _ _ _ _ _ hthp _ hpreempted =>
    refine ⟨hthp, ?_⟩
    rw [hpreempted.threads, ← hthp]
    simp [ThreadTable.activate]

instance (s : Dataplane π) (a : DpAct π) : Decidable (guaranteeOk s a) :=
  match a with
  | .add _ => inferInstanceAs (Decidable (_ ∧ _))
  | .setRemoved _ => isFalse id
  | .remove _ => isFalse id
  | .create _ _ => isTrue trivial
  | .parked _ _ _ _ => isTrue trivial
  | .parkedLast _ _ _ _ => isTrue trivial
  | .rxSend _ _ _ _ _ => isTrue trivial
  | .adjust _ => isTrue trivial

def twoThreads : ProcConfig :=
  ⟨2, 1, 0, fun _ => ⟨0, 0, 0, 0, 4⟩⟩

def congested : Observed π where
  rqHead _ := 1
  rqTail _ := 0
  rxqWb _ := 0
  microtime _ := 0

def guaranteed (π : Type) [DecidableEq π] : System (Dataplane π) (DpAct π) :=
  (dpSystem π).restrict fun s a => decide (guaranteeOk s a)

/-- On two cores, proc 0 bursts and proc 1 is about to be added. -/
def burstRun : List (DpAct Nat) :=
  [.create 0 twoThreads, .add 0, .adjust congested, .adjust congested,
    .create 1 (oneThread 1)]

def twoCores : Dataplane Nat := .boot 2 fun _ => true

theorem twoCores_init : (dpSystem Nat).init twoCores :=
  ⟨2, fun _ => true, by decide, rfl⟩

theorem burstRun_isSome :
    ((guaranteed Nat).exec twoCores burstRun).isSome := by
  with_unfolding_all decide

def bursting : Dataplane Nat :=
  ((guaranteed Nat).exec twoCores burstRun).get burstRun_isSome

theorem bursting_reach : (dpSystem Nat).Reach guaranteeOk bursting :=
  .of_checked twoCores_init (Option.some_get burstRun_isSome).symm

/-- In every run of additions within the guarantees, park commands, packets for
runtimes and reassignments, no call stops for lack of a core; and whenever
`cores_add_core` is called for a proc that is short of its guarantee and has a
thread to run, a core is found for it, which is taken from another, bursting
proc if there is no idle core. -/
theorem core_guarantees_honoured (hs : (dpSystem π).Reach guaranteeOk s)
    (hok : guaranteeOk s a) :
    dpStep s a ≠ some (.error .noCores) ∧
    ∀ u p, AddsCore s a u p →
      (u.threads.activeThreads p).length < u.procs.guaranteedCores p →
      (u.threads.activeThreads p).length < u.procs.threadCount p →
      (∃ core, u.pickCoreForProc p = .ok core ∧
        (u.cores.nrAvailCores = 0 → ∃ cur, u.cores.current core = some cur ∧
          cur.p ≠ p ∧ u.lists.bursting cur.p = true ∧
          u.cores.next core = none)) ∧
      (u.poll.ts.length < ncpu → ∃ t th, u.coresAddCore p = .ok (t, some th) ∧
        th.p = p ∧ th ∈ t.threads.activeThreads p) := by
  have h := guarantee_inv hs
  constructor
  · intro hstep
    cases (guarantee_step h hok hstep).of_error rfl
  · intro u p hcall hshort hthread
    obtain ⟨hu, hp, hentitled⟩ := h.addsCore hok hcall
    refine ⟨hu.pickCore hp hshort hthread, fun hroom => ?_⟩
    have hadd := hu.addCore hp hentitled
    cases hresult : u.coresAddCore p with
    | error f =>
      have hfull := (hadd.of_error hresult).2
      omega
    | ok r =>
      obtain ⟨t, th⟩ := r
      have hadded := (hadd.of_ok hresult).2
      cases th with
      | none =>
        cases hadded with
        | full hfull => omega
      | some th => exact ⟨t, th, rfl, hadded.active⟩

theorem bursting_adds :
    AddsCore bursting (.add 1) ((bursting.pushClient 1).resetProc 1) 1 :=
  .add (by decide) (by decide)

theorem core_guarantees_honoured_bursting :
    (dpSystem Nat).Reach guaranteeOk bursting ∧
      guaranteeOk bursting (.add 1) ∧
      bursting.cores.nrAvailCores = 0 ∧
      dpStep bursting (.add 1) ≠ some (.error .noCores) ∧
      ∃ core cur, ((bursting.pushClient 1).resetProc 1).pickCoreForProc 1 =
          .ok core ∧
        bursting.cores.current core = some cur ∧ cur.p ≠ 1 := by
  have hok : guaranteeOk bursting (.add 1) := by with_unfolding_all decide
  have hnone : bursting.cores.nrAvailCores = 0 := by decide
  obtain ⟨hstep, hcalls⟩ := core_guarantees_honoured bursting_reach hok
  obtain ⟨⟨core, hpick, hbusy⟩, _⟩ :=
    hcalls _ 1 bursting_adds (by decide) (by decide)
  obtain ⟨cur, hcur, hother, _⟩ := hbusy hnone
  exact ⟨bursting_reach, hok, hnone, hstep, core, cur, hpick, hcur, hother⟩

end Honoured

section Surplus

/-- The cores that are guaranteed to `q` or that it has been asked for. -/
def Dataplane.owed (s : Dataplane π) (q : π) : Nat :=
  s.procs.guaranteedCores q + (s.cores.inflightPreempts q).toNat

/-- In every such run, when `cores_add_core` takes a core: no core is available
and the proc it takes it from is bursting. If every bursting proc with a core
nobody waits for has more cores than it owes, that proc is left with its
guarantee. For the proc that was chosen this is necessary, too. -/
theorem preemption_takes_surplus (hs : (dpSystem π).Reach guaranteeOk s)
    (hok : guaranteeOk s a) (hcall : AddsCore s a u p)
    {r : Option (ThreadRef π)} (hadd : u.coresAddCore p = .ok (t, r))
    {core : Nat} {cur n : ThreadRef π} (hcur : u.cores.current core = some cur)
    (hfree : u.cores.next core = none) (hwaits : t.cores.next core = some n) :
    u.cores.nrAvailCores = 0 ∧ u.lists.bursting cur.p = true ∧
    ((∀ core cur, u.cores.current core = some cur →
        u.lists.bursting cur.p = true → u.cores.next core = none →
        u.owed cur.p < (u.threads.activeThreads cur.p).length) →
      t.owed cur.p ≤ (t.threads.activeThreads cur.p).length) ∧
    (t.owed cur.p ≤ (t.threads.activeThreads cur.p).length →
      u.owed cur.p < (u.threads.activeThreads cur.p).length) := by
  obtain ⟨hu, hp, hentitled⟩ := (guarantee_inv hs).addsCore hok hcall
  obtain ⟨_, hadded⟩ := (hu.addCore hp hentitled).of_ok hadd
  cases hadded with
  | full => exact absurd (hfree.symm.trans hwaits) (by simp)
  | granted _ hthp _ hgranted =>
    have hold := (hgranted.released (hthp ▸ hp)).next core n hwaits
    exact absurd (hfree.symm.trans hold.1) (by simp)
  | @preempted th cur' core' t hnone _ hcur' hbursting _ hthp _ hpreempted =>
    obtain rfl : core = core' := by
      by_contra hne
      rw [hpreempted.cores] at hwaits
      have hold : u.cores.next core = some n := by
        simpa [CoreTable.beginPreempt, hne] using hwaits
      exact absurd (hfree.symm.trans hold) (by simp)
    cases hcur.symm.trans hcur'
    have hasked : (t.cores.inflightPreempts cur.p).toNat =
        (u.cores.inflightPreempts cur.p).toNat + 1 := by
      have hle := preempted_card_le u.cores cur.p
      rw [← hu.inv.cores.inflight cur.p] at hle
      unfold ncpu at hle
      rw [hpreempted.cores]
      simp only [CoreTable.beginPreempt, update_self]
      bv_omega
    have howed : t.owed cur.p = u.owed cur.p + 1 := by
      rw [Dataplane.owed, Dataplane.owed, hpreempted.procs, hasked,
        Nat.add_assoc]
    have hother : cur.p ≠ th.p := by
      rw [hthp]
      exact hu.ne_of_bursting hp (hentitled.resolve_right (by omega)) hbursting
    rw [howed, hpreempted.threads, activate_length, if_neg hother]
    exact ⟨hnone, hbursting, fun h => h core cur hcur hbursting hfree, id⟩

theorem ok_of_toOption {ε α : Type} {r : Except ε α}
    (h : r.toOption.isSome = true) : r = .ok (r.toOption.get h) := by
  cases r with
  | error e => cases h
  | ok a => rfl

theorem bursting_adds_isSome :
    (((bursting.pushClient 1).resetProc 1).coresAddCore 1).toOption.isSome := by
  decide

def burstAsked : Dataplane Nat × Option (ThreadRef Nat) :=
  (((bursting.pushClient 1).resetProc 1).coresAddCore 1).toOption.get
    bursting_adds_isSome

theorem preemption_takes_surplus_bursting :
    (dpSystem Nat).Reach guaranteeOk bursting ∧
      guaranteeOk bursting (.add 1) ∧
      burstAsked.1.cores.next 0 = some ⟨1, 0⟩ ∧
      burstAsked.1.owed 0 ≤ (burstAsked.1.threads.activeThreads 0).length := by
  have hok : guaranteeOk bursting (.add 1) := by with_unfolding_all decide
  have hwaits : burstAsked.1.cores.next 0 = some ⟨1, 0⟩ := by decide
  have hsurplus : ∀ q : Nat,
      ((bursting.pushClient 1).resetProc 1).lists.bursting q = true →
      ((bursting.pushClient 1).resetProc 1).owed q <
      (((bursting.pushClient 1).resetProc 1).threads.activeThreads
        q).length
    | 0 | 1 => by decide
    | _ + 2 => nofun
  have hcur : ((bursting.pushClient 1).resetProc 1).cores.current 0 =
      some ⟨0, 0⟩ := by decide
  have hfree : ((bursting.pushClient 1).resetProc 1).cores.next 0 = none := by
    decide
  refine ⟨bursting_reach, hok, hwaits, ?_⟩
  exact (preemption_takes_surplus bursting_reach hok bursting_adds
    (ok_of_toOption bursting_adds_isSome) hcur hfree hwaits).2.2.1
    fun _ cur _ hbursting _ => hsurplus cur.p hbursting

/-- On four cores, procs 0 and 1 have two cores each, one of them more than
their guarantee. Proc 2 has asked proc 0 for a core, and proc 3 comes in. -/
def overAskedRun : List (DpAct Nat) :=
  [.create 0 twoThreads, .add 0, .adjust congested, .adjust congested,
    .create 1 twoThreads, .add 1, .adjust congested, .adjust congested,
    .create 2 (oneThread 1), .create 3 (oneThread 1), .add 2]

def fourCores : Dataplane Nat := .boot 4 fun _ => true

theorem fourCores_init : (dpSystem Nat).init fourCores :=
  ⟨4, fun _ => true, by decide, rfl⟩

theorem overAskedRun_isSome :
    ((guaranteed Nat).exec fourCores overAskedRun).isSome := by
  with_unfolding_all decide

def askedOnce : Dataplane Nat :=
  ((guaranteed Nat).exec fourCores overAskedRun).get overAskedRun_isSome

theorem askedOnce_adds_isSome :
    (((askedOnce.pushClient 3).resetProc 3).coresAddCore
      3).toOption.isSome := by
  with_unfolding_all decide

def askedTwice : Dataplane Nat × Option (ThreadRef Nat) :=
  (((askedOnce.pushClient 3).resetProc 3).coresAddCore 3).toOption.get
    askedOnce_adds_isSome

/-- Proc 0 still bursts, since the core it was asked for is still its own. The
scan for a bursting proc takes its other core too, although proc 1 has one to
spare: nothing is left of the guarantee of proc 0. -/
theorem preemption_takes_guaranteed :
    ∃ (s u t : Dataplane Nat) (a : DpAct Nat) (p : Nat)
      (r : Option (ThreadRef Nat)) (core : Nat)
      (cur n : ThreadRef Nat),
      (dpSystem Nat).Reach guaranteeOk s ∧ guaranteeOk s a ∧
      AddsCore s a u p ∧ u.coresAddCore p = .ok (t, r) ∧
      u.cores.current core = some cur ∧ u.cores.next core = none ∧
      t.cores.next core = some n ∧
      (t.threads.activeThreads cur.p).length < t.owed cur.p := by
  have hs : (dpSystem Nat).Reach guaranteeOk askedOnce :=
    .of_checked fourCores_init (Option.some_get overAskedRun_isSome).symm
  have hcall : AddsCore askedOnce (.add 3)
      ((askedOnce.pushClient 3).resetProc 3) 3 :=
    .add (by with_unfolding_all decide) (by with_unfolding_all decide)
  refine ⟨askedOnce, (askedOnce.pushClient 3).resetProc 3, askedTwice.1,
    .add 3, 3, askedTwice.2, 1, ⟨0, 1⟩, ⟨3, 0⟩, hs, ?_, hcall,
    ok_of_toOption askedOnce_adds_isSome, ?_, ?_, ?_, ?_⟩
  · with_unfolding_all decide
  · with_unfolding_all decide
  · with_unfolding_all decide
  · with_unfolding_all decide
  · with_unfolding_all decide

end Surplus

section Started

/-- `nr_guaranteed`, as long as no client is removed. -/
def nrGuaranteed (s : Dataplane π) : Nat :=
  (s.procs.created.map s.procs.guaranteedCores).sum

/-- The check of `control_create_proc` on the guarantee of a new client, in
unsigned arithmetic. What it checks of the thread count is in `dpStep`. -/
def admitted (s : Dataplane π) (cfg : ProcConfig) : Prop :=
  cfg.guaranteedCores < 2 ^ 32 ∧
  (cfg.guaranteedCores + nrGuaranteed s) % 2 ^ 32 ≤ s.cores.online.card

def admissionOk (s : Dataplane π) : DpAct π → Prop
  | .create _ cfg => admitted s cfg
  | .setRemoved _ => False
  | .remove _ => False
  | _ => True

instance (s : Dataplane π) (a : DpAct π) : Decidable (admissionOk s a) :=
  match a with
  | .create _ _ => inferInstanceAs (Decidable (_ ∧ _))
  | .setRemoved _ => isFalse id
  | .remove _ => isFalse id
  | .add _ => isTrue trivial
  | .parked _ _ _ _ => isTrue trivial
  | .parkedLast _ _ _ _ => isTrue trivial
  | .rxSend _ _ _ _ _ => isTrue trivial
  | .adjust _ => isTrue trivial

omit [DecidableEq π] in
theorem noRemoval_of_admissionOk (hok : admissionOk s a) : noRemoval s a := by
  cases a with
  | setRemoved | remove => exact hok.elim
  | create | add | parked | parkedLast | rxSend | adjust => trivial

theorem created_threads (hs : (dpSystem π).Reach noRemoval s) :
    ∀ p ∈ s.procs.created, 0 < s.procs.threadCount p := by
  apply hs.invariant
  · rintro s ⟨cpuCount, usable, _, rfl⟩ p hp
    cases hp
  · intro s a t h hok hnext q hq
    rw [dpNext_procs hnext] at hq ⊢
    cases a with
    | create p cfg =>
      have hstep := dpNext_iff.mp hnext
      simp only [dpStep] at hstep
      split_ifs at hstep with hfresh
      change 0 < update s.procs.threadCount p cfg.threadCount q
      rcases eq_or_ne q p with rfl | hne
      · rw [update_self]
        exact hfresh.2.1
      · rw [update_of_ne hne]
        exact h q (List.mem_of_ne_of_mem hne hq)
    | setRemoved | remove => exact hok.elim
    | add | parked | parkedLast | rxSend | adjust => exact h q hq

theorem DpInv.reset_noCore (h : DpInv none s) (hp : p ∈ s.procs.pending) :
    ((s.pushClient p).resetProc p).NoCore ↔ s.NoCore := by
  have hnew : p ∉ s.procs.clients := fun hclient =>
    h.procs.clients_started p hclient hp
  have hbursting : update s.lists.bursting p false =
      s.lists.bursting := by
    rw [← h.bursting_of_not_client hnew, update_eq_self]
  unfold Dataplane.NoCore Dataplane.preemptible Dataplane.resetProc
    Dataplane.pushClient
  simp only [hbursting]

theorem error_not_ok {ε α : Type} {e : ε} :
    ¬ ∃ a, (Except.error e : Except ε α) = .ok a := by
  rintro ⟨a, ha⟩
  cases ha

/-- Starting a client needs a core: `cores_add_core` completes exactly when
there is one to take and room to poll one more thread. -/
theorem DpInv.start_iff (h : DpInv none s) (hp : p ∈ s.procs.pending)
    (hthreads : 0 < s.procs.threadCount p) :
    (∃ r, ((s.pushClient p).resetProc p).coresAddCore p = .ok r) ↔
      ¬ s.NoCore ∧ s.poll.ts.length < ncpu := by
  have hclient : p ∈ (s.pushClient p).procs.clients :=
    List.mem_append_right _ (by simp)
  have hnotfull : (((s.pushClient p).resetProc p).threads.activeThreads
      p).length ≠ s.procs.threadCount p := by
    simp only [Dataplane.resetProc, update_self, List.length_nil]
    omega
  rw [← h.reset_noCore hp]
  by_cases honline : s.procs.threadCount p = 0 ∨
      s.cores.onlineCores (bitmapFindNextSet s.cores.onlineCores ncpu) = true
  · have hadd := coresAddCore_meets (h.reset hp honline) hclient
    cases hresult : ((s.pushClient p).resetProc p).coresAddCore p with
    | error f =>
      refine iff_of_false error_not_ok ?_
      rintro ⟨hcore, hroom⟩
      rcases hadd.of_error hresult with ⟨_, hnocore⟩ | ⟨_, hfull⟩
      · exact hcore hnocore
      · exact absurd hroom (not_lt.mpr hfull)
    | ok r =>
      refine iff_of_true ⟨r, rfl⟩ ?_
      obtain ⟨t, th⟩ := r
      cases (hadd.of_ok hresult).2 with
      | full hfull => exact absurd hfull hnotfull
      | granted havail _ _ hgranted =>
        exact ⟨fun hnone => Bool.noConfusion
          ((hnone _).1.symm.trans havail), hgranted.room⟩
      | preempted _ _ hcur hbursting hnext _ _ hpreempted =>
        have hpre := preemptible_iff.mpr ⟨_, hcur, hbursting, hnext⟩
        exact ⟨fun hnone => Bool.noConfusion
          ((hnone _).2.symm.trans hpre), hpreempted.room⟩
  · -- without an online core there is none to take either
    rw [addCore_offline honline]
    refine iff_of_false error_not_ok fun hcore => hcore.1 ?_
    rw [h.reset_noCore hp]
    have hoffline : ∀ core, s.cores.onlineCores core = false := by
      intro core
      by_contra hset
      rw [Bool.not_eq_false] at hset
      apply honline
      right
      rcases bitmapFindNextSet_cases s.cores.onlineCores ncpu with
        hfirst | hall
      · exact hfirst.1
      · have hlt := h.cores.core_lt hset
        exact Bool.noConfusion ((hall.2 core hlt).symm.trans hset)
    intro core
    constructor
    · by_contra havail
      rw [Bool.not_eq_false] at havail
      exact Bool.noConfusion
        ((hoffline core).symm.trans (h.cores.avail_online core havail))
    · by_contra hpre
      rw [Bool.not_eq_false] at hpre
      obtain ⟨cur, hcur, _⟩ := preemptible_iff.mp hpre
      exact Bool.noConfusion
        ((hoffline core).symm.trans (h.cores.current_online hcur))

omit [DecidableEq π] in
theorem not_noCore_iff : ¬ s.NoCore ↔ ∃ core,
    s.cores.availCores core = true ∨ s.preemptible core = true := by
  unfold Dataplane.NoCore
  rw [not_forall]
  apply exists_congr
  intro core
  rw [not_and_or, Bool.not_eq_false, Bool.not_eq_false]

theorem DpInv.add_iff (h : DpInv none s) (hp : p ∈ s.procs.pending)
    (hthreads : 0 < s.procs.threadCount p) :
    (∃ t, dpStep s (.add p) = some (.ok t)) ↔
      ¬ s.NoCore ∧ s.poll.ts.length < ncpu ∧
      s.procs.clients.length < hwallocdMaxProc := by
  have hstart := h.start_iff hp hthreads
  simp only [dpStep, if_pos hp, Dataplane.dpClientsAddClient,
    Dataplane.coresInitProc, Option.some.injEq]
  by_cases hroom : s.procs.clients.length < hwallocdMaxProc
  · rw [if_pos hroom, ← and_assoc, ← hstart, and_iff_left hroom]
    constructor
    · rintro ⟨t, ht⟩
      cases hresult : ((s.pushClient p).resetProc p).coresAddCore p with
      | error f =>
        rw [hresult] at ht
        cases ht
      | ok r => exact ⟨r, rfl⟩
    · rintro ⟨r, hr⟩
      rw [hr]
      exact ⟨r.1, rfl⟩
  · rw [if_neg hroom]
    exact iff_of_false error_not_ok fun hall => hroom hall.2.2

/-- In every state reached without removals, the `DATAPLANE_ADD_CLIENT` of an
admitted client is processed exactly when a core is idle, or held by a bursting
proc and not waited for, and there is room in `ts` and in `dp.clients`. -/
theorem admitted_client_starts_iff (hs : (dpSystem π).Reach admissionOk s)
    (hp : p ∈ s.procs.pending) :
    (∃ t, dpStep s (.add p) = some (.ok t)) ↔
      (∃ core, s.cores.availCores core = true ∨ s.preemptible core = true) ∧
      s.poll.ts.length < ncpu ∧
      s.procs.clients.length < hwallocdMaxProc := by
  have hs' : (dpSystem π).Reach noRemoval s :=
    hs.mono fun _ _ hok => noRemoval_of_admissionOk hok
  obtain ⟨h, _⟩ := dpSystem_inv_of_noRemoval hs'
  have hthreads := created_threads hs' p (h.procs.pending_created p hp)
  rw [← not_noCore_iff]
  exact h.add_iff hp hthreads

def admitting (π : Type) [DecidableEq π] : System (Dataplane π) (DpAct π) :=
  (dpSystem π).restrict fun s a => decide (admissionOk s a)

/-- On one core, proc 0 runs on its guaranteed core and proc 1, which asks for
no guarantee, is admitted. -/
def noSpareRun : List (DpAct Nat) :=
  [.create 0 (oneThread 1), .add 0, .create 1 (oneThread 0)]

theorem noSpareRun_isSome :
    ((admitting Nat).exec oneCore noSpareRun).isSome := by
  with_unfolding_all decide

def noSpare : Dataplane Nat :=
  ((admitting Nat).exec oneCore noSpareRun).get noSpareRun_isSome

theorem noSpare_reach : (dpSystem Nat).Reach admissionOk noSpare :=
  .of_checked oneCore_init (Option.some_get noSpareRun_isSome).symm

theorem spareRun_isSome :
    ((admitting Nat).exec oneCore (noSpareRun ++
      [.parked ⟨0, 0⟩ 0 0 ⟨fun _ => ⟨0, 0⟩, 0⟩])).isSome := by
  with_unfolding_all decide

def spare : Dataplane Nat :=
  ((admitting Nat).exec oneCore (noSpareRun ++
    [.parked ⟨0, 0⟩ 0 0 ⟨fun _ => ⟨0, 0⟩, 0⟩])).get spareRun_isSome

theorem admitted_client_starts_iff_spare :
    (dpSystem Nat).Reach admissionOk spare ∧
      1 ∈ spare.procs.pending ∧
      ∃ t, dpStep spare (.add 1) = some (.ok t) := by
  have hs : (dpSystem Nat).Reach admissionOk spare :=
    .of_checked oneCore_init (Option.some_get spareRun_isSome).symm
  have hp : 1 ∈ spare.procs.pending := by decide
  have hcore : spare.cores.availCores 0 = true := by decide
  exact ⟨hs, hp, (admitted_client_starts_iff hs hp).mpr
    ⟨⟨0, .inl hcore⟩, by decide, by decide⟩⟩

/-- The header of proc 1 passes every check, and processing its
`DATAPLANE_ADD_CLIENT` stops the daemon in `pick_core_for_proc`. -/
theorem admitted_client_without_core :
    ∃ s : Dataplane Nat, (dpSystem Nat).Reach admissionOk s ∧
      1 ∈ s.procs.pending ∧
      dpStep s (.add 1) = some (.error .noCores) :=
  ⟨noSpare, noSpare_reach, by decide, rfl⟩

end Started

end Libut.Hwalloc
