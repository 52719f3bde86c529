import Libut.Hwalloc.CoresOps

/-!
Clients come and go: `cores_init`, the creation of a proc by the control
thread, `dp_clients_add_client` and `dp_clients_remove_client` keep the
representation invariant. Removal has a hypothesis, `FreeOk`: `cores_free_proc`
parks every thread of the proc that is not parked, as if each of them ran, and
a core given up goes to the thread waiting for it only if that thread's proc is
not marked removed.
-/

namespace Libut.Hwalloc

open Function Machine Base

variable {π : Type} [DecidableEq π] {s t : Dataplane π} {th : ThreadRef π}
  {p : π}

section Boot

structure InitOk (cpuCount k : Nat) (c : CoreTable π) : Prop where
  cpuCount : c.cpuCount = cpuCount
  online : c.onlineCores = c.availCores
  below : ∀ d, c.availCores d = true → d < k
  nr_avail : c.nrAvailCores = c.available.card
  current : ∀ d, c.current d = none
  prev : ∀ d, c.prev d = none
  next : ∀ d, c.next d = none
  inflight : ∀ p, c.inflightPreempts p = 0

omit [DecidableEq π] in
theorem InitOk.init {cpuCount k : Nat} {c : CoreTable π}
    (h : InitOk cpuCount k c) (hk : k < ncpu) :
    InitOk cpuCount (k + 1) (c.init k) := by
  have hfresh : c.availCores k = false := by
    by_contra hset
    exact absurd (h.below k (by simpa using hset)) (lt_irrefl k)
  constructor
  · exact h.cpuCount
  · simp [CoreTable.init, h.online]
  · intro d hd
    rcases eq_or_ne d k with rfl | hne
    · omega
    · have := h.below d (by simpa [CoreTable.init, hne] using hd)
      omega
  · have hcount := available_change c (c.init k) hk fun d hd => by
      simp [CoreTable.init, hd]
    simp only [hfresh, CoreTable.init, update_self,
      Bool.false_eq_true, if_false, if_true, add_zero] at hcount
    change c.nrAvailCores + 1 = _
    rw [h.nr_avail]
    exact hcount.symm
  · intro d
    rcases eq_or_ne d k with rfl | hne
    · simp [CoreTable.init]
    · simp [CoreTable.init, hne, h.current]
  · intro d
    rcases eq_or_ne d k with rfl | hne
    · simp [CoreTable.init]
    · simp [CoreTable.init, hne, h.prev]
  · exact h.next
  · exact h.inflight

omit [DecidableEq π] in
theorem coresInit_ok {cpuCount : Nat} (hcpus : cpuCount ≤ ncpu)
    (usable : Nat → Bool) :
    InitOk cpuCount cpuCount (coresInit cpuCount usable : CoreTable π) := by
  have hloop : ∀ k ≤ cpuCount, InitOk cpuCount k
      ((List.range k).foldl
        (fun (c : CoreTable π) i => if usable i then c.init i else c)
        ⟨cpuCount, fun _ => false, fun _ => false, 0, fun _ => none,
          fun _ => none, fun _ => none, fun _ => 0⟩) := by
    intro k hk
    induction k with
    | zero =>
      refine ⟨rfl, rfl, fun d hd => Bool.noConfusion hd, ?_, fun _ => rfl,
        fun _ => rfl, fun _ => rfl, fun _ => rfl⟩
      simp [CoreTable.available]
    | succ k ih =>
      have hprev := ih (by omega)
      rw [List.range_succ, List.foldl_append, List.foldl_cons, List.foldl_nil]
      split_ifs
      · exact hprev.init (by omega)
      · refine ⟨hprev.cpuCount, hprev.online, fun d hd => ?_,
          hprev.nr_avail, hprev.current, hprev.prev, hprev.next, hprev.inflight⟩
        have := hprev.below d hd
        omega
  exact hloop cpuCount le_rfl

theorem boot_inv {cpuCount : Nat} (hcpus : cpuCount ≤ ncpu)
    (usable : Nat → Bool) :
    DpInv none (Dataplane.boot cpuCount usable : Dataplane π) := by
  have hinit := coresInit_ok (π := π) hcpus usable
  refine ⟨?_, ?_, ?_, ?_, ?_⟩
  · constructor <;> simp [Dataplane.boot]
  · refine ⟨⟨List.nodup_nil, ?_⟩, ⟨List.nodup_nil, ?_⟩, ?_, ?_, ?_⟩ <;>
      simp [Dataplane.boot]
  · constructor <;> simp [Dataplane.boot, Indexed]
  · constructor <;> simp [Dataplane.boot, Indexed]
  · constructor
    · exact hinit.cpuCount.trans_le hcpus
    · intro d hd
      change d < (coresInit cpuCount usable : CoreTable π).cpuCount
      rw [hinit.cpuCount]
      apply hinit.below
      rw [← hinit.online]
      exact hd
    · intro d hd
      change (coresInit cpuCount usable : CoreTable π).onlineCores d = true
      rw [hinit.online]
      exact hd
    · exact hinit.nr_avail
    · exact fun d _ => hinit.next d
    · exact fun d _ => ⟨hinit.current d, hinit.next d⟩
    · intro d hon hav
      change (coresInit cpuCount usable : CoreTable π).onlineCores d = true
        at hon
      rw [hinit.online] at hon
      exact Bool.noConfusion (hav.symm.trans hon)
    · intro d th hd
      exact absurd ((hinit.next d).symm.trans hd) (by simp)
    · intro th hth
      exact Bool.noConfusion hth
    · intro d th hd
      rcases hd with hd | hd
      · exact absurd ((hinit.current d).symm.trans hd) (by simp)
      · exact absurd ((hinit.prev d).symm.trans hd) (by simp)
    · intro th hp
      cases hp
    · intro p
      have hnone : (coresInit cpuCount usable : CoreTable π).preempted p = ∅ :=
        Finset.filter_eq_empty_iff.mpr fun d _ => by simp [hinit.next d]
      change ((coresInit cpuCount usable : CoreTable π).inflightPreempts
        p).toNat = _
      rw [hinit.inflight p]
      exact (congrArg Finset.card hnone).symm

end Boot

section Clients

theorem onThreads_own {β : Type} {f : ThreadRef π → β} {n : Nat} {v : Nat → β}
    (hp : th.p = p) (hidx : th.idx < n) : onThreads f p n v th = v th.idx :=
  if_pos ⟨hp, hidx⟩

theorem onThreads_other {β : Type} {f : ThreadRef π → β} {n : Nat} {v : Nat → β}
    (hp : th.p ≠ p) : onThreads f p n v th = f th :=
  if_neg fun hand => hp hand.1

theorem onThreads_same {β : Type} {f : ThreadRef π → β} {n : Nat} {v : Nat → β}
    (hv : ∀ th, th.p = p → f th = v th.idx) : onThreads f p n v = f := by
  funext th
  unfold onThreads
  split_ifs with hth
  · exact (hv th hth.1).symm
  · rfl

omit [DecidableEq π] in
theorem ProcsOk.create {ps ps' : ProcTable π} (h : ProcsOk none ps)
    (hp : p ∉ ps.created) (hclients : ps'.clients = ps.clients)
    (hcreated : ps'.created = p :: ps.created)
    (hpending : ps'.pending = p :: ps.pending) : ProcsOk none ps' := by
  constructor
  · rw [hclients]
    exact h.clients_nodup
  · rw [hclients, hcreated]
    exact fun q hq => List.mem_cons_of_mem p (h.clients_created q hq)
  · rw [hpending]
    exact List.nodup_cons.mpr
      ⟨fun hmem => hp (h.pending_created p hmem), h.pending_nodup⟩
  · rw [hpending, hcreated]
    exact List.cons_subset_cons p h.pending_created
  · rw [hclients, hpending]
    intro q hq hmem
    rcases List.mem_cons.mp hmem with rfl | hmem
    · exact hp (h.clients_created q hq)
    · exact h.clients_started q hq hmem
  · simp

section

variable (h : DpInv none s)
include h

theorem DpInv.parked_of_not_client (hp : p ∉ s.procs.clients) {th : ThreadRef π}
    (hth : th.p = p) : s.threads.parked th = true := by
  by_contra hparked
  have hlive := h.threads.live th (by simpa using hparked)
  exact hp (hth ▸ hlive.1.resolve_right (by simp))

theorem DpInv.create (hp : p ∉ s.procs.created) (cfg : ProcConfig) :
    DpInv none (s.controlCreateProc p cfg) := by
  have hclient : p ∉ s.procs.clients := fun hmem =>
    hp (h.procs.clients_created p hmem)
  have hcreated : ∀ q, q ∈ s.procs.created → q ≠ p := by
    rintro q hq rfl
    exact hp hq
  have hcount : ∀ q, q ≠ p →
      update s.procs.threadCount p cfg.threadCount q =
        s.procs.threadCount q := fun q hq => update_of_ne hq ..
  have hparked : onThreads s.threads.parked p cfg.threadCount (fun _ => true) =
      s.threads.parked :=
    onThreads_same fun th hth => h.parked_of_not_client hclient hth
  have htsIdx : onThreads s.poll.tsIdx p cfg.threadCount (fun _ => none) =
      s.poll.tsIdx :=
    onThreads_same fun th hth =>
      h.poll.tsIdx_none th (h.parked_of_not_client hclient hth)
  have hatIdx : ∀ th, th.p ≠ p →
      onThreads s.threads.atIdx p cfg.threadCount (fun _ => none) th =
        s.threads.atIdx th := fun _ => onThreads_other
  unfold Dataplane.controlCreateProc
  rw [hparked, htsIdx]
  constructor
  · exact h.procs.create hp rfl rfl rfl
  · refine { h.lists with bursting_iff := fun q hq => ?_ }
    have hne := hcreated q (h.procs.clients_created q hq)
    simpa [hne] using h.lists.bursting_iff q hq
  · constructor
    · intro th hth
      obtain ⟨hlive, hidx⟩ := h.threads.live th hth
      have hne := hcreated th.p (h.started hth).1
      exact ⟨hlive, by simpa [hne] using hidx⟩
    · intro q
      apply (h.threads.active q).congr
      intro th hth
      obtain ⟨rfl, hactive⟩ := (h.threads.mem_active q th).mp hth
      exact hatIdx th (hcreated th.p (h.started hactive).1)
    · exact h.threads.mem_active
    · exact h.threads.idle_nodup
    · intro q hq th
      rw [List.mem_cons, not_or] at hq
      simpa [hq.1] using h.threads.mem_idle q hq.2 th
    · intro th hpend hidx
      rw [List.mem_cons, not_or] at hpend
      exact h.threads.available th hpend.2 (by simpa [hpend.1] using hidx)
  · exact { h.poll with }
  · refine { h.cores with
      known := fun core th hth => ?_
      core_online := fun th hth hidx => ?_ }
    · obtain ⟨hmem, hstarted, hidx⟩ := h.cores.known core th hth
      have hne := hcreated th.p hmem
      refine ⟨List.mem_cons_of_mem _ hmem, ?_, by simpa [hne] using hidx⟩
      rw [List.mem_cons, not_or]
      exact ⟨hne, hstarted⟩
    · have hne := hcreated th.p (h.procs.clients_created _ hth)
      exact h.cores.core_online th hth (by simpa [hne] using hidx)

theorem DpInv.preempted_of_not_client (hp : p ∉ s.procs.clients) :
    s.cores.preempted p = ∅ := by
  apply Finset.filter_eq_empty_iff.mpr
  rintro core _ ⟨hnext, hcurrent⟩
  obtain ⟨n, hn⟩ := Option.isSome_iff_exists.mp hnext
  obtain ⟨hparked, rfl, _⟩ := h.cores.waiting core n hn
  obtain ⟨honline, hbusy, _⟩ := h.cores.placed n hparked
  obtain ⟨cur, hcur, hcparked, _⟩ := h.cores.busy _ honline hbusy
  rw [hcur, Option.map_some, Option.some.injEq] at hcurrent
  exact hp (hcurrent ▸ (h.threads.live cur hcparked).1.resolve_right (by simp))

theorem DpInv.active_of_not_client (hp : p ∉ s.procs.clients) :
    s.threads.activeThreads p = [] := by
  apply List.eq_nil_iff_forall_not_mem.mpr
  intro th hth
  obtain ⟨hthp, hunparked⟩ := (h.threads.mem_active p th).mp hth
  exact Bool.noConfusion
    ((h.parked_of_not_client hp hthp).symm.trans hunparked)

theorem DpInv.bursting_of_not_client (hp : p ∉ s.procs.clients) :
    s.lists.bursting p = false := by
  by_contra hset
  exact hp (h.lists.bursting_client p (by simpa using hset))

theorem DpInv.overloaded_of_not_client (hp : p ∉ s.procs.clients) :
    s.lists.overloaded p = false := by
  by_contra hset
  exact hp (h.lists.overloaded_client p (by simpa using hset))

end

theorem ProcsOk.push {ps : ProcTable π} (h : ProcsOk none ps)
    (hp : p ∈ ps.pending) :
    ProcsOk none
      { ps with clients := ps.clients ++ [p], pending := ps.pending.erase p } := by
  have hclient : p ∉ ps.clients := fun hmem => h.clients_started p hmem hp
  constructor
  · rw [List.nodup_append_comm]
    exact List.nodup_cons.mpr ⟨hclient, h.clients_nodup⟩
  · intro q hq
    rcases List.mem_append.mp hq with hq | hq
    · exact h.clients_created q hq
    · rw [List.mem_singleton.mp hq]
      exact h.pending_created p hp
  · exact h.pending_nodup.erase p
  · exact fun q hq => h.pending_created q (List.mem_of_mem_erase hq)
  · intro q hq hmem
    rw [h.pending_nodup.mem_erase_iff] at hmem
    rcases List.mem_append.mp hq with hq | hq
    · exact h.clients_started q hq hmem.2
    · exact hmem.1 (List.mem_singleton.mp hq)
  · simp

theorem DpInv.reset_threads (h : DpInv none s)
    (hpending : p ∈ s.procs.pending) :
    ThreadsOk none ((s.pushClient p).resetProc p).threads
      (s.pushClient p).procs := by
  have hclient : p ∉ s.procs.clients := fun hmem =>
    h.procs.clients_started p hmem hpending
  have hactive : update s.threads.activeThreads p [] =
      s.threads.activeThreads := by
    rw [← h.active_of_not_client hclient, update_eq_self]
  have hstarted : ∀ q, q ∉ s.procs.pending.erase p → q ≠ p →
      q ∉ s.procs.pending := fun q hq hne hmem =>
    hq ((List.mem_erase_of_ne hne).mpr hmem)
  unfold Dataplane.resetProc Dataplane.pushClient
  simp only [hactive]
  constructor
  · intro th hth
    obtain ⟨hlive, hidx⟩ := h.threads.live th hth
    exact ⟨hlive.imp_left (List.mem_append_left _), hidx⟩
  · exact h.threads.active
  · exact h.threads.mem_active
  · intro q
    rcases eq_or_ne q p with rfl | hne
    · simpa using procThreads_nodup q _
    · simpa [hne] using h.threads.idle_nodup q
  · intro q hq th
    change th ∈ update s.threads.idleThreads p
      (procThreads p (s.procs.threadCount p)) q ↔ _
    rcases eq_or_ne q p with rfl | hne
    · rw [update_self, mem_procThreads]
      constructor
      · rintro ⟨hthp, hidx⟩
        exact ⟨hthp, hidx, h.parked_of_not_client hclient hthp⟩
      · rintro ⟨hthp, hidx, _⟩
        exact ⟨hthp, hidx⟩
    · rw [update_of_ne hne]
      exact h.threads.mem_idle q (hstarted q hq hne) th
  · intro th hpend hidx
    change onThreads s.threads.availableThreads p (s.procs.threadCount p)
      (fun _ => true) th = s.threads.parked th
    rcases eq_or_ne th.p p with hthp | hne
    · rw [onThreads_own hthp (hthp ▸ hidx)]
      exact (h.parked_of_not_client hclient hthp).symm
    · rw [onThreads_other hne]
      exact h.threads.available th (hstarted th.p hpend hne) hidx

theorem DpInv.reset_lists (h : DpInv none s) (hpending : p ∈ s.procs.pending) :
    ListsOk ((s.pushClient p).resetProc p).lists
      ((s.pushClient p).resetProc p).threads (s.pushClient p).procs := by
  have hclient : p ∉ s.procs.clients := fun hmem =>
    h.procs.clients_started p hmem hpending
  have hbursting : update s.lists.bursting p false =
      s.lists.bursting := by
    rw [← h.bursting_of_not_client hclient, update_eq_self]
  have hoverloaded : update s.lists.overloaded p false =
      s.lists.overloaded := by
    rw [← h.overloaded_of_not_client hclient, update_eq_self]
  unfold Dataplane.resetProc Dataplane.pushClient
  simp only [hbursting, hoverloaded]
  refine ⟨h.lists.overloaded, h.lists.bursting, fun q hq => ?_,
    fun q hq => ?_, fun q hq => ?_⟩
  · exact List.mem_append_left _ (h.lists.overloaded_client q hq)
  · exact List.mem_append_left _ (h.lists.bursting_client q hq)
  · rcases List.mem_append.mp hq with hold | hnew
    · have hne : q ≠ p := by
        rintro rfl
        exact hclient hold
      simpa [hne] using h.lists.bursting_iff q hold
    · obtain rfl := List.mem_singleton.mp hnew
      simp [h.bursting_of_not_client hclient]

theorem DpInv.reset_cores (h : DpInv none s) (hpending : p ∈ s.procs.pending)
    (honline : s.procs.threadCount p = 0 ∨
      s.cores.onlineCores (bitmapFindNextSet s.cores.onlineCores ncpu) = true) :
    CoresOk ((s.pushClient p).resetProc p).cores
      ((s.pushClient p).resetProc p).threads (s.pushClient p).procs := by
  have hclient : p ∉ s.procs.clients := fun hmem =>
    h.procs.clients_started p hmem hpending
  have hcore : ∀ th, s.threads.parked th = false →
      onThreads s.threads.core p (s.procs.threadCount p)
        (fun _ => bitmapFindNextSet s.cores.onlineCores ncpu) th =
      s.threads.core th := by
    intro th hth
    apply onThreads_other
    intro hthp
    exact Bool.noConfusion
      ((h.parked_of_not_client hclient hthp).symm.trans hth)
  unfold Dataplane.resetProc Dataplane.pushClient
  refine { h.cores with
    busy := fun core hon hbusy => ?_
    waiting := fun core th hth => ?_
    placed := fun th hth => ?_
    known := fun core th hth => ?_
    core_online := fun th hth hidx => ?_
    inflight := fun q => ?_ }
  · obtain ⟨cur, hcur, hparked, hc⟩ := h.cores.busy core hon hbusy
    exact ⟨cur, hcur, hparked, (hcore cur hparked).trans hc⟩
  · obtain ⟨hparked, hc, hcur⟩ := h.cores.waiting core th hth
    exact ⟨hparked, (hcore th hparked).trans hc, hcur⟩
  · simp only [hcore th hth]
    exact h.cores.placed th hth
  · obtain ⟨hmem, hstarted, hidx⟩ := h.cores.known core th hth
    exact ⟨hmem, fun hpend => hstarted (List.mem_of_mem_erase hpend), hidx⟩
  · change s.cores.onlineCores (onThreads s.threads.core p
      (s.procs.threadCount p) (fun _ => _) th) = true
    rcases eq_or_ne th.p p with hthp | hne
    · rw [onThreads_own hthp (hthp ▸ hidx)]
      apply honline.resolve_left
      change th.idx < s.procs.threadCount th.p at hidx
      rw [hthp] at hidx
      omega
    · rw [onThreads_other hne]
      apply h.cores.core_online th _ hidx
      rcases List.mem_append.mp hth with hth | hth
      · exact hth
      · exact absurd (List.mem_singleton.mp hth) hne
  · change (update s.cores.inflightPreempts p 0 q).toNat =
      (s.cores.preempted q).card
    rcases eq_or_ne q p with rfl | hne
    · rw [update_self, h.preempted_of_not_client hclient]
      rfl
    · rw [update_of_ne hne]
      exact h.cores.inflight q

/-- Without an online core the first thread of a new proc is given the number
behind the last core. -/
theorem pickCore_offline
    (hoffline : ¬ (s.procs.threadCount p = 0 ∨
      s.cores.onlineCores (bitmapFindNextSet s.cores.onlineCores ncpu) =
        true)) (timers : π → Bool) :
    Dataplane.pickCoreForProc
      { (s.pushClient p).resetProc p with pendingTimer := timers } p =
        .error .overrun := by
  rw [not_or] at hoffline
  obtain ⟨hcount, hoffline⟩ := hoffline
  have hfirst : bitmapFindNextSet s.cores.onlineCores ncpu = ncpu := by
    rcases bitmapFindNextSet_cases s.cores.onlineCores ncpu with hset | hnone
    · exact absurd hset.1 hoffline
    · exact hnone.1
  obtain ⟨n, hn⟩ := Nat.exists_eq_succ_of_ne_zero hcount
  have hhead : (procThreads p (n + 1)).head? = some ⟨p, 0⟩ := by
    simp [procThreads, List.range_succ_eq_map]
  simp [Dataplane.resetProc, Dataplane.pushClient,
    Dataplane.pickCoreForProc, hn, hhead, onThreads, hfirst]

theorem addCore_offline (hoffline : ¬ (s.procs.threadCount p = 0 ∨
      s.cores.onlineCores (bitmapFindNextSet s.cores.onlineCores ncpu) =
        true)) :
    ((s.pushClient p).resetProc p).coresAddCore p = .error .overrun := by
  have hnone : (((s.pushClient p).resetProc p).threads.activeThreads
      p).length ≠ ((s.pushClient p).resetProc p).procs.threadCount p := by
    simp only [Dataplane.resetProc, update_self, List.length_nil]
    exact fun hcount => hoffline (.inl hcount.symm)
  unfold Dataplane.coresAddCore
  rw [if_neg hnone]
  simp only [pickCore_offline hoffline]
  rfl

theorem DpInv.reset (h : DpInv none s) (hpending : p ∈ s.procs.pending)
    (honline : s.procs.threadCount p = 0 ∨
      s.cores.onlineCores (bitmapFindNextSet s.cores.onlineCores ncpu) =
        true) : DpInv none ((s.pushClient p).resetProc p) :=
  ⟨h.procs.push hpending, h.reset_lists hpending, h.reset_threads hpending,
    { h.poll with }, h.reset_cores hpending honline⟩

theorem dpClientsAddClient_adds (h : DpInv none s)
    (hpending : p ∈ s.procs.pending) {post : Dataplane π → Prop}
    (hadd : DpInv none ((s.pushClient p).resetProc p) →
      Meets Fault.Exhausted (((s.pushClient p).resetProc p).coresAddCore p)
        fun r => post r.1) :
    Meets Fault.Exhausted (s.dpClientsAddClient p) post := by
  unfold Dataplane.dpClientsAddClient
  split_ifs with hroom
  · apply Meets.map
    by_cases honline : s.procs.threadCount p = 0 ∨
        s.cores.onlineCores (bitmapFindNextSet s.cores.onlineCores ncpu) = true
    · exact hadd (h.reset hpending honline)
    · rw [addCore_offline honline]
      exact .inr rfl
  · exact .inr rfl

theorem dpClientsAddClient_added (h : DpInv none s)
    (hpending : p ∈ s.procs.pending) :
    Meets Fault.Exhausted (s.dpClientsAddClient p) fun t =>
      DpInv none ((s.pushClient p).resetProc p) ∧ DpInv none t ∧
        ∃ th, CoreAdded ((s.pushClient p).resetProc p) p t th := by
  apply dpClientsAddClient_adds h hpending
  intro h₁
  have hclient : p ∈ ((s.pushClient p).resetProc p).procs.clients :=
    List.mem_append_right _ (by simp)
  apply ((coresAddCore_meets h₁ hclient).weaken Dataplane.Starved.exhausted).imp
  rintro r ⟨hr, hadded⟩
  exact ⟨h₁, hr, r.2, hadded⟩

theorem dpClientsAddClient_meets (h : DpInv none s)
    (hpending : p ∈ s.procs.pending) :
    Meets Fault.Exhausted (s.dpClientsAddClient p) fun t =>
      DpInv none t ∧ t.procs = (s.pushClient p).procs := by
  apply (dpClientsAddClient_added h hpending).imp
  rintro t ⟨_, ht, th, hadded⟩
  exact ⟨ht, hadded.procs⟩

end Clients

section Remove

/-- The state in which `cores_free_proc` enters its loop. -/
def Dataplane.leave (s : Dataplane π) (p : π) (i : Nat) : Dataplane π :=
  { s.dropClient i with
    lists := (s.lists.procClearBursting p).procClearOverloaded p }

variable {i : Nat}

omit [DecidableEq π] in
theorem mem_dropClient (h : ProcsOk none s.procs)
    (hi : s.procs.clients[i]? = some p) {q : π} :
    q ∈ (s.dropClient i).procs.clients ↔ q ∈ s.procs.clients ∧ q ≠ p := by
  have hperm := swapRemove_perm hi
  have hnodup := hperm.nodup_iff.mpr h.clients_nodup
  change q ∈ swapRemove s.procs.clients i ↔ _
  rw [← hperm.mem_iff, List.mem_cons]
  constructor
  · intro hq
    refine ⟨.inr hq, ?_⟩
    rintro rfl
    exact (List.nodup_cons.mp hnodup).1 hq
  · exact fun hq => hq.1.resolve_left hq.2

theorem ListsOk.dropClient {l : ProcLists π} {ts : ThreadTable π}
    {ps : ProcTable π} (h : ListsOk l ts ps) {clients : List π}
    (hclients : ∀ q, q ∈ clients ↔ q ∈ ps.clients ∧ q ≠ p) :
    ListsOk ((l.procClearBursting p).procClearOverloaded p) ts
      { ps with clients := clients } := by
  have hflagB : Flagged (l.procClearBursting p).burstingProcs
      (l.procClearBursting p).bursting := by
    unfold ProcLists.procClearBursting
    split_ifs
    · exact h.bursting.clear
    · exact h.bursting
  have hkeepO : (l.procClearBursting p).overloadedProcs = l.overloadedProcs ∧
      (l.procClearBursting p).overloaded = l.overloaded := by
    unfold ProcLists.procClearBursting
    split_ifs <;> exact ⟨rfl, rfl⟩
  have hflagO : Flagged
      ((l.procClearBursting p).procClearOverloaded p).overloadedProcs
      ((l.procClearBursting p).procClearOverloaded p).overloaded := by
    have hold : Flagged (l.procClearBursting p).overloadedProcs
        (l.procClearBursting p).overloaded := by
      rw [hkeepO.1, hkeepO.2]
      exact h.overloaded
    unfold ProcLists.procClearOverloaded
    split_ifs
    · exact hold.clear
    · exact hold
  have hkeepB : ((l.procClearBursting p).procClearOverloaded p).burstingProcs =
        (l.procClearBursting p).burstingProcs ∧
      ((l.procClearBursting p).procClearOverloaded p).bursting =
        update l.bursting p false := by
    rw [← procClearBursting_bursting]
    generalize l.procClearBursting p = l₁
    unfold ProcLists.procClearOverloaded
    split_ifs <;> exact ⟨rfl, rfl⟩
  have hover := procClearOverloaded_overloaded (l.procClearBursting p) p
  refine ⟨hflagO, ?_, fun q hq => ?_, fun q hq => ?_, fun q hq => ?_⟩
  · rw [hkeepB.1, hkeepB.2, ← procClearBursting_bursting]
    exact hflagB
  · rw [hover, hkeepO.2] at hq
    rcases eq_or_ne q p with rfl | hne
    · simp at hq
    · exact (hclients q).mpr
        ⟨h.overloaded_client q (by simpa [hne] using hq), hne⟩
  · rw [hkeepB.2] at hq
    rcases eq_or_ne q p with rfl | hne
    · simp at hq
    · exact (hclients q).mpr
        ⟨h.bursting_client q (by simpa [hne] using hq), hne⟩
  · obtain ⟨hold, hne⟩ := (hclients q).mp hq
    rw [hkeepB.2, update_of_ne hne]
    exact h.bursting_iff q hold

omit [DecidableEq π] in
theorem ProcsOk.leave (h : ProcsOk none s.procs)
    (hi : s.procs.clients[i]? = some p) :
    ProcsOk (some p) (s.dropClient i).procs := by
  have hp : p ∈ s.procs.clients := List.mem_of_getElem? hi
  have hmem : ∀ q, q ∈ (s.dropClient i).procs.clients ↔
      q ∈ s.procs.clients ∧ q ≠ p := fun q => mem_dropClient h hi
  constructor
  · have hperm := swapRemove_perm hi
    exact (List.nodup_cons.mp (hperm.nodup_iff.mpr h.clients_nodup)).2
  · exact fun q hq => h.clients_created q ((hmem q).mp hq).1
  · exact h.pending_nodup
  · exact h.pending_created
  · exact fun q hq => h.clients_started q ((hmem q).mp hq).1
  · rintro q hq
    cases hq
    exact ⟨h.clients_created p hp, h.clients_started p hp,
      fun hp' => ((hmem p).mp hp').2 rfl⟩

theorem DpInv.leave (h : DpInv none s) (hi : s.procs.clients[i]? = some p) :
    DpInv (some p) (s.leave p i) := by
  have hmem : ∀ q, q ∈ (s.dropClient i).procs.clients ↔
      q ∈ s.procs.clients ∧ q ≠ p := fun q => mem_dropClient h.procs hi
  constructor
  · exact h.procs.leave hi
  · exact h.lists.dropClient hmem
  · refine ⟨fun th hth => ?_, h.threads.active, h.threads.mem_active,
      h.threads.idle_nodup, h.threads.mem_idle, h.threads.available⟩
    obtain ⟨hlive, hidx⟩ := h.threads.live th hth
    refine ⟨?_, hidx⟩
    rcases eq_or_ne th.p p with hthp | hne
    · exact .inr (congrArg some hthp.symm)
    · exact .inl ((hmem th.p).mpr ⟨hlive.resolve_right (by simp), hne⟩)
  · exact h.poll
  · refine { h.cores with core_online := fun th hth => ?_ }
    exact h.cores.core_online th ((hmem th.p).mp hth).1

/-- When the dataplane frees `p`: nobody of `p` waits for a core, and whoever
waits for a core of `p` is not being removed. -/
def FreeOk (s : Dataplane π) (p : π) : Prop :=
  ∀ core n, s.cores.next core = some n →
    n.p ≠ p ∧ ∀ cur, s.cores.current core = some cur → cur.p = p →
      s.procs.removed n.p = false

theorem freeThread_meets {s₁ : Dataplane π} (h : DpInv (some p) s)
    (hfree : FreeOk s₁ p) (hreleased : Released s₁ s) (hthp : th.p = p)
    (hidx : th.idx < s.procs.threadCount th.p) :
    Meets Fault.Exhausted (s.freeThread th) fun t =>
      (DpInv (some p) t ∧ Released s₁ t) ∧ t.threads.parked th = true ∧
      ∀ th', th'.p = p → s.threads.parked th' = true →
        t.threads.parked th' = true := by
  obtain ⟨_, hstarted, hleft⟩ := h.procs.leaving_only p rfl
  have havailable := h.threads.available th (hthp ▸ hstarted) hidx
  unfold Dataplane.freeThread
  split_ifs with hset
  · exact ⟨⟨h, hreleased⟩, havailable.symm.trans hset, fun _ _ hth => hth⟩
  · have hparked : s.threads.parked th = false := by
      rw [← havailable]
      simpa using hset
    have hcurrent : s.cores.current (s.threads.core th) = some th := by
      refine (h.cores.placed th hparked).2.2.resolve_right fun hnext => ?_
      exact (hfree _ th (hreleased.next _ th hnext).1).1 hthp
    have hremoved : ∀ n, s.cores.next (s.threads.core th) = some n →
        s.procs.removed n.p = false := by
      intro n hn
      obtain ⟨hn₁, hcur₁⟩ := hreleased.next _ n hn
      rw [hreleased.procs]
      exact (hfree _ n hn₁).2 th (hcur₁.symm.trans hcurrent) hthp
    apply Meets.map
    apply ((coresParkKthread_meets h ⟨hparked, hcurrent⟩ hremoved true
      0).weaken fun _ => .inr).imp
    rintro r ⟨hr, hparked'⟩
    have hreleased' := parked_released hparked'
    refine ⟨⟨hr, hreleased.trans hreleased'⟩, ?_, ?_⟩
    · obtain ⟨hforce, _⟩ | ⟨_, hcore⟩ := hparked'
      · cases hforce
      · exact hcore.parked (hthp ▸ hleft)
    · exact fun th' hp' hth' => hreleased'.parked th' (hp' ▸ hleft) hth'

theorem DpInv.left (h : DpInv (some p) s)
    (hparked : ∀ th, th.p = p → th.idx < s.procs.threadCount th.p →
      s.threads.parked th = true) : DpInv none s := by
  refine ⟨{ h.procs with leaving_only := by simp }, h.lists,
    { h.threads with live := fun th hth => ?_ }, h.poll, h.cores⟩
  obtain ⟨hlive, hidx⟩ := h.threads.live th hth
  refine ⟨.inl (hlive.resolve_right fun hleaving => ?_), hidx⟩
  have hthp : th.p = p := (Option.some.inj hleaving).symm
  exact Bool.noConfusion ((hparked th hthp hidx).symm.trans hth)

theorem dpClientsRemoveClient_meets (h : DpInv none s)
    (hp : p ∈ s.procs.clients) (hfree : FreeOk s p) :
    Meets Fault.Exhausted (s.dpClientsRemoveClient p) fun t =>
      DpInv none t ∧ t.procs.removed = s.procs.removed := by
  obtain ⟨i, hidxOf, hi⟩ := idxOf?_of_mem hp
  have hpass : ∀ t, ∀ th ∈ procThreads p (s.procs.threadCount p),
      DpInv (some p) t ∧ Released (s.leave p i) t →
      Meets Fault.Exhausted (t.freeThread th) fun t' =>
        (DpInv (some p) t' ∧ Released (s.leave p i) t') ∧
        (th.p = p → t'.threads.parked th = true) ∧
        ∀ th', (th'.p = p → t.threads.parked th' = true) →
          th'.p = p → t'.threads.parked th' = true := by
    rintro t th hth ⟨ht, hreleased⟩
    obtain ⟨hthp, hidx⟩ := mem_procThreads.mp hth
    have hfree₁ : FreeOk (s.leave p i) p := hfree
    have hidx₁ : th.idx < t.procs.threadCount th.p := by
      rw [hreleased.procs, hthp]
      exact hidx
    apply (freeThread_meets ht hfree₁ hreleased hthp hidx₁).imp
    rintro t' ⟨ht', hparked, hkeep⟩
    exact ⟨ht', fun _ => hparked, fun th' hth' hp' => hkeep th' hp' (hth' hp')⟩
  unfold Dataplane.dpClientsRemoveClient
  rw [hidxOf]
  apply (Meets.foldlM_each _ _ ⟨h.leave hi, .refl _⟩ hpass).bind
  rintro t ⟨⟨ht, hreleased⟩, hall, _⟩
  have hprocs : t.procs = (s.leave p i).procs := hreleased.procs
  refine ⟨DpInv.congr (ht.left fun th hthp hidx => ?_) rfl rfl rfl rfl rfl, ?_⟩
  · rw [hprocs, hthp] at hidx
    exact hall th (mem_procThreads.mpr ⟨hthp, hidx⟩) hthp
  · change t.procs.removed = _
    rw [hprocs]
    rfl

end Remove

end Libut.Hwalloc
