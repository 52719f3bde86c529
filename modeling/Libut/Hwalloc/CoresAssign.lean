import Libut.Hwalloc.CoresInv
import Libut.Machine.Total

/-!
The four ways a core changes hands: an idle core is granted to a parked thread,
a kthread parks and its core becomes idle, a kthread parks and its core goes to
the thread that waits for it, a busy core is promised to a thread that then
waits. Each is one lemma about the history and the threads, and all are changes
of one core and one thread.
-/

namespace Libut.Hwalloc

open Function Machine

variable {π : Type} [DecidableEq π] {c : CoreTable π} {ts : ThreadTable π}
  {ps : ProcTable π} {leaving : Option π} {th : ThreadRef π} {core i : Nat}

section Count

omit [DecidableEq π] in
theorem available_change (c c' : CoreTable π) (hcore : core < ncpu)
    (hother : ∀ d ≠ core, c'.availCores d = c.availCores d) :
    c'.available.card + (if c.availCores core = true then 1 else 0) =
      c.available.card + (if c'.availCores core = true then 1 else 0) := by
  refine card_filter_change (P := fun d => c.availCores d = true)
    (Q := fun d => c'.availCores d = true) (Finset.mem_range.mpr hcore)
    fun d hd => ?_
  rw [hother d hd]

theorem preempted_change (c c' : CoreTable π) (hcore : core < ncpu)
    (hother : ∀ d ≠ core, c'.next d = c.next d ∧ c'.current d = c.current d)
    (p : π) :
    (c'.preempted p).card +
        (if (c.next core).isSome = true ∧
          (c.current core).map ThreadRef.p = some p then 1 else 0) =
      (c.preempted p).card +
        (if (c'.next core).isSome = true ∧
          (c'.current core).map ThreadRef.p = some p then 1 else 0) := by
  refine card_filter_change
    (P := fun d => (c.next d).isSome = true ∧
      (c.current d).map ThreadRef.p = some p)
    (Q := fun d => (c'.next d).isSome = true ∧
      (c'.current d).map ThreadRef.p = some p)
    (Finset.mem_range.mpr hcore) fun d hd => ?_
  rw [(hother d hd).1, (hother d hd).2]

theorem preempted_card_le (c : CoreTable π) (p : π) :
    (c.preempted p).card ≤ ncpu := by
  calc
    (c.preempted p).card ≤ (Finset.range ncpu).card := Finset.card_filter_le ..
    _ = ncpu := Finset.card_range ncpu

theorem CoresOk.core_lt (h : CoresOk c ts ps)
    (hcore : c.onlineCores core = true) : core < ncpu :=
  (h.online_lt core hcore).trans_le h.cpus

end Count

section Change

structure OnlyCore (core : Nat) (c c' : CoreTable π) : Prop where
  cpus : c'.cpuCount = c.cpuCount
  online : c'.onlineCores = c.onlineCores
  avail : ∀ d ≠ core, c'.availCores d = c.availCores d
  current : ∀ d ≠ core, c'.current d = c.current d
  prev : ∀ d ≠ core, c'.prev d = c.prev d
  next : ∀ d ≠ core, c'.next d = c.next d

omit [DecidableEq π] in
theorem OnlyCore.cede (c : CoreTable π) (core : Nat) :
    OnlyCore core c (c.cede core) :=
  ⟨rfl, rfl, fun _ hd => update_of_ne hd .., fun _ _ => rfl, fun _ _ => rfl,
    fun _ _ => rfl⟩

omit [DecidableEq π] in
theorem OnlyCore.reserve {c c' : CoreTable π} (h : OnlyCore core c c') :
    OnlyCore core c (c'.reserve core th) :=
  ⟨h.cpus, h.online, fun d hd => (update_of_ne hd ..).trans (h.avail d hd),
    fun d hd => (update_of_ne hd ..).trans (h.current d hd),
    fun d hd => (update_of_ne hd ..).trans (h.prev d hd),
    fun d hd => (update_of_ne hd ..).trans (h.next d hd)⟩

theorem OnlyCore.beginPreempt (c : CoreTable π) (p : π) :
    OnlyCore core c (c.beginPreempt core p th) :=
  ⟨rfl, rfl, fun _ _ => rfl, fun _ _ => rfl, fun _ _ => rfl,
    fun _ hd => update_of_ne hd ..⟩

theorem activate_other (th' : ThreadRef π) (hne : th' ≠ th) :
    (ts.activate th core).parked th' = ts.parked th' ∧
      (ts.activate th core).core th' = ts.core th' :=
  ⟨update_of_ne hne .., update_of_ne hne ..⟩

theorem deactivate_other (th' : ThreadRef π) (hne : th' ≠ th) :
    (ts.deactivate th i).parked th' = ts.parked th' ∧
      (ts.deactivate th i).core th' = ts.core th' :=
  ⟨update_of_ne hne .., rfl⟩

/-- One core changes, and a thread that was parked or had this core. What is to
be shown is about the core alone. -/
theorem CoresOk.change {c' : CoreTable π} {ts' : ThreadTable π}
    (h : CoresOk c ts ps) (honly : OnlyCore core c c')
    (hts : ∀ th' ≠ th, ts'.parked th' = ts.parked th' ∧
      ts'.core th' = ts.core th') (honline : c.onlineCores core = true)
    (hth : ts.parked th = true ∨ ts.core th = core) (hcore : ts'.core th = core)
    (hnr : c'.nrAvailCores + (if c.availCores core = true then 1 else 0) =
      c.nrAvailCores + (if c'.availCores core = true then 1 else 0))
    (hidle : c'.availCores core = true → c'.next core = none)
    (hbusy : c'.availCores core = false → ∃ cur, c'.current core = some cur ∧
      ts'.parked cur = false ∧ ts'.core cur = core)
    (hwaiting : ∀ n, c'.next core = some n →
      ts'.parked n = false ∧ ts'.core n = core ∧ c'.current core ≠ some n)
    (hplaced : ∀ th', ts'.parked th' = false → ts'.core th' = core →
      c'.availCores core = false ∧
      (c'.current core = some th' ∨ c'.next core = some th'))
    (hknown : ∀ th', c'.current core = some th' ∨ c'.prev core = some th' →
      th'.p ∈ ps.created ∧ th'.p ∉ ps.pending ∧ th'.idx < ps.threadCount th'.p)
    (hinflight : ∀ p, (c'.inflightPreempts p).toNat +
        (if (c.next core).isSome = true ∧
          (c.current core).map ThreadRef.p = some p then 1 else 0) =
      (c.inflightPreempts p).toNat + (if (c'.next core).isSome = true ∧
          (c'.current core).map ThreadRef.p = some p then 1 else 0)) :
    CoresOk c' ts' ps := by
  -- what another core knows of its threads stays true of them
  have hsame : ∀ th' d, d ≠ core → ts.parked th' = false → ts.core th' = d →
      ts'.parked th' = false ∧ ts'.core th' = d := by
    rintro th' d hdc hparked rfl
    have hne : th' ≠ th := by
      rintro rfl
      rcases hth with hth | hth
      · exact Bool.noConfusion (hth.symm.trans hparked)
      · exact hdc hth
    exact ⟨(hts th' hne).1.trans hparked, (hts th' hne).2⟩
  constructor
  · exact honly.cpus ▸ h.cpus
  · rw [honly.cpus, honly.online]
    exact h.online_lt
  · intro d hd
    rw [honly.online]
    rcases eq_or_ne d core with rfl | hdc
    · exact honline
    · exact h.avail_online d (honly.avail d hdc ▸ hd)
  · have hcount := available_change c c' (h.core_lt honline) honly.avail
    rw [h.nr_avail] at hnr
    omega
  · intro d hd
    rcases eq_or_ne d core with rfl | hdc
    · exact hidle hd
    · rw [honly.next d hdc]
      exact h.avail_next d (honly.avail d hdc ▸ hd)
  · intro d hd
    rw [honly.online] at hd
    have hdc : d ≠ core := by
      rintro rfl
      exact Bool.noConfusion (honline.symm.trans hd)
    rw [honly.current d hdc, honly.next d hdc]
    exact h.offline d hd
  · intro d hon hd
    rcases eq_or_ne d core with rfl | hdc
    · exact hbusy hd
    · rw [honly.online] at hon
      rw [honly.avail d hdc] at hd
      obtain ⟨cur, hcur, hparked, hcore'⟩ := h.busy d hon hd
      exact ⟨cur, (honly.current d hdc).trans hcur,
        hsame cur d hdc hparked hcore'⟩
  · intro d n hn
    rcases eq_or_ne d core with rfl | hdc
    · exact hwaiting n hn
    · rw [honly.next d hdc] at hn
      rw [honly.current d hdc]
      obtain ⟨hparked, hcore', hcur⟩ := h.waiting d n hn
      obtain ⟨hparked', hcore''⟩ := hsame n d hdc hparked hcore'
      exact ⟨hparked', hcore'', hcur⟩
  · intro th' hparked
    rw [honly.online]
    rcases eq_or_ne (ts'.core th') core with heq | hdc
    · rw [heq]
      exact ⟨honline, hplaced th' hparked heq⟩
    · have hne : th' ≠ th := by
        rintro rfl
        exact hdc hcore
      rw [honly.avail _ hdc, honly.current _ hdc, honly.next _ hdc,
        (hts th' hne).2]
      exact h.placed th' ((hts th' hne).1 ▸ hparked)
  · intro d th' hd
    rcases eq_or_ne d core with rfl | hdc
    · exact hknown th' hd
    · rw [honly.current d hdc, honly.prev d hdc] at hd
      exact h.known d th' hd
  · intro th' hp hidx
    rw [honly.online]
    rcases eq_or_ne th' th with rfl | hne
    · rw [hcore]
      exact honline
    · rw [(hts th' hne).2]
      exact h.core_online th' hp hidx
  · intro p
    have hcount := preempted_change c c' (h.core_lt honline)
      (fun d hd => ⟨honly.next d hd, honly.current d hd⟩) p
    have hflight := hinflight p
    rw [h.inflight p] at hflight
    omega

end Change

theorem CoresOk.grant (h : CoresOk c ts ps) (hprocs : ProcsOk leaving ps)
    (hcore : c.availCores core = true) (hth : ts.parked th = true)
    (hclient : th.p ∈ ps.clients) (hidx : th.idx < ps.threadCount th.p) :
    CoresOk (c.reserve core th) (ts.activate th core) ps := by
  have honline := h.avail_online core hcore
  have hnext := h.avail_next core hcore
  have hpos : 0 < c.nrAvailCores := by
    rw [h.nr_avail]
    exact Finset.card_pos.mpr
      ⟨core, by simp [CoreTable.available, h.core_lt honline, hcore]⟩
  have honly : OnlyCore core c c :=
    ⟨rfl, rfl, fun _ _ => rfl, fun _ _ => rfl, fun _ _ => rfl, fun _ _ => rfl⟩
  apply h.change honly.reserve activate_other honline (.inl hth)
  · exact update_self ..
  · simp only [CoreTable.reserve, update_self, hcore, if_true,
      Bool.false_eq_true, if_false]
    omega
  · exact fun _ => update_self ..
  · exact fun _ => ⟨th, update_self .., update_self .., update_self ..⟩
  · intro n hn
    simp [CoreTable.reserve] at hn
  · intro th' hparked hcore'
    rcases eq_or_ne th' th with rfl | hne
    · exact ⟨update_self .., .inl (update_self ..)⟩
    · rw [(activate_other th' hne).1] at hparked
      rw [(activate_other th' hne).2] at hcore'
      have havail := (h.placed th' hparked).2.1
      rw [hcore', hcore] at havail
      cases havail
  · rintro th' (hd | hd)
    · obtain rfl : th = th' := by simpa [CoreTable.reserve] using hd
      exact ⟨hprocs.clients_created _ hclient,
        hprocs.clients_started _ hclient, hidx⟩
    · exact h.known core th' (.inl (by simpa [CoreTable.reserve] using hd))
  · intro p
    simp [CoreTable.reserve, hnext]

theorem CoresOk.next_of_deactivate (h : CoresOk c ts ps)
    (hcur : c.current (ts.core th) = some th) {th' : ThreadRef π}
    (hparked : (ts.deactivate th i).parked th' = false)
    (hcore : ts.core th' = ts.core th) : c.next (ts.core th) = some th' := by
  have hne : th' ≠ th := by
    rintro rfl
    simp [ThreadTable.deactivate] at hparked
  rw [(deactivate_other th' hne).1] at hparked
  have hplace := (h.placed th' hparked).2.2
  rw [hcore, hcur] at hplace
  exact hplace.resolve_left fun heq => hne (Option.some.inj heq).symm

theorem CoresOk.park (h : CoresOk c ts ps) (hth : ts.parked th = false)
    (hcur : c.current (ts.core th) = some th)
    (hnext : c.next (ts.core th) = none) :
    CoresOk (c.cede (ts.core th)) (ts.deactivate th i) ps := by
  obtain ⟨honline, havail, _⟩ := h.placed th hth
  apply h.change (.cede c _) deactivate_other honline (.inr rfl) rfl
  · simp [CoreTable.cede, havail]
  · exact fun _ => hnext
  · intro hbusy
    simp [CoreTable.cede] at hbusy
  · exact fun n hn => absurd (hnext.symm.trans hn) (by simp)
  · intro th' hparked hcore
    have hwaits := h.next_of_deactivate hcur hparked hcore
    exact absurd (hnext.symm.trans hwaits) (by simp)
  · exact h.known _
  · exact fun p => rfl

/-- A kthread parks and its core goes to the thread that waits for it. -/
theorem CoresOk.handoff (h : CoresOk c ts ps) (hth : ts.parked th = false)
    (hcur : c.current (ts.core th) = some th) {n : ThreadRef π}
    (hnext : c.next (ts.core th) = some n)
    (hknown : n.p ∈ ps.created ∧ n.p ∉ ps.pending ∧
      n.idx < ps.threadCount n.p) :
    CoresOk (((c.cede (ts.core th)).endPreempt th.p).reserve (ts.core th) n)
      (ts.deactivate th i) ps := by
  obtain ⟨honline, havail, _⟩ := h.placed th hth
  obtain ⟨hnparked, hncore, hncur⟩ := h.waiting _ n hnext
  have hnne : n ≠ th := by
    rintro rfl
    exact hncur hcur
  have honly : OnlyCore (ts.core th) c
      ((c.cede (ts.core th)).endPreempt th.p) :=
    have hcede := OnlyCore.cede c (ts.core th)
    ⟨rfl, rfl, hcede.avail, hcede.current, hcede.prev, hcede.next⟩
  apply h.change honly.reserve deactivate_other honline (.inr rfl) rfl
  · simp [CoreTable.reserve, CoreTable.endPreempt, CoreTable.cede, havail]
  · exact fun _ => update_self ..
  · exact fun _ => ⟨n, update_self ..,
      (deactivate_other n hnne).1.trans hnparked, hncore⟩
  · intro n' hn'
    simp [CoreTable.reserve] at hn'
  · intro th' hparked hcore
    refine ⟨update_self .., .inl ((update_self ..).trans ?_)⟩
    exact hnext.symm.trans (h.next_of_deactivate hcur hparked hcore)
  · rintro th' (hd | hd)
    · obtain rfl : n = th' := by simpa [CoreTable.reserve] using hd
      exact hknown
    · apply h.known _ th'
      left
      simpa [CoreTable.reserve, CoreTable.endPreempt, CoreTable.cede] using hd
  · intro p
    have hinflight := h.inflight p
    simp only [CoreTable.reserve, CoreTable.endPreempt, CoreTable.cede, hnext,
      hcur, update_self, Option.isSome_some, Option.map_some, true_and,
      Option.some.injEq, Option.isSome_none, Bool.false_eq_true, false_and,
      if_false, add_zero]
    rcases eq_or_ne p th.p with rfl | hp
    · have hpos : 0 < (c.preempted th.p).card := Finset.card_pos.mpr
        ⟨ts.core th, by
          simp [CoreTable.preempted, h.core_lt honline, hnext, hcur]⟩
      rw [update_self, if_pos rfl]
      bv_omega
    · rw [update_of_ne hp, if_neg hp.symm, add_zero]

theorem CoresOk.preempt (h : CoresOk c ts ps)
    (honline : c.onlineCores core = true) (havail : c.availCores core = false)
    {cur : ThreadRef π} (hcur : c.current core = some cur)
    (hnext : c.next core = none) (hth : ts.parked th = true) :
    CoresOk (c.beginPreempt core cur.p th) (ts.activate th core) ps := by
  obtain ⟨cur', hcur', hparked, hcore⟩ := h.busy core honline havail
  cases hcur.symm.trans hcur'
  have hne : cur ≠ th := by
    rintro rfl
    exact Bool.noConfusion (hth.symm.trans hparked)
  apply h.change (.beginPreempt c cur.p) activate_other honline (.inl hth)
  · exact update_self ..
  · rfl
  · exact fun hidle => Bool.noConfusion (havail.symm.trans hidle)
  · exact fun _ => ⟨cur, hcur, (activate_other cur hne).1.trans hparked,
      (activate_other cur hne).2.trans hcore⟩
  · intro n hn
    obtain rfl : th = n := by simpa [CoreTable.beginPreempt] using hn
    refine ⟨update_self .., update_self .., fun heq => ?_⟩
    exact hne (Option.some.inj (hcur.symm.trans heq))
  · intro th' hparked' hcore'
    refine ⟨havail, ?_⟩
    rcases eq_or_ne th' th with rfl | hne'
    · exact .inr (update_self ..)
    · rw [(activate_other th' hne').1] at hparked'
      rw [(activate_other th' hne').2] at hcore'
      have hplace := (h.placed th' hparked').2.2
      rw [hcore', hnext] at hplace
      exact .inl (hplace.resolve_right (by simp))
  · exact h.known core
  · intro p
    have hinflight := h.inflight p
    simp only [CoreTable.beginPreempt, hnext, hcur, update_self,
      Option.isSome_some, Option.map_some, true_and, Option.some.injEq,
      Option.isSome_none, Bool.false_eq_true, false_and, if_false, add_zero]
    rcases eq_or_ne p cur.p with rfl | hp
    · have hle := preempted_card_le c cur.p
      unfold ncpu at hle
      rw [update_self, if_pos rfl]
      bv_omega
    · rw [update_of_ne hp, if_neg hp.symm, add_zero]

end Libut.Hwalloc
