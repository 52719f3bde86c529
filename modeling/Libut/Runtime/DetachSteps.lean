import Libut.Runtime.Detach

/-!
The steps that move threads between kthreads, or detach one, keep every
runnable thread in some queue and every detached kthread without work, if they
meet `detachOk`.
-/

namespace Libut.Runtime

open Function Machine

variable {κ τ ε : Type} [DecidableEq κ] [DecidableEq τ] [DecidableEq ε]
  {s t : SchedState κ τ ε} {transit rest : List τ}

section Change

omit [DecidableEq τ] [DecidableEq ε]

/-- A step that changes one attached kthread and keeps it attached. A thread
that is runnable afterwards is in its queues, or was runnable before and is
where it was. -/
theorem DetachInv.change_one (h : DetachInv transit s) {k : κ} {x : KThread τ}
    {p : SchedPc τ} (hqueues : QueueInv t) (hkth : t.kth = update s.kth k x)
    (hpc : t.pc = update s.pc k p) (hks : t.ks = s.ks)
    (htimers : ∀ l, l ≠ k → s.timers.timern l = 0 → t.timers.timern l = 0)
    (hdetached : (s.kth k).detached = false) (hx : x.detached = false)
    (hparked : x.parked = true ↔ p = .parked)
    (hrrq : x.rrq.length ≤ runtimeRrqSize)
    (htargeted : p = .stealing ∨ p = .parked → x.rrq.head = x.rrq.tail)
    (hplaced : ∀ th, t.state th = .runnable → ¬ x.Holds th → th ∉ rest →
      s.state th = .runnable ∧ th ∉ transit ∧ ¬ (s.kth k).Holds th) :
    DetachInv rest t := by
  have hself : t.kth k = x := by rw [hkth, update_self]
  have hother : ∀ l, l ≠ k → t.kth l = s.kth l ∧ t.pc l = s.pc l :=
    fun l hl => by simp [hkth, hpc, hl]
  have hpck : t.pc k = p := by rw [hpc, update_self]
  refine ⟨hqueues, fun l => ?_, hks ▸ h.nodup, fun l => ?_, fun l => ?_,
    fun l hl => ?_, fun l hl => ?_, fun l hl => ?_, fun th hth => ?_⟩
  · rcases eq_or_ne l k with rfl | hne
    · rwa [hself]
    · rw [(hother l hne).1]
      exact h.rrqBound l
  · rw [hks, h.attached]
    rcases eq_or_ne l k with rfl | hne
    · rw [hself, hdetached, hx]
    · rw [(hother l hne).1]
  · rcases eq_or_ne l k with rfl | hne
    · rw [hself, hpck]
      exact hparked
    · rw [(hother l hne).1, (hother l hne).2]
      exact h.parked l
  · rcases eq_or_ne l k with rfl | hne
    · rwa [hself]
    · rw [(hother l hne).1]
      exact h.running l ((hother l hne).2 ▸ hl)
  · rcases eq_or_ne l k with rfl | hne
    · rw [hself]
      exact htargeted (hpck ▸ hl)
    · rw [(hother l hne).1]
      exact h.targeted l ((hother l hne).2 ▸ hl)
  · rcases eq_or_ne l k with rfl | hne
    · rw [hself, hx] at hl
      cases hl
    · rw [(hother l hne).1] at hl
      obtain ⟨hrq, hover, hrrq', htimern⟩ := h.empty l hl
      rw [NoWork, (hother l hne).1]
      exact ⟨hrq, hover, hrrq', htimers l hne htimern⟩
  · by_cases hheld : x.Holds th
    · exact Or.inr ⟨k, hself ▸ hheld⟩
    by_cases hrest : th ∈ rest
    · exact Or.inl hrest
    obtain ⟨hrun, htransit, hnot⟩ := hplaced th hth hheld hrest
    rcases h.placed th hrun with hin | ⟨l, hl⟩
    · exact absurd hin htransit
    · have hne : l ≠ k := by
        rintro rfl
        exact hnot hl
      exact Or.inr ⟨l, (hother l hne).1 ▸ hl⟩

omit [DecidableEq κ] in
theorem DetachInv.weaken (h : DetachInv [] s) (th : τ) : DetachInv [th] s :=
  { h with
    placed := fun th' hth' =>
      Or.inr ((h.placed th' hth').resolve_left List.not_mem_nil) }

theorem SchedPc.inThread_ne {pc : SchedPc τ} (h : pc.inThread = true) :
    pc ≠ .parked ∧ pc ≠ .stealing ∧ pc ≠ .found := by
  cases pc <;> simp_all [SchedPc.inThread]

end Change

section Ready

omit [DecidableEq ε]

theorem DetachInv.ready {th : τ} (h : DetachInv (th :: transit) s) {k : κ}
    (hpc : (s.pc k).inThread = true) : DetachInv transit (s.ready k th) := by
  obtain ⟨hne, hst, hfo⟩ := SchedPc.inThread_ne hpc
  have hframe := threadReady_frame (s.kth k) th
  have hattached := h.running k hne
  have hqueues : QueueInv (s.ready k th) :=
    h.queues.update (k := k) (p := s.pc k) rfl
      (update_eq_self k s.pc).symm ((h.queues.ok k).threadReady th)
      (fun hp => absurd hp hst) (fun hp => absurd hp hfo)
  refine h.change_one hqueues rfl (update_eq_self k s.pc).symm rfl
    (fun _ _ hz => hz) hattached (hframe.2.2.trans hattached) ?_ ?_
    (fun hp => absurd hp (not_or.mpr ⟨hst, hne⟩)) ?_
  · rw [hframe.2.1]
    exact h.parked k
  · rw [hframe.1]
    exact h.rrqBound k
  · intro th' hrun hheld hrest
    rw [holds_threadReady, not_or] at hheld
    have hrun' : update s.state th .runnable th' = .runnable := hrun
    rw [update_of_ne hheld.2] at hrun'
    exact ⟨hrun', fun hmem => (List.mem_cons.mp hmem).elim hheld.2 hrest,
      hheld.1⟩

omit [DecidableEq κ] in
theorem DetachInv.setState_sleeping (h : DetachInv transit s) (th : τ) :
    DetachInv transit (s.setState th .sleeping) := by
  refine { h with
    queues := { h.queues with }
    placed := fun th' hrun => ?_ }
  have hne : th' ≠ th := by
    rintro rfl
    simp [SchedState.setState] at hrun
  have hrun' : update s.state th .sleeping th' = .runnable := hrun
  rw [update_of_ne hne] at hrun'
  exact h.placed th' hrun'

/-- The re-waking loop puts every thread in transit into the queue of the
kthread that runs it. -/
theorem DetachInv.rewake {k : κ} (hpc : (s.pc k).inThread = true)
    (h : DetachInv transit s) : DetachInv [] (rewake s k transit) := by
  induction transit generalizing s with
  | nil => exact h
  | cons th rest ih =>
    exact ih (s := (s.setState th .sleeping).ready k th) hpc
      ((h.setState_sleeping th).ready hpc)

end Ready

section Pick

omit [DecidableEq ε]

theorem resume_runnable {k : κ} {pc : SchedPc τ} {picked : Picked τ} {th : τ}
    (h : (s.resume k pc picked).state th = .runnable) :
    s.state th = .runnable ∧ picked.thread ≠ some th := by
  have hrun : ∀ th', update s.state th' .running th = .runnable →
      s.state th = .runnable ∧ some th' ≠ some th := by
    intro th' h
    rcases eq_or_ne th th' with rfl | hne
    · simp at h
    · rw [update_of_ne hne] at h
      exact ⟨h, fun heq => hne (Option.some.inj heq).symm⟩
  cases picked with
  | rrq th' | rq th' | softirq th' => exact hrun th' h
  | nothing => exact ⟨h, by simp [Picked.thread]⟩

theorem DetachInv.pick (h : DetachInv [] s) {k : κ} {pc : SchedPc τ}
    {x : KThread τ} {picked : Picked τ} (hpick : PickOk (s.kth k) (x, picked))
    (hpc : s.pc k ≠ .parked) (hnext : pc ≠ .parked)
    (hempty : pc = .stealing → picked = .nothing → x.rrq.head = x.rrq.tail)
    (hqueues : QueueInv ((s.setKth k x).resume k pc picked)) :
    DetachInv [] ((s.setKth k x).resume k pc picked) := by
  have hattached := h.running k hpc
  have hunparked : (s.kth k).parked ≠ true := fun hp => hpc ((h.parked k).mp hp)
  refine h.change_one hqueues (resume_kth ..) (resume_pc ..) ?_ ?_ hattached
    (hpick.detached.trans hattached) ?_
    (hpick.rrqLength.trans (h.rrqBound k)) ?_ ?_
  · cases picked <;> rfl
  · cases picked <;> exact fun _ _ hz => hz
  · have hx : x.parked ≠ true := hpick.parked ▸ hunparked
    refine ⟨fun hp => absurd hp hx, fun hp => ?_⟩
    exact absurd (Picked.next_eq hp (by simp)).2 hnext
  · rintro (hp | hp)
    · obtain ⟨hnone, hstealing⟩ := Picked.next_eq hp (by simp)
      exact hempty hstealing hnone
    · exact absurd (Picked.next_eq hp (by simp)).2 hnext
  · intro th hrun hheld _
    obtain ⟨hrun', hne⟩ := resume_runnable hrun
    refine ⟨hrun', List.not_mem_nil, fun hholds => ?_⟩
    exact (hpick.holds hholds).elim hheld hne

end Pick

section Detach

omit [DecidableEq τ]

omit [DecidableEq ε] in
theorem mem_swapRemove_idxOf {ks : List κ} (hnodup : ks.Nodup) {r : κ}
    (hr : r ∈ ks) :
    (swapRemove ks (ks.idxOf r)).Nodup ∧
      ∀ k, k ∈ swapRemove ks (ks.idxOf r) ↔ k ∈ ks ∧ k ≠ r := by
  have hperm := swapRemove_perm (l := ks) (i := ks.idxOf r) (a := r)
    (List.getElem?_idxOf hr)
  have hcons := hperm.nodup_iff.mpr hnodup
  rw [List.nodup_cons] at hcons
  refine ⟨hcons.2, fun k => ?_⟩
  rw [← hperm.mem_iff, List.mem_cons]
  constructor
  · intro hk
    refine ⟨Or.inr hk, ?_⟩
    rintro rfl
    exact hcons.1 hk
  · rintro ⟨rfl | hk, hne⟩
    · exact absurd rfl hne
    · exact hk

theorem DetachInv.detach (h : DetachInv transit s) {k r : κ} {quiet : Bool}
    (hkr : k ≠ r) (hk : s.pc k ≠ .parked) (hr : (s.kth r).parked = true)
    (hqueues : QueueInv t) (hrq : (s.kth r).rqWindow = [])
    (hover : (s.kth r).rqOverflow = [])
    (hnext : kthreadDetach s k r quiet = some t) : DetachInv transit t := by
  rcases kthreadDetach_cases hnext with rfl | ⟨_, hmem, timers, hmerge, rfl⟩
  · exact h
  have hrrq := h.targeted r (.inr ((h.parked r).mp hr))
  obtain ⟨hzero, hrest⟩ := timerMerge_timern hkr hmerge
  obtain ⟨hnodup, hks⟩ := mem_swapRemove_idxOf h.nodup hmem
  have hself : update s.kth r { s.kth r with detached := true } r =
      { s.kth r with detached := true } := update_self ..
  have hother : ∀ l, l ≠ r → update s.kth r
      { s.kth r with detached := true } l = s.kth l :=
    fun l hl => update_of_ne hl ..
  refine ⟨hqueues, fun l => ?_, hnodup, fun l => ?_, fun l => ?_,
    fun l hl => ?_, fun l hl => ?_, fun l hl => ?_, fun th hth => ?_⟩
  · change (update s.kth r _ l).rrq.length ≤ _
    rcases eq_or_ne l r with rfl | hne
    · rw [hself]
      exact h.rrqBound l
    · rw [hother l hne]
      exact h.rrqBound l
  · change l ∈ swapRemove s.ks _ ↔ (update s.kth r _ l).detached = _
    rw [hks]
    rcases eq_or_ne l r with rfl | hne
    · rw [hself]
      simp
    · rw [hother l hne, h.attached]
      exact and_iff_left hne
  · change (update s.kth r _ l).parked = true ↔ s.pc l = _
    rcases eq_or_ne l r with rfl | hne
    · rw [hself]
      exact h.parked l
    · rw [hother l hne]
      exact h.parked l
  · change (update s.kth r _ l).detached = false
    rcases eq_or_ne l r with rfl | hne
    · exact absurd ((h.parked l).mp hr) hl
    · rw [hother l hne]
      exact h.running l hl
  · change (update s.kth r _ l).rrq.head = (update s.kth r _ l).rrq.tail
    rcases eq_or_ne l r with rfl | hne
    · rw [hself]
      exact hrrq
    · rw [hother l hne]
      exact h.targeted l hl
  · change (update s.kth r _ l).detached = true at hl
    rcases eq_or_ne l r with rfl | hne
    · refine ⟨?_, ?_, ?_, hzero⟩
      · change (update s.kth l _ l).rqWindow = []
        rw [hself]
        exact hrq
      · change (update s.kth l _ l).rqOverflow = []
        rw [hself]
        exact hover
      · change (update s.kth l _ l).rrq.head =
          (update s.kth l _ l).rrq.tail
        rw [hself]
        exact hrrq
    · rw [hother l hne] at hl
      have hlk : l ≠ k := by
        rintro rfl
        rw [h.running l hk] at hl
        cases hl
      obtain ⟨hrq', hover', hrrq', htimern⟩ := h.empty l hl
      rw [NoWork]
      refine ⟨?_, ?_, ?_, (hrest l hlk hne).trans htimern⟩
      all_goals
        simp only [SchedState.setKth]
        rw [hother l hne]
        assumption
  · refine (h.placed th hth).imp_right ?_
    rintro ⟨l, hl⟩
    refine ⟨l, ?_⟩
    change (update s.kth r _ l).Holds th
    rcases eq_or_ne l r with rfl | hne
    · rw [hself]
      exact hl
    · rwa [hother l hne]

end Detach

section Step

omit [DecidableEq ε] in
theorem DetachInv.throw (h : DetachInv [] s) {k r : κ} {th : τ}
    (hk : (s.pc k).inThread = true) (hok : detachOk s (.throw k r th)) :
    DetachInv [] (threadThrow s k r th) := by
  unfold threadThrow
  split_ifs with hkr hfree
  · exact (h.weaken th).ready hk
  · simp only [not_or, Bool.not_eq_true] at hfree
    obtain ⟨hr, hdetached, hparked⟩ := hfree
    obtain ⟨hrq, hentered, hleft, hbound, hparked', hdetached',
      hholds⟩ := threadThrowLocked_spec (h.rrqBound r)
        (hok hkr hr hdetached hparked) th
    have hokR : RqOk (threadThrowLocked (s.kth r) th) := by
      have hold := h.queues.ok r
      refine ⟨hrq ▸ hold.bound, ?_⟩
      rw [hentered, hleft, KThread.rqWindow, hrq]
      exact hold.fifo
    refine h.change_one
      (h.queues.update_unlocked (k := r) rfl rfl hr hokR) rfl 
      (update_eq_self r s.pc).symm rfl (fun _ _ hz => hz) hdetached
      (hdetached'.trans hdetached) ?_ hbound ?_ ?_
    · rw [hparked']
      exact h.parked r
    · rintro (hp | hp)
      · exact absurd hp (SchedPc.unlocked_ne hr).2.1
      · rw [(h.parked r).mpr hp] at hparked
        cases hparked
    · intro th' hrun hheld _
      have hne : th' ≠ th := fun heq => hheld (hholds th' (Or.inr heq))
      have hrun' : update s.state th .runnable th' = .runnable := hrun
      rw [update_of_ne hne] at hrun'
      exact ⟨hrun', List.not_mem_nil, fun hold =>
        hheld (hholds th' (Or.inl hold))⟩
  · exact (h.weaken th).ready hk

omit [DecidableEq τ] [DecidableEq ε] in
theorem DetachInv.unpark (h : DetachInv [] s) {k : κ} (hpc : s.pc k = .parked) :
    DetachInv [] ((kthreadUnpark s k).setPc k .again) := by
  have hold := h.queues.ok k
  unfold kthreadUnpark
  split_ifs with hdetached
  · set x : KThread τ := { s.kth k with parked := false, detached := false }
      with hx
    have hnotin : k ∉ s.ks := by
      rw [h.attached, hdetached]
      simp
    refine ⟨h.queues.update (k := k) (p := .again) (x := x) rfl rfl
      ⟨hold.bound, hold.fifo⟩ (fun hp => by cases hp) (fun hp => by cases hp),
      ?_, ?_, ?_, ?_, ?_, ?_, ?_, ?_⟩
    all_goals
      simp only [SchedState.setPc, SchedState.setKth]
    · rw [forall_update_iff s.kth
        (p := fun _ y => y.rrq.length ≤ runtimeRrqSize)]
      exact ⟨h.rrqBound k, fun l _ => h.rrqBound l⟩
    · exact List.nodup_append.mpr ⟨h.nodup, List.nodup_singleton k, by
        rintro a ha b hb rfl
        rw [List.mem_singleton] at hb
        exact hnotin (hb ▸ ha)⟩
    · rw [forall_update_iff s.kth
        (p := fun l y => l ∈ s.ks ++ [k] ↔ y.detached = false)]
      refine ⟨by simp [hx], fun l hl => ?_⟩
      rw [List.mem_append, List.mem_singleton, h.attached]
      exact or_iff_left hl
    · rw [forall_update_iff s.kth (p := fun l y => y.parked = true ↔
        update s.pc k .again l = .parked)]
      refine ⟨by simp [hx], fun l hl => ?_⟩
      rw [update_of_ne hl]
      exact h.parked l
    · rw [forall_update_iff s.kth (p := fun l y =>
        update s.pc k .again l ≠ .parked → y.detached = false)]
      refine ⟨fun _ => rfl, fun l hl hp => ?_⟩
      rw [update_of_ne hl] at hp
      exact h.running l hp
    · intro l hl
      rcases eq_or_ne l k with rfl | hne
      · simp at hl
      · rw [update_of_ne hne] at hl ⊢
        exact h.targeted l hl
    · intro l hl
      rcases eq_or_ne l k with rfl | hne
      · simp [hx] at hl
      · rw [update_of_ne hne] at hl
        obtain ⟨hrq, hover, hrrq, htimern⟩ := h.empty l hl
        refine ⟨?_, ?_, ?_, htimern⟩
        all_goals
          dsimp only
          rw [update_of_ne hne]
          assumption
    · intro th hth
      refine Or.inr ?_
      obtain ⟨l, hl⟩ := (h.placed th hth).resolve_left List.not_mem_nil
      refine ⟨l, ?_⟩
      rcases eq_or_ne l k with rfl | hne
      · rw [update_self]
        exact hl
      · rwa [update_of_ne hne]
  · rw [Bool.not_eq_true] at hdetached
    refine h.change_one (h.queues.update rfl rfl ⟨hold.bound, hold.fifo⟩
      (fun hp => by cases hp) (fun hp => by cases hp)) rfl rfl rfl
      (fun _ _ hz => hz) hdetached hdetached (by simp) (h.rrqBound k)
      (by simp) ?_
    exact fun th hrun hheld _ => ⟨hrun, List.not_mem_nil, hheld⟩

variable [Fintype κ]

theorem DetachInv.steal (h : DetachInv [] s) {l r : κ} {softirq : Option τ}
    {quiet : Bool} (hpc : s.pc l = .stealing) (hlr : l ≠ r)
    (hr : (s.pc r).unlocked = true)
    (hnext : stealStep s l r softirq quiet = some t) : DetachInv [] t := by
  have hqueues := (h.queues.steal hpc hlr hr hnext).1
  obtain ⟨hhead, htail⟩ := h.queues.stealing l hpc
  have hsteal := stealWork_ok (h.queues.ok l) (h.queues.ok r) hhead htail
    softirq
  have hpcl : s.pc l ≠ .parked := by rw [hpc]; simp
  unfold stealStep at hnext
  rcases hres : stealWork (s.kth l) (s.kth r) softirq with ⟨l', r', result⟩
  rw [hres] at hsteal hnext
  cases result with
  | missed =>
    cases hnext
    rwa [hsteal.setKth_eq (.inl rfl)]
  | detach =>
    change kthreadDetach ((s.setKth l l').setKth r r') l r quiet = some t
      at hnext
    rw [hsteal.setKth_eq (.inr rfl)] at hnext
    obtain ⟨hempty, hover, hparked, -⟩ := hsteal.detach rfl
    exact h.detach hlr hpcl hparked hqueues (Ring.window_eq_nil_iff.mpr hempty)
      hover hnext
  | stole fresh =>
    have hdetached := (hsteal.stole fresh rfl).2
    obtain ⟨hrrqL, hparkedL, hdetL⟩ := hsteal.frameL
    obtain ⟨hrrqR, hparkedR, hdetR⟩ := hsteal.frameR
    have hmoved : ∀ th, (s.kth r).Holds th → r'.Holds th ∨ l'.Holds th := by
      rintro th (hrq | hrrq)
      · have hmem : th ∈ l'.rqContents + r'.rqContents := by
          rw [hsteal.contents]
          exact Multiset.mem_add.mpr (Or.inl (Multiset.mem_add.mpr
            (Or.inr hrq)))
        rcases Multiset.mem_add.mp hmem with hmem | hmem
        · exact Or.inr (Or.inl hmem)
        · exact Or.inl (Or.inl hmem)
      · refine Or.inl (Or.inr ?_)
        rwa [KThread.rrqWindow, hrrqR]
    -- the threads are in transit while only `r` has been updated
    have hfirst : DetachInv (l'.rqWindow ++ l'.rqOverflow ++ l'.rrqWindow)
        (s.setKth r r') := by
      refine h.change_one
        (h.queues.update_unlocked (k := r) rfl rfl hr hsteal.okR) rfl
        (update_eq_self r s.pc).symm rfl (fun _ _ hz => hz)
        hdetached (hdetR.trans hdetached) ?_ (hrrqR ▸ h.rrqBound r)
        (hrrqR ▸ h.targeted r) ?_
      · rw [hparkedR]
        exact h.parked r
      · intro th hrun hheld hrest
        refine ⟨hrun, List.not_mem_nil, fun hold => ?_⟩
        rcases hmoved th hold with hin | hin | hin
        · exact hheld hin
        · exact hrest (List.mem_append_left _ hin)
        · exact hrest (List.mem_append_right _ hin)
    have hkth : t.kth = update (s.setKth r r').kth l l' ∧
        t.pc = update s.pc l .found ∧ t.ks = s.ks ∧
        t.timers = s.timers ∧
        ∀ th, t.state th = .runnable → ¬ l'.Holds th →
          s.state th = .runnable := by
      have hcomm : update (update s.kth l l') r r' =
          update (update s.kth r r') l l' :=
        update_comm hlr ..
      cases fresh with
      | none =>
        cases hnext
        exact ⟨hcomm, rfl, rfl, rfl, fun _ hrun _ => hrun⟩
      | some new =>
        cases hnext
        refine ⟨hcomm, rfl, rfl, rfl, fun th hrun hheld => ?_⟩
        have hne : th ≠ new := by
          rintro rfl
          refine hheld (Or.inl (Multiset.mem_of_le hsteal.growL ?_))
          exact Multiset.mem_add.mpr (Or.inr (Multiset.mem_singleton_self th))
        have hrun' : update s.state new .runnable th =
          .runnable := hrun
        rwa [update_of_ne hne] at hrun'
    obtain ⟨hk, hp, hks, htimers, hstate⟩ := hkth
    have hsl : (s.setKth r r').kth l = s.kth l :=
      update_of_ne hlr ..
    have hattached := h.running l hpcl
    refine hfirst.change_one hqueues hk hp hks
      (fun _ _ hz => htimers ▸ hz) (hsl ▸ hattached)
      (hdetL.trans hattached) ?_ (hrrqL ▸ h.rrqBound l) (by simp) ?_
    · rw [hparkedL, h.parked l]
      simp [hpc]
    · intro th hrun hheld _
      refine ⟨hstate th hrun hheld, fun hin => ?_, fun hold => ?_⟩
      · rcases List.mem_append.mp hin with hin | hin
        · exact hheld (Or.inl hin)
        · exact hheld (Or.inr hin)
      · rw [hsl] at hold
        rcases hold with hrq | hrrq
        · exact hheld (Or.inl (Multiset.mem_of_le hsteal.growL
            (Multiset.mem_add.mpr (Or.inl hrq))))
        · refine hheld (Or.inr ?_)
          rwa [KThread.rrqWindow, hrrqL]

theorem DetachInv.join (h : DetachInv [] s) {k r : κ} {quiet : Bool}
    (hk : (s.pc k).inThread = true) (hr : (s.pc r).unlocked = true)
    (hok : detachOk s (.join k r quiet))
    (hnext : joinStep s k r quiet = some t) : DetachInv [] t := by
  unfold joinStep at hnext
  split_ifs at hnext with hearly
  · cases hnext
    exact h
  simp only [not_or, Bool.not_eq_true, Bool.not_eq_false] at hearly
  obtain ⟨hdetached, hparked, hrk⟩ := hearly
  have hdrain := joinDrain_unwrapped (hok hrk hdetached hparked)
  have hwindow : (joinDrain (s.kth r)).1.rqWindow = [] := Ring.window_reset
  have hokR : RqOk (joinDrain (s.kth r)).1 := by
    refine ⟨Ring.length_reset.trans_le (Nat.zero_le _), ?_⟩
    rw [hwindow, List.append_nil, hdrain]
    exact (h.queues.ok r).fifo
  have hqueues : QueueInv (s.setKth r (joinDrain (s.kth r)).1) :=
    h.queues.update_unlocked (k := r) rfl rfl hr hokR
  have hfirst : DetachInv (joinDrain (s.kth r)).2
      (s.setKth r (joinDrain (s.kth r)).1) := by
    refine h.change_one hqueues rfl (update_eq_self r s.pc).symm rfl
      (fun _ _ hz => hz) hdetached hdetached (h.parked r) (h.rrqBound r)
      (h.targeted r) ?_
    intro th hrun hheld hrest
    refine ⟨hrun, List.not_mem_nil, ?_⟩
    rintro (hrq | hrrq')
    · rw [hdrain] at hrest
      exact hrest hrq
    · exact hheld (Or.inr hrrq')
  obtain ⟨u, hu, rfl⟩ := Option.map_eq_some_iff.mp hnext
  have hself : (s.setKth r (joinDrain (s.kth r)).1).kth r =
      (joinDrain (s.kth r)).1 := update_self ..
  have hdone : DetachInv (joinDrain (s.kth r)).2 u := by
    refine hfirst.detach (Ne.symm hrk) (SchedPc.inThread_ne hk).1 ?_
      (hqueues.detach hr hu).1 ?_ ?_ hu
    · rw [hself]
      exact hparked
    · rw [hself]
      exact hwindow
    · rw [hself]
      rfl
  have hpc : (u.pc k).inThread = true := by
    rcases kthreadDetach_cases hu with rfl | ⟨_, _, timers, _, rfl⟩
    · exact hk
    · exact hk
  exact hdone.rewake hpc

end Step

end Libut.Runtime
