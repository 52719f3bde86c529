import Libut.Runtime.DetachSteps

/-!
No work is left on a detached kthread, in every run whose steps meet
`detachOk`; and the run in which a targeted thread is left behind.
-/

namespace Libut.Runtime

open Machine

variable {κ τ ε : Type} {s t : SchedState κ τ ε}

theorem DetachInv.setTimers (h : DetachInv [] s) {timers : TimerState κ ε}
    (htimers : ∀ k, (s.kth k).detached = true → s.timers.timern k = 0 →
      timers.timern k = 0) : DetachInv [] { s with timers := timers } :=
  { h with
    queues := { h.queues with }
    empty := fun k hk =>
      let ⟨h₁, h₂, h₃, h₄⟩ := h.empty k hk
      ⟨h₁, h₂, h₃, htimers k hk h₄⟩ }

variable [DecidableEq κ]

theorem DetachInv.move (h : DetachInv [] s) {k : κ} {p : SchedPc τ}
    (hqueues : QueueInv t) (hkth : t.kth = s.kth)
    (hpc : t.pc = Function.update s.pc k p) (hks : t.ks = s.ks)
    (htimers : t.timers = s.timers) (hk : s.pc k ≠ .parked)
    (hp : p ≠ .stealing ∧ p ≠ .parked)
    (hstate : ∀ th, t.state th = .runnable → s.state th = .runnable) :
    DetachInv [] t := by
  have hattached := h.running k hk
  refine h.change_one (x := s.kth k) hqueues
    (by rw [hkth, Function.update_eq_self]) hpc hks
    (fun _ _ hz => htimers ▸ hz) hattached hattached ?_ (h.rrqBound k)
    (fun hp' => absurd hp' (not_or.mpr hp)) ?_
  · exact iff_of_false (fun hparked => hk ((h.parked k).mp hparked)) hp.2
  · exact fun th hrun hheld _ => ⟨hstate th hrun, List.not_mem_nil, hheld⟩

variable [DecidableEq τ] [DecidableEq ε] [Fintype κ]

theorem DetachInv.next (h : DetachInv [] s) {a : SchedAct κ τ ε}
    (hok : detachOk s a) (hnext : schedNext s a = some t) : DetachInv [] t := by
  have hqueues (hop : queueOp s a) := (h.queues.next hop hnext).1
  cases a with
  | ready k th =>
    obtain ⟨hin, rfl⟩ := guarded hnext
    exact (h.weaken th).ready hin
  | throw k r th =>
    obtain ⟨hin, rfl⟩ := guarded hnext
    exact h.throw hin hok
  | sleep k =>
    simp only [schedNext] at hnext
    split at hnext <;> cases hnext
    rename_i th hpc
    exact (h.setState_sleeping th).move (hqueues trivial) rfl rfl rfl rfl
      (by simp [SchedState.setState, hpc]) (by simp) fun _ hrun => hrun
  | enterSchedule k stackBusy watchdog =>
    simp only [schedNext] at hnext
    split at hnext <;> cases hnext
    rename_i th hpc
    exact h.pick (enterSchedule_ok (h.queues.ok k) stackBusy watchdog)
      (by simp [hpc]) (by simp) (by simp) (hqueues trivial)
  | watchdog k th =>
    obtain ⟨hpc, rfl⟩ := guarded hnext
    have hold := h.queues.ok k
    have hpick : PickOk (s.kth k) (drainOverflow (s.kth k), .softirq th) := by
      refine ⟨hold.drain, ?_, ?_, ?_, drainOverflow_parked hold,
        drainOverflow_detached hold⟩
      · exact (add_zero _).trans (drainOverflow_contents hold)
      · rw [KThread.rrqWindow, KThread.rrqWindow, drainOverflow_rrq hold]
        rfl
      · rw [drainOverflow_rrq hold]
    exact h.pick hpick (by simp [hpc]) (by simp) (by simp) (hqueues trivial)
  | again k softirq =>
    obtain ⟨hpc, rfl⟩ := guarded hnext
    exact h.pick (scheduleAgain_ok (h.queues.ok k) softirq).1
      (by simp [hpc]) (by simp) (fun _ => scheduleAgain_rrq) (hqueues trivial)
  | steal l r softirq quiet =>
    simp only [schedNext] at hnext
    split_ifs at hnext with hguard
    exact h.steal hguard.1 hguard.2.1 hguard.2.2 hnext
  | retry k | noPark k =>
    obtain ⟨hpc, rfl⟩ := guarded hnext
    exact h.move (hqueues trivial) rfl rfl rfl rfl (by simp [hpc]) (by simp)
      fun _ hrun => hrun
  | done k =>
    obtain ⟨hpc, rfl⟩ := guarded hnext
    exact h.pick (scheduleDone_ok (h.queues.ok k) (h.queues.found k hpc))
      (by simp [hpc]) (by simp) (by simp) (hqueues trivial)
  | yieldKthread k =>
    simp only [schedNext] at hnext
    split at hnext <;> cases hnext
    rename_i th hpc
    have hin : ((s.setState th .sleeping).pc k).inThread = true := by
      change (s.pc k).inThread = true
      rw [hpc]
      rfl
    exact (((h.setState_sleeping th).weaken th).ready hin).move
      (hqueues trivial) rfl rfl rfl rfl (SchedPc.inThread_ne hin).1
      (by simp) fun _ hrun => hrun
  | park k =>
    obtain ⟨hpc, rfl⟩ := guarded hnext
    have hne : s.pc k ≠ .parked := by
      rcases hpc with hpc | hpc
      · simp [hpc]
      · simp [hpc]
    have hattached := h.running k hne
    exact h.change_one (hqueues trivial) rfl rfl rfl (fun _ _ hz => hz)
      hattached hattached (by simp) (h.rrqBound k)
      (fun _ => hpc.elim (fun hp => h.targeted k (.inl hp)) hok)
      fun th hrun hheld _ => ⟨hrun, List.not_mem_nil, hheld⟩
  | unpark k =>
    obtain ⟨hpc, rfl⟩ := guarded hnext
    exact h.unpark hpc
  | join k r quiet =>
    simp only [schedNext] at hnext
    split_ifs at hnext with hguard
    exact h.join hguard.1 hguard.2 hok hnext
  | timerStart k e deadlineUs =>
    simp only [schedNext] at hnext
    split_ifs at hnext with hin
    obtain ⟨timers, htimers, rfl⟩ := Option.map_eq_some_iff.mp hnext
    refine h.setTimers fun l hl hz => ?_
    have hlk : l ≠ k := by
      rintro rfl
      rw [h.running l (SchedPc.inThread_ne hin).1] at hl
      cases hl
    exact (timerStartLocked_timern htimers hlk).trans hz
  | timerSoftirq k r nowUs =>
    obtain ⟨hin, rfl⟩ := guarded hnext
    refine h.setTimers fun l _ hz => ?_
    have hle := timerSoftirq_timern_le s.timers r nowUs l
    omega

/-- In every run from a started runtime whose steps all meet `detachOk`: a
detached kthread has an empty run queue, no overflow, no targeted threads and
no timers, so that every runnable thread and every pending timer belongs to a
kthread in `ks`. -/
theorem detached_holds_no_work
    (hs : (schedSystem runtimeStarted).Reach detachOk s) :
    (∀ k, (s.kth k).detached = true → NoWork s k) ∧
    (∀ th, s.state th = .runnable → ∃ k ∈ s.ks, (s.kth k).Holds th) ∧
    ∀ k, 0 < s.timers.timern k → k ∈ s.ks := by
  have hinv : DetachInv [] s := by
    refine hs.invariant (fun s hinit => ?_)
      fun _ _ _ hinv hok hnext => hinv.next hok hnext
    exact hinit.1
  refine ⟨hinv.empty, fun th hrun => ?_, fun k hpos => ?_⟩
  · obtain ⟨k, hk⟩ := (hinv.placed th hrun).resolve_left List.not_mem_nil
    refine ⟨k, ?_, hk⟩
    rw [hinv.attached, ← Bool.not_eq_true]
    intro hdetached
    obtain ⟨hrq, hover, hrrq, _⟩ := hinv.empty k hdetached
    rcases hk with hk | hk
    · simp [KThread.rqContents, hrq, hover] at hk
    · rw [KThread.rrqWindow, Ring.window_eq_nil_iff.mpr hrrq] at hk
      exact List.not_mem_nil hk
  · rw [hinv.attached, ← Bool.not_eq_true]
    intro hdetached
    have := (hinv.empty k hdetached).2.2.2
    omega

def idleKthread : KThread Nat where
  rq := ⟨fun _ => 0, 0, 0⟩
  rqOverflow := []
  qRqHead := 0
  qRqTail := 0
  rrq := ⟨fun _ => 0, 0, 0⟩
  parked := false
  detached := false
  entered := []
  left := []

def twoRunning : SchedState Bool Nat Nat where
  kth _ := idleKthread
  pc k := if k then .thread 1 else .thread 0
  state th := if th < 2 then .running else .sleeping
  ks := [false, true]
  timers := ⟨fun _ _ => ⟨0, 0⟩, fun _ => 0, fun _ => ⟨false, 0, none⟩, []⟩

theorem twoRunning_started : runtimeStarted twoRunning := by
  have hok : RqOk idleKthread := ⟨by decide, by decide⟩
  have hpc : ∀ k, (twoRunning.pc k).unlocked = true := by decide
  refine ⟨⟨⟨fun _ => hok, fun k hk => ?_, fun k hk => ?_⟩, by decide,
    by decide, by decide, by decide, fun _ _ => rfl, fun _ _ => rfl,
    fun _ hk => Bool.noConfusion hk, fun th hth => ?_⟩, hpc⟩
  · exact absurd hk (SchedPc.unlocked_ne (hpc k)).2.1
  · exact absurd hk (SchedPc.unlocked_ne (hpc k)).2.2
  · simp only [twoRunning] at hth
    split at hth <;> cases hth

/-- The kthread that runs thread 1 readies thread 2, is preempted and parks,
without targeted threads. The other one joins it. -/
theorem detached_holds_no_work_joined :
    ∃ s : SchedState Bool Nat Nat,
      (schedSystem runtimeStarted).Reach detachOk s ∧
      (s.kth true).detached = true ∧ NoWork s true ∧
      s.state 1 = .runnable ∧ s.state 2 = .runnable ∧
      ∃ k ∈ s.ks, (s.kth k).Holds 2 := by
  have hstart : (schedSystem runtimeStarted).Reach detachOk twoRunning :=
    .init twoRunning_started
  have hready := hstart.step (a := SchedAct.ready true 2) trivial rfl
  have hyield := hready.step (a := SchedAct.yieldKthread true) trivial rfl
  have hpark := hyield.step (a := SchedAct.park true) (fun _ => rfl) rfl
  have hjoin := hpark.step (a := SchedAct.join false true true)
    (fun _ _ _ => by decide) rfl
  obtain ⟨hempty, hplaced, -⟩ := detached_holds_no_work hjoin
  exact ⟨_, hjoin, rfl, hempty true rfl, rfl, rfl, hplaced 2 rfl⟩

/-- The first kthread throws thread 2 at the second one, which is preempted and
parks. The first one steals the preempted thread; on its next look it finds
nothing to steal and detaches the second one. -/
def detachRun : List (SchedAct Bool Nat Nat) :=
  [.throw false true 2, .yieldKthread true, .park true,
    .sleep false, .enterSchedule false false false, .again false none,
    .steal false true none true, .done false,
    .sleep false, .enterSchedule false false false, .again false none,
    .steal false true none true]

theorem detachRun_isSome :
    ((schedSystem runtimeStarted).exec twoRunning detachRun).isSome := by
  decide

def detachEnd : SchedState Bool Nat Nat :=
  ((schedSystem runtimeStarted).exec twoRunning detachRun).get
    detachRun_isSome

/-- After this run the second kthread is detached while thread 2 is runnable in
its `rrq`, where no attached kthread will find it. -/
theorem detached_with_targeted_thread :
    ∃ s : SchedState Bool Nat Nat,
      (schedSystem runtimeStarted).Reach anyStep s ∧
      (s.kth true).detached = true ∧ ¬ NoWork s true ∧ s.state 2 = .runnable ∧
      (s.kth true).rrqWindow = [2] ∧ ¬ ∃ k ∈ s.ks, (s.kth k).Holds 2 := by
  have hs := System.Reach.exec (.init twoRunning_started) detachRun
    (Option.some_get detachRun_isSome).symm
  refine ⟨detachEnd, hs, by decide, fun hwork => ?_, by decide, by decide,
    by decide⟩
  exact absurd hwork.2.2.1 (by decide)

end Libut.Runtime
