import Libut.Runtime.RunQueue
import Libut.Runtime.TimerRuns

/-!
Detaching kthreads. A kthread that is parked and has no work is taken out of
`ks`; its timers move to the kthread that detaches it. Everything runnable must
then be elsewhere. The checks before `kthread_detach` do not look at the queue
of targeted threads (`rrq`), which `schedule` has seen empty before it parks the
kthread, but `thread_finish_yield_kthread` has not. `join_kthread` walks the run
queue with an unsigned comparison, and `rrq` has seven slots, which do not
divide the range of its counters. Runs in which these do no harm leave no work
behind.
-/

namespace Libut.Runtime

open Function Machine

/-! How many timers a kthread has, whatever state the heaps are in. -/

section Timers

variable {κ ε : Type} [DecidableEq κ] [DecidableEq ε]
  {s t : TimerState κ ε} {k r : κ}

theorem timerStartLocked_timern {e : ε} {deadlineUs : Nat}
    (h : timerStartLocked s k e deadlineUs = some t) {l : κ} (hl : l ≠ k) :
    t.timern l = s.timern l := by
  obtain ⟨_, _, rfl⟩ := timerStartLocked_eq_some.mp h
  have hcount : (pushSlot s k ⟨deadlineUs, e⟩).timern k = s.timern k + 1 :=
    update_self ..
  have hr := siftUp_reordered (s := pushSlot s k ⟨deadlineUs, e⟩)
    (k := k) (i := s.timern k) (by rw [hcount]; exact Nat.lt_succ_self _)
  change (siftUp k _ _).timern l = _
  rw [hr.timern, pushSlot_timern, update_of_ne hl]

theorem timerSoftirq_timern_le (s : TimerState κ ε) (r : κ) (nowUs : Nat)
    (l : κ) : (timerSoftirq s r nowUs).timern l ≤ s.timern l := by
  by_cases hexp : timerExpired s r nowUs
  · rw [timerSoftirq_expired hexp]
    have hpop : (popSlot s r).timern =
        update s.timern r (s.timern r - 1) := by
      unfold popSlot
      dsimp only
      split_ifs with hlast
      · rw [(fillSlot_siftDown_reordered hlast).timern, fillSlot_timern]
      · rfl
    change (popSlot s r).timern l ≤ _
    rw [hpop]
    rcases eq_or_ne l r with rfl | hl
    · simp
    · simp [hl]
  · rw [timerSoftirq, if_neg hexp]

theorem timerMergeLoop_timern {j : Nat} (h : timerMergeLoop s k r j = some t) :
    t.timern = update s.timern k (s.timern k + j) := by
  induction j generalizing t with
  | zero =>
    cases h
    simp
  | succ j ih =>
    obtain ⟨u, hu, hpush⟩ := Option.bind_eq_some_iff.mp h
    rw [timerMergeOne_eq] at hpush
    split_ifs at hpush
    cases hpush
    rw [pushSlot_timern, ih hu, update_idem, update_self]
    rfl

theorem timerMerge_timern (hkr : k ≠ r) (h : timerMerge s k r = some t) :
    t.timern r = 0 ∧ ∀ l, l ≠ k → l ≠ r → t.timern l = s.timern l := by
  unfold timerMerge at h
  split_ifs at h with hzero
  · cases h
    exact ⟨hzero, fun _ _ _ => rfl⟩
  · obtain ⟨u, hu, rfl⟩ := Option.map_eq_some_iff.mp h
    have hcount := timerMergeLoop_timern hu
    have hempty (l : κ) : (u.setTimern r 0).timern l =
        update (update s.timern k (s.timern k + s.timern r)) r 0 l := by
      rw [← hcount]
      rfl
    have hpos : 0 < (u.setTimern r 0).timern k := by
      rw [hempty, update_of_ne hkr, update_self]
      omega
    have hr := heapify_reordered (k := k) (s := u.setTimern r 0)
      (i := (u.setTimern r 0).timern k / timerArity)
      (Nat.div_lt_self hpos (by decide))
    dsimp only
    refine ⟨?_, fun l hlk hlr => ?_⟩
    · rw [hr.timern, hempty, update_self]
    · rw [hr.timern, hempty, update_of_ne hlr, update_of_ne hlk]

end Timers

variable {κ τ ε : Type}

def KThread.Holds (k : KThread τ) (th : τ) : Prop :=
  th ∈ k.rqContents ∨ th ∈ k.rrqWindow

instance [DecidableEq τ] (k : KThread τ) (th : τ) : Decidable (k.Holds th) :=
  inferInstanceAs (Decidable (_ ∨ _))

def NoWork (s : SchedState κ τ ε) (k : κ) : Prop :=
  (s.kth k).rqWindow = [] ∧ (s.kth k).rqOverflow = [] ∧
    (s.kth k).rrq.head = (s.kth k).rrq.tail ∧ s.timers.timern k = 0

structure DetachInv (transit : List τ) (s : SchedState κ τ ε) : Prop where
  queues : QueueInv s
  rrqBound : ∀ k, (s.kth k).rrq.length ≤ runtimeRrqSize
  nodup : s.ks.Nodup
  attached : ∀ k, k ∈ s.ks ↔ (s.kth k).detached = false
  parked : ∀ k, (s.kth k).parked = true ↔ s.pc k = .parked
  running : ∀ k, s.pc k ≠ .parked → (s.kth k).detached = false
  targeted : ∀ k, s.pc k = .stealing ∨ s.pc k = .parked →
    (s.kth k).rrq.head = (s.kth k).rrq.tail
  empty : ∀ k, (s.kth k).detached = true → NoWork s k
  placed : ∀ th, s.state th = .runnable →
    th ∈ transit ∨ ∃ k, (s.kth k).Holds th

/-- A started runtime: queues with arbitrary counters, no kthread in the middle
of the scheduler, parked kthreads without targeted threads, detached ones
without any work, and every runnable thread in some queue. -/
def runtimeStarted (s : SchedState κ τ ε) : Prop :=
  DetachInv [] s ∧ ∀ k, (s.pc k).unlocked = true

/-- Steps that leave no work behind. A kthread that is preempted parks without
targeted threads; `join_kthread` finds counters that have not wrapped; and a
push into `rrq` does not meet a slot that is in use. -/
def detachOk (s : SchedState κ τ ε) : SchedAct κ τ ε → Prop
  | .throw k r _ =>
    k ≠ r → (s.pc r).unlocked = true → (s.kth r).detached = false →
      (s.kth r).parked = false →
      (s.kth r).rrq.length < runtimeRrqSize →
      (s.kth r).rrq.Free runtimeRrqSize
  | .park k => s.pc k = .yielding → (s.kth k).rrq.head = (s.kth k).rrq.tail
  | .join k r _ =>
    r ≠ k → (s.kth r).detached = false → (s.kth r).parked = true →
      (s.kth r).rq.tail ≤ (s.kth r).rq.head
  | _ => True

def Picked.thread : Picked τ → Option τ
  | .rrq th => some th
  | .rq th => some th
  | .softirq th => some th
  | .nothing => none

theorem PickOk.holds {l : KThread τ} {res : KThread τ × Picked τ}
    (h : PickOk l res) {th : τ} (hth : l.Holds th) :
    res.1.Holds th ∨ res.2.thread = some th := by
  obtain ⟨k', picked⟩ := res
  rcases hth with hrq | hrrq
  · rw [← h.contents, Multiset.mem_add] at hrq
    rcases hrq with hrq | hpop
    · exact Or.inl (Or.inl hrq)
    · cases picked with
      | rq th' => exact Or.inr (congrArg some (Multiset.mem_singleton.mp hpop).symm)
      | rrq th' | softirq th' | nothing =>
        exact absurd hpop (Multiset.notMem_zero th)
  · rw [h.rrq, List.mem_append] at hrrq
    rcases hrrq with hpop | hrrq
    · cases picked with
      | rrq th' => exact Or.inr (congrArg some (List.mem_singleton.mp hpop).symm)
      | rq th' | softirq th' | nothing => exact absurd hpop List.not_mem_nil
    · exact Or.inl (Or.inr hrrq)

theorem holds_threadReady (k : KThread τ) (th th' : τ) :
    (threadReady k th).Holds th' ↔ k.Holds th' ∨ th' = th := by
  rw [KThread.Holds, KThread.Holds, threadReady_contents, Multiset.mem_add,
    Multiset.mem_singleton, KThread.rrqWindow, (threadReady_frame k th).1]
  exact or_right_comm

theorem threadThrowLocked_spec {r : KThread τ}
    (hbound : r.rrq.length ≤ runtimeRrqSize)
    (hfree : r.rrq.length < runtimeRrqSize → r.rrq.Free runtimeRrqSize)
    (th : τ) :
    (threadThrowLocked r th).rq = r.rq ∧
      (threadThrowLocked r th).entered = r.entered ∧
      (threadThrowLocked r th).left = r.left ∧
      (threadThrowLocked r th).rrq.length ≤ runtimeRrqSize ∧
      (threadThrowLocked r th).parked = r.parked ∧
      (threadThrowLocked r th).detached = r.detached ∧
      ∀ th', r.Holds th' ∨ th' = th → (threadThrowLocked r th).Holds th' := by
  unfold threadThrowLocked
  split_ifs with hfull
  · have hcontents : KThread.rqContents
        { r with rqOverflow := r.rqOverflow ++ [th] } =
          r.rqContents + {th} := by
      change (↑(r.rqWindow ++ (r.rqOverflow ++ [th])) : Multiset τ) = _
      rw [← List.append_assoc, ← Multiset.coe_add]
      rfl
    refine ⟨rfl, rfl, rfl, hbound, rfl, rfl, ?_⟩
    rintro th' ((hrq | hrrq) | rfl)
    · exact Or.inl (hcontents ▸ Multiset.mem_add.mpr (Or.inl hrq))
    · exact Or.inr hrrq
    · exact Or.inl (hcontents ▸ Multiset.mem_add.mpr
        (Or.inr (Multiset.mem_singleton_self _)))
  · have hlt := Nat.lt_of_not_le hfull
    have hroom : r.rrq.length + 1 < 2 ^ 32 := by
      simp only [runtimeRrqSize] at hlt
      omega
    have hwin := Ring.window_push th hroom (hfree hlt)
    refine ⟨rfl, rfl, rfl, ?_, rfl, rfl, ?_⟩
    · change (r.rrq.push runtimeRrqSize th).length ≤ _
      rw [Ring.length_push th hroom]
      exact hlt
    · have hmem : ∀ th', th' ∈ r.rrqWindow ∨ th' = th →
          th' ∈ (r.rrq.push runtimeRrqSize th).window runtimeRrqSize := by
        intro th' h
        rw [hwin, List.mem_append, List.mem_singleton]
        exact h
      rintro th' ((hrq | hrrq) | heq)
      · exact Or.inl hrq
      · exact Or.inr (hmem th' (Or.inl hrrq))
      · exact Or.inr (hmem th' (Or.inr heq))

end Libut.Runtime
