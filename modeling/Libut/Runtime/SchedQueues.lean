import Libut.Runtime.Sched

/-!
What the scheduler's functions do to the queues of the kthreads they touch,
read as lists. Counters may have wrapped; a window of at most 32 threads in a
ring of 32 slots is all that is used.
-/

namespace Libut.Runtime

open Machine

variable {τ : Type}

/-- The threads in `rq[rq_tail..rq_head)`, oldest first. -/
def KThread.rqWindow (k : KThread τ) : List τ := k.rq.window runtimeRqSize

/-- The threads in `rrq[rrq_tail..rrq_head)`. -/
def KThread.rrqWindow (k : KThread τ) : List τ := k.rrq.window runtimeRrqSize

def KThread.rqContents (k : KThread τ) : Multiset τ :=
  ↑(k.rqWindow ++ k.rqOverflow)

/-- The window fits the ring, and what entered it has left it in order or is
still there. -/
structure RqOk (k : KThread τ) : Prop where
  bound : k.rq.length ≤ runtimeRqSize
  fifo : k.entered = k.left ++ k.rqWindow

theorem rqSize_dvd : runtimeRqSize ∣ 2 ^ 32 := by decide

section Push

variable {k : KThread τ}

theorem RqOk.length_lt (h : RqOk k) : k.rq.length + 1 < 2 ^ 32 := by
  have := h.bound
  simp only [runtimeRqSize] at this
  omega

theorem rqPush_window (hlt : k.rq.length < runtimeRqSize) (th : τ) :
    (k.rqPush th).rqWindow = k.rqWindow ++ [th] := by
  refine Ring.window_push th ?_ (Ring.free_of_lt rqSize_dvd hlt)
  simp only [runtimeRqSize] at hlt
  omega

theorem RqOk.push (h : RqOk k) (hlt : k.rq.length < runtimeRqSize) (th : τ) :
    RqOk (k.rqPush th) := by
  refine ⟨?_, ?_⟩
  · change (k.rq.push runtimeRqSize th).length ≤ _
    rw [Ring.length_push th h.length_lt]
    exact hlt
  · rw [rqPush_window hlt]
    change k.entered ++ [th] = k.left ++ (k.rqWindow ++ [th])
    rw [h.fifo, List.append_assoc]

theorem rqPop_window (hne : k.rq.head ≠ k.rq.tail) :
    k.rqWindow = k.rq.front runtimeRqSize :: k.rqPop.rqWindow :=
  Ring.window_eq_front_cons hne

theorem RqOk.pop (h : RqOk k) (hne : k.rq.head ≠ k.rq.tail) : RqOk k.rqPop := by
  have hwin := rqPop_window hne
  refine ⟨?_, ?_⟩
  · have hlen := congrArg List.length hwin
    rw [KThread.rqWindow, KThread.rqWindow, List.length_cons,
      Ring.window_length, Ring.window_length] at hlen
    have := h.bound
    omega
  · change k.entered =
      k.left ++ [k.rq.front runtimeRqSize] ++ k.rqPop.rqWindow
    rw [h.fifo, List.append_assoc, List.singleton_append, ← hwin]

end Push

section Drain

/-- Draining moves threads from the front of the list to the back of the
window, in order, and touches nothing else. -/
theorem drainLoop_spec {l : KThread τ} (h : RqOk l) (pending : List τ) :
    RqOk (drainLoop l pending) ∧
      (drainLoop l pending).rqWindow ++ (drainLoop l pending).rqOverflow =
        l.rqWindow ++ pending ∧
      (drainLoop l pending).rrq = l.rrq ∧
      (drainLoop l pending).parked = l.parked ∧
      (drainLoop l pending).detached = l.detached := by
  induction pending generalizing l with
  | nil => exact ⟨⟨h.bound, h.fifo⟩, rfl, rfl, rfl, rfl⟩
  | cons th rest ih =>
    rw [drainLoop]
    split_ifs with hlt
    · obtain ⟨hok, hlist, hframe⟩ := ih (h.push hlt th)
      refine ⟨hok, ?_, hframe⟩
      rw [hlist, rqPush_window hlt, List.append_assoc, List.singleton_append]
    · exact ⟨⟨h.bound, h.fifo⟩, rfl, rfl, rfl, rfl⟩

variable {l : KThread τ} (h : RqOk l)

include h

theorem RqOk.drain : RqOk (drainOverflow l) :=
  (drainLoop_spec h _).1

theorem drainOverflow_contents : (drainOverflow l).rqContents = l.rqContents :=
  congrArg (fun ths : List τ => (ths : Multiset τ)) (drainLoop_spec h _).2.1

theorem drainOverflow_rrq : (drainOverflow l).rrq = l.rrq :=
  (drainLoop_spec h _).2.2.1

theorem drainOverflow_parked : (drainOverflow l).parked = l.parked :=
  (drainLoop_spec h _).2.2.2.1

theorem drainOverflow_detached : (drainOverflow l).detached = l.detached :=
  (drainLoop_spec h _).2.2.2.2

end Drain

theorem RqOk.threadReady {k : KThread τ} (h : RqOk k) (th : τ) :
    RqOk (threadReady k th) := by
  unfold Runtime.threadReady
  split_ifs with hfull
  · exact ⟨h.bound, h.fifo⟩
  · exact h.push (Nat.lt_of_not_le hfull) th

theorem threadReady_contents (k : KThread τ) (th : τ) :
    (Runtime.threadReady k th).rqContents = k.rqContents + {th} := by
  unfold Runtime.threadReady
  split_ifs with hfull
  · change (↑(k.rqWindow ++ (k.rqOverflow ++ [th])) : Multiset τ) = _
    rw [← List.append_assoc, ← Multiset.coe_add]
    rfl
  · change (↑((k.rqPush th).rqWindow ++ k.rqOverflow) : Multiset τ) = _
    rw [rqPush_window (Nat.lt_of_not_le hfull), KThread.rqContents,
      ← Multiset.coe_singleton, Multiset.coe_add, Multiset.coe_eq_coe,
      List.append_assoc, List.append_assoc]
    exact List.Perm.append_left _ List.perm_append_comm

theorem threadReady_frame (k : KThread τ) (th : τ) :
    (threadReady k th).rrq = k.rrq ∧ (threadReady k th).parked = k.parked ∧
      (threadReady k th).detached = k.detached := by
  unfold threadReady
  split_ifs <;> exact ⟨rfl, rfl, rfl⟩

section Pick

variable {l : KThread τ}

def Picked.popped : Picked τ → Multiset τ
  | .rrq _ => 0
  | .rq th => {th}
  | .softirq _ => 0
  | .nothing => 0

def Picked.rrqPopped : Picked τ → List τ
  | .rrq th => [th]
  | .rq _ => []
  | .softirq _ => []
  | .nothing => []

theorem rqPop_contents (hne : l.rq.head ≠ l.rq.tail) :
    l.rqPop.rqContents + {l.rq.front runtimeRqSize} = l.rqContents := by
  change (↑(l.rqPop.rqWindow ++ l.rqOverflow) : Multiset τ) + _ = _
  rw [KThread.rqContents, rqPop_window hne, List.cons_append,
    ← Multiset.cons_coe, add_comm, Multiset.singleton_add]

/-- A pick: it keeps the run queue well formed and takes exactly the picked
thread out of the queue it came from. -/
structure PickOk (l : KThread τ) (res : KThread τ × Picked τ) : Prop where
  ok : RqOk res.1
  contents : res.1.rqContents + res.2.popped = l.rqContents
  rrq : l.rrqWindow = res.2.rrqPopped ++ res.1.rrqWindow
  rrqLength : res.1.rrq.length ≤ l.rrq.length
  parked : res.1.parked = l.parked
  detached : res.1.detached = l.detached

theorem scheduleDone_ok (h : RqOk l) (hne : l.rq.head ≠ l.rq.tail) :
    PickOk l (scheduleDone l) := by
  have hpop := h.pop hne
  refine ⟨hpop.drain, ?_, ?_, ?_, drainOverflow_parked hpop,
    drainOverflow_detached hpop⟩
  · change (drainOverflow l.rqPop).rqContents + _ = _
    rw [drainOverflow_contents hpop]
    exact rqPop_contents hne
  · change l.rrqWindow = (drainOverflow l.rqPop).rrqWindow
    rw [KThread.rrqWindow, KThread.rrqWindow, drainOverflow_rrq hpop]
    rfl
  · change (drainOverflow l.rqPop).rrq.length ≤ _
    rw [drainOverflow_rrq hpop]
    exact le_rfl

theorem rrq_drop_length (hne : l.rrq.head ≠ l.rrq.tail) :
    (l.rrq.drop 1).length ≤ l.rrq.length := by
  have hlen := congrArg List.length
    (Ring.window_eq_front_cons (n := runtimeRrqSize) hne)
  rw [List.length_cons, Ring.window_length, Ring.window_length] at hlen
  omega

theorem enterSchedule_ok (h : RqOk l) (stackBusy watchdog : Bool) :
    PickOk l (enterSchedule l stackBusy watchdog) := by
  unfold enterSchedule
  split_ifs with hrrq hslow
  · refine ⟨⟨h.bound, h.fifo⟩, add_zero _, ?_, rrq_drop_length hrrq.1, rfl, rfl⟩
    exact Ring.window_eq_front_cons hrrq.1
  · exact ⟨h, add_zero _, rfl, le_rfl, rfl, rfl⟩
  · rw [not_or] at hslow
    exact ⟨h.pop hslow.1, rqPop_contents hslow.1, rfl, le_rfl, rfl, rfl⟩

theorem PickOk.of_same {l' : KThread τ} {res : KThread τ × Picked τ}
    (h : PickOk l' res) (hcontents : l'.rqContents = l.rqContents)
    (hrrq : l'.rrqWindow = l.rrqWindow) (hlength : l'.rrq.length ≤ l.rrq.length)
    (hparked : l'.parked = l.parked) (hdetached : l'.detached = l.detached) :
    PickOk l res :=
  ⟨h.ok, h.contents.trans hcontents, hrrq.symm.trans h.rrq,
    h.rrqLength.trans hlength, h.parked.trans hparked,
    h.detached.trans hdetached⟩

theorem rrq_reset_window (hrrq : l.rrq.head = l.rrq.tail) :
    KThread.rrqWindow { l with rrq := l.rrq.reset } = l.rrqWindow := by
  change l.rrq.reset.window runtimeRrqSize = l.rrq.window runtimeRrqSize
  rw [Ring.window_reset, Ring.window_eq_nil_iff.mpr hrrq]

theorem rq_reset_ok (h : RqOk l) (hrq : l.rq.head = l.rq.tail) :
    RqOk { l with rq := l.rq.reset } ∧
      KThread.rqContents { l with rq := l.rq.reset } = l.rqContents := by
  have hwin : l.rqWindow = [] := Ring.window_eq_nil_iff.mpr hrq
  have hwin' : KThread.rqWindow { l with rq := l.rq.reset } = [] :=
    Ring.window_reset
  refine ⟨⟨Ring.length_reset.trans_le (Nat.zero_le _), ?_⟩, ?_⟩
  · rw [hwin', ← hwin]
    exact h.fifo
  · rw [KThread.rqContents, KThread.rqContents, hwin', hwin]

/-- The local search for work: on failure the run queue has been reset. -/
theorem scheduleAgain_ok (h : RqOk l) (softirq : Option τ) :
    PickOk l (scheduleAgain l softirq) ∧
      ((scheduleAgain l softirq).2 = .nothing →
        (scheduleAgain l softirq).1.rq.head = 0 ∧
          (scheduleAgain l softirq).1.rq.tail = 0) := by
  have hd := h.drain
  have hsame {res : KThread τ × Picked τ} (hres : PickOk (drainOverflow l) res) :
      PickOk l res := by
    refine hres.of_same (drainOverflow_contents h) ?_ ?_
      (drainOverflow_parked h) (drainOverflow_detached h)
    · rw [KThread.rrqWindow, drainOverflow_rrq h]
      rfl
    · rw [drainOverflow_rrq h]
  unfold scheduleAgain
  dsimp only
  generalize drainOverflow l = l' at hd hsame
  split_ifs with hrrq hrq
  · have hok : RqOk { l' with rrq := l'.rrq.drop 1 } := ⟨hd.bound, hd.fifo⟩
    refine ⟨hsame ⟨hok.drain, ?_, ?_, ?_, drainOverflow_parked hok,
      drainOverflow_detached hok⟩, fun hnone => by cases hnone⟩
    · exact (add_zero _).trans (drainOverflow_contents hok)
    · rw [KThread.rrqWindow, KThread.rrqWindow, drainOverflow_rrq hok]
      exact Ring.window_eq_front_cons hrrq
    · rw [drainOverflow_rrq hok]
      exact rrq_drop_length hrrq
  all_goals
    rw [not_not] at hrrq
    have hreset := rrq_reset_window hrrq
    have hzero : l'.rrq.reset.length ≤ l'.rrq.length := by simp
    have hok : RqOk { l' with rrq := l'.rrq.reset } := ⟨hd.bound, hd.fifo⟩
  · refine ⟨hsame ((scheduleDone_ok hok hrq).of_same rfl hreset hzero rfl rfl),
      fun hnone => by cases hnone⟩
  · rw [not_not] at hrq
    obtain ⟨hok', hcontents⟩ := rq_reset_ok hok hrq
    cases softirq with
    | none =>
      refine ⟨hsame ⟨hok', ?_, hreset.symm, hzero, rfl, rfl⟩,
        fun _ => ⟨rfl, rfl⟩⟩
      exact (add_zero _).trans hcontents
    | some th =>
      refine ⟨hsame ⟨hok'.drain, ?_, ?_, ?_, drainOverflow_parked hok',
        drainOverflow_detached hok'⟩, fun hnone => by cases hnone⟩
      · exact (add_zero _).trans
          ((drainOverflow_contents hok').trans hcontents)
      · rw [KThread.rrqWindow, KThread.rrqWindow, drainOverflow_rrq hok']
        exact hreset.symm
      · rw [drainOverflow_rrq hok']
        exact hzero

/-- `schedule` goes on to steal only if there is no targeted thread. -/
theorem scheduleAgain_rrq {softirq : Option τ}
    (h : (scheduleAgain l softirq).2 = .nothing) :
    (scheduleAgain l softirq).1.rrq.head =
      (scheduleAgain l softirq).1.rrq.tail := by
  unfold scheduleAgain at h ⊢
  dsimp only at h ⊢
  split_ifs at h ⊢
  · cases h
  · cases softirq with
    | none => rfl
    | some th => cases h

end Pick

section Steal

variable {l r : KThread τ}

/-- The threads `steal_work` creates. -/
def Steal.fresh : Steal τ → Multiset τ
  | .stole (some th) => {th}
  | .stole none => 0
  | .missed => 0
  | .detach => 0

/-- What `steal_work` does: threads move from `r` to `l`, none is lost, and on
failure neither queue changes. -/
structure StealOk (l r : KThread τ)
    (res : KThread τ × KThread τ × Steal τ) : Prop where
  okL : RqOk res.1
  okR : RqOk res.2.1
  contents : res.1.rqContents + res.2.1.rqContents =
    l.rqContents + r.rqContents + res.2.2.fresh
  frameL : res.1.rrq = l.rrq ∧ res.1.parked = l.parked ∧
    res.1.detached = l.detached
  frameR : res.2.1.rrq = r.rrq ∧ res.2.1.parked = r.parked ∧
    res.2.1.detached = r.detached
  stole : ∀ fresh, res.2.2 = .stole fresh →
    res.1.rq.head ≠ res.1.rq.tail ∧ r.detached = false
  failed : res.2.2 = .missed ∨ res.2.2 = .detach → res.1 = l ∧ res.2.1 = r
  detach : res.2.2 = .detach → r.rq.head = r.rq.tail ∧ r.rqOverflow = [] ∧
    r.parked = true ∧ r.detached = false
  growL : l.rqContents + res.2.2.fresh ≤ res.1.rqContents

theorem stealEnqueue_eq (hhead : l.rq.head = 0) (th : τ) :
    stealEnqueue l th = l.rqPush th := by
  have hslot : l.rq.head.toNat % runtimeRqSize = l.rq.head.toNat := by
    rw [hhead]
    rfl
  simp only [stealEnqueue, KThread.rqPush, Ring.push, hslot]

theorem halfCount_toNat (hr : RqOk r) :
    ((r.rq.head - r.rq.tail + 2 - 1) / 2).toNat = (r.rq.length + 1) / 2 := by
  have hbound : (r.rq.head - r.rq.tail).toNat ≤ 32 := hr.bound
  have hsum : (r.rq.head - r.rq.tail + 2 - 1).toNat = r.rq.length + 1 := by
    change _ = (r.rq.head - r.rq.tail).toNat + 1
    bv_omega
  rw [BitVec.toNat_udiv, hsum]
  rfl

theorem stealHalf_windows (hr : RqOk r) (htail : l.rq.tail = 0) :
    (stealHalf l r).1.rqWindow =
        r.rqWindow.take ((r.rq.length + 1) / 2) ∧
      (stealHalf l r).2.rqWindow =
        r.rqWindow.drop ((r.rq.length + 1) / 2) ∧
      (stealHalf l r).1.rq.length = (r.rq.length + 1) / 2 := by
  have hcount := halfCount_toNat hr
  have hbound := hr.bound
  simp only [runtimeRqSize] at hbound
  have hlen : (stealHalf l r).1.rq.length = (r.rq.length + 1) / 2 := by
    change ((r.rq.head - r.rq.tail + 2 - 1) / 2 - l.rq.tail).toNat = _
    rw [htail, sub_zero, hcount]
  refine ⟨?_, ?_, hlen⟩
  · apply List.ext_getElem
    · rw [KThread.rqWindow, Ring.window_length, hlen, List.length_take,
        KThread.rqWindow, Ring.window_length]
      omega
    · intro i hi _
      rw [KThread.rqWindow, Ring.window_length, hlen] at hi
      have hslot : (stealHalf l r).1.rq.slot runtimeRqSize i = i := by
        change (l.rq.tail + BitVec.ofNat 32 i).toNat % 32 = i
        rw [htail, zero_add, BitVec.toNat_ofNat]
        omega
      simp only [KThread.rqWindow, Ring.window, List.getElem_map,
        List.getElem_range, List.getElem_take, hslot]
      change (if i < ((r.rq.head - r.rq.tail + 2 - 1) / 2).toNat
        then _ else _) = _
      rw [hcount, if_pos hi]
  · have hle : ((r.rq.head - r.rq.tail + 2 - 1) / 2).toNat ≤ r.rq.length := by
      rw [hcount]
      omega
    have := Ring.window_drop (n := runtimeRqSize) hle
    rw [hcount] at this
    exact this

theorem stealHalf_taken (hr : RqOk r) (htail : l.rq.tail = 0) :
    (stealHalf l r).1.entered =
        l.entered ++ (stealHalf l r).1.rqWindow ∧
      (stealHalf l r).2.left = r.left ++ (stealHalf l r).1.rqWindow := by
  have htaken : (List.range ((r.rq.head - r.rq.tail + 2 - 1) / 2).toNat).map
      (fun i => r.rq.slots (r.rq.slot runtimeRqSize i)) =
        (stealHalf l r).1.rqWindow := by
    rw [(stealHalf_windows hr htail).1, halfCount_toNat hr, KThread.rqWindow,
      Ring.window, ← List.map_take, List.take_range]
    congr 2
    omega
  exact ⟨congrArg (l.entered ++ ·) htaken, congrArg (r.left ++ ·) htaken⟩

theorem stealHalf_ok (hl : RqOk l) (hr : RqOk r) (hhead : l.rq.head = 0)
    (htail : l.rq.tail = 0) :
    RqOk (stealHalf l r).1 ∧ RqOk (stealHalf l r).2 ∧
      (stealHalf l r).1.rqContents + (stealHalf l r).2.rqContents =
        l.rqContents + r.rqContents := by
  obtain ⟨hwinL, hwinR, hlen⟩ := stealHalf_windows hr htail
  obtain ⟨hentered, hleft⟩ := stealHalf_taken hr htail
  have hempty : l.rqWindow = [] :=
    Ring.window_eq_nil_iff.mpr (hhead.trans htail.symm)
  have hsplit : (stealHalf l r).1.rqWindow ++ (stealHalf l r).2.rqWindow =
      r.rqWindow := by
    rw [hwinL, hwinR, List.take_append_drop]
  have hbound := hr.bound
  have hfifoL := hl.fifo
  rw [hempty, List.append_nil] at hfifoL
  refine ⟨⟨?_, ?_⟩, ⟨?_, ?_⟩, ?_⟩
  · rw [hlen]
    simp only [runtimeRqSize] at hbound ⊢
    omega
  · rw [hentered, hfifoL]
    rfl
  · have hlenR := congrArg List.length hwinR
    rw [KThread.rqWindow, Ring.window_length, List.length_drop,
      KThread.rqWindow, Ring.window_length] at hlenR
    omega
  · change r.entered = _
    rw [hleft, List.append_assoc, hsplit, hr.fifo]
  · change (↑((stealHalf l r).1.rqWindow ++ l.rqOverflow) : Multiset τ) +
      ↑((stealHalf l r).2.rqWindow ++ r.rqOverflow) = _
    rw [KThread.rqContents, KThread.rqContents, hempty, ← hsplit]
    simp only [← Multiset.coe_add, List.nil_append]
    abel

theorem stealWork_ok (hl : RqOk l) (hr : RqOk r) (hhead : l.rq.head = 0)
    (htail : l.rq.tail = 0) (softirq : Option τ) :
    StealOk l r (stealWork l r softirq) := by
  have hroom : l.rq.length < runtimeRqSize := by
    rw [Ring.length_eq_zero_iff.mpr (hhead.trans htail.symm)]
    decide
  have hpush (th : τ) : (l.rqPush th).rq.head ≠ (l.rqPush th).rq.tail := by
    change l.rq.head + 1 ≠ l.rq.tail
    rw [hhead, htail]
    decide
  have hpushed (th : τ) :
      (l.rqPush th).rqContents = l.rqContents + {th} := by
    have h := threadReady_contents l th
    rwa [Runtime.threadReady, if_neg (Nat.not_le.mpr hroom)] at h
  unfold stealWork
  by_cases hdetached : r.detached = true
  · rw [if_pos hdetached]
    exact ⟨hl, hr, (add_zero _).symm, ⟨rfl, rfl, rfl⟩, ⟨rfl, rfl, rfl⟩,
      fun _ h => by (cases h), fun _ => ⟨rfl, rfl⟩, fun h => by (cases h),
      (add_zero _).le⟩
  rw [if_neg hdetached]
  rw [Bool.not_eq_true] at hdetached
  by_cases havail : r.rq.head = r.rq.tail
  · rw [if_neg (not_not.mpr havail)]
    have hwin : r.rqWindow = [] := Ring.window_eq_nil_iff.mpr havail
    cases hover : r.rqOverflow with
    | cons th rest =>
      simp only [stealEnqueue_eq hhead]
      refine ⟨hl.push hroom th, ⟨hr.bound, hr.fifo⟩, ?_, ⟨rfl, rfl, rfl⟩,
        ⟨rfl, rfl, rfl⟩, fun _ _ => ⟨hpush th, hdetached⟩,
        fun h => by simp at h, fun h => by (cases h), ?_⟩
      · change (l.rqPush th).rqContents +
            (↑(r.rqWindow ++ rest) : Multiset τ) =
          l.rqContents + ↑(r.rqWindow ++ r.rqOverflow) + 0
        rw [hpushed, hover, hwin, List.nil_append, List.nil_append,
          ← Multiset.cons_coe, ← Multiset.singleton_add]
        abel
      · change l.rqContents + 0 ≤ (l.rqPush th).rqContents
        rw [hpushed, add_zero]
        exact Multiset.le_add_right _ _
    | nil =>
      cases softirq with
      | some th =>
        simp only [stealEnqueue_eq hhead]
        refine ⟨hl.push hroom th, hr, ?_, ⟨rfl, rfl, rfl⟩,
          ⟨rfl, rfl, rfl⟩, fun _ _ => ⟨hpush th, hdetached⟩,
          fun h => by simp at h, fun h => by (cases h), (hpushed th).ge⟩
        change (l.rqPush th).rqContents + r.rqContents =
          l.rqContents + r.rqContents + {th}
        rw [hpushed]
        abel
      | none =>
        refine ⟨hl, hr, ?_, ⟨rfl, rfl, rfl⟩, ⟨rfl, rfl, rfl⟩, ?_,
          fun _ => ⟨rfl, rfl⟩, ?_, ?_⟩
        · dsimp only
          split_ifs <;> exact (add_zero _).symm
        · intro fresh h
          dsimp only at h
          split_ifs at h
        · intro h
          dsimp only at h
          split_ifs at h with hparked
          exact ⟨havail, hover, hparked, hdetached⟩
        · dsimp only
          split_ifs <;> exact (add_zero _).le
  · rw [if_pos havail]
    obtain ⟨hokL, hokR, hcontents⟩ := stealHalf_ok hl hr hhead htail
    refine ⟨hokL, hokR, hcontents.trans (add_zero _).symm, ⟨rfl, rfl, rfl⟩,
      ⟨rfl, rfl, rfl⟩, fun _ _ => ⟨?_, hdetached⟩, fun h => by simp at h,
      fun h => by (cases h), ?_⟩
    · intro heq
      have hzero := Ring.length_eq_zero_iff.mpr heq
      rw [(stealHalf_windows hr htail).2.2] at hzero
      exact havail (Ring.length_eq_zero_iff.mp (by omega))
    · have hempty : l.rqWindow = [] :=
        Ring.window_eq_nil_iff.mpr (hhead.trans htail.symm)
      change l.rqContents + 0 ≤
        (↑((stealHalf l r).1.rqWindow ++ l.rqOverflow) : Multiset τ)
      rw [add_zero, KThread.rqContents, hempty, List.nil_append,
        ← Multiset.coe_add]
      exact Multiset.le_add_left _ _

end Steal

/-- `join_kthread` empties the queues of a kthread whose counters have not
wrapped between tail and head. -/
theorem joinDrain_unwrapped {k : KThread τ} (hle : k.rq.tail ≤ k.rq.head) :
    joinDrain k =
      ({ k with
          rq := k.rq.reset
          rqOverflow := []
          qRqTail := k.qRqTail + BitVec.ofNat 32 k.rqWindow.length
          left := k.left ++ k.rqWindow }, k.rqWindow ++ k.rqOverflow) := by
  have hcount : k.rq.head.toNat - k.rq.tail.toNat = k.rq.length :=
    (BitVec.toNat_sub_of_le hle).symm
  have hlength : k.rqWindow.length = k.rq.length := Ring.window_length
  rw [hlength]
  simp only [joinDrain, hcount]
  rfl

end Libut.Runtime
