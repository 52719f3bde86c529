import Libut.Runtime.Detach
import Libut.Runtime.RunQueue

/-!
`join_kthread`, loop by loop. It empties the run queue of a parked kthread into
a list of its own, appends the overflow list, detaches the kthread and calls
`thread_ready` on everything in the list.

The draining loop compares `rq_tail` and `rq_head` as unsigned numbers. They
are free-running, so when `rq_head` has wrapped and `rq_tail` has not, the loop
ends before it has begun, and the reset of the counters drops the window.
-/

namespace Libut.Runtime

open Machine

variable {κ τ ε : Type}

/-- `for (; k->rq_tail < k->rq_head; k->rq_tail++)`, with the list `tmp`. -/
def joinLoop (k : KThread τ) (tmp : List τ) : KThread τ × List τ :=
  if k.rq.tail < k.rq.head then
    joinLoop k.rqPop (tmp ++ [k.rq.front runtimeRqSize])
  else (k, tmp)
termination_by k.rq.head.toNat - k.rq.tail.toNat
decreasing_by
  rename_i hlt
  rw [BitVec.lt_def] at hlt
  change k.rq.head.toNat - (k.rq.tail + 1).toNat < _
  rw [BitVec.toNat_add]
  change k.rq.head.toNat - (k.rq.tail.toNat + 1) % 2 ^ 32 < _
  omega

variable [DecidableEq κ] [DecidableEq τ] [DecidableEq ε]

/-- The last loop, with the calls of `thread_ready` in the order in which they
are made. -/
def wakeLoop (s : SchedState κ τ ε) (k : κ) (calls : List τ) :
    List τ → SchedState κ τ ε × List τ
  | [] => (s, calls)
  | th :: rest =>
    wakeLoop ((s.setState th .sleeping).ready k th) k (calls ++ [th]) rest

/-- `join_kthread(r)` on kthread `k` once it holds the lock of `r`, with its
calls of `thread_ready`. -/
def joinKthread (s : SchedState κ τ ε) (k r : κ) (quiet : Bool) :
    Option (SchedState κ τ ε × List τ) :=
  if (s.kth r).detached ∨ ¬ (s.kth r).parked ∨ r = k then some (s, [])
  else
    let (r', tmp) := joinLoop (s.kth r) []
    let r' := { r' with rq := r'.rq.reset }
    let tmp := tmp ++ r'.rqOverflow
    let r' := { r' with rqOverflow := [] }
    (kthreadDetach (s.setKth r r') k r quiet).map fun s => wakeLoop s k [] tmp

section Loops

omit [DecidableEq κ] [DecidableEq τ] [DecidableEq ε]

/-- With counters that have not wrapped between them the loop takes the window,
oldest thread first. -/
theorem joinLoop_unwrapped {k : KThread τ} {tmp : List τ}
    (hle : k.rq.tail ≤ k.rq.head) :
    joinLoop k tmp =
      ({ k with
          rq := { k.rq with tail := k.rq.head }
          qRqTail := k.qRqTail + BitVec.ofNat 32 k.rqWindow.length
          left := k.left ++ k.rqWindow }, tmp ++ k.rqWindow) := by
  fun_induction joinLoop k tmp with
  | case1 k tmp hlt ih =>
    have hne : k.rq.head ≠ k.rq.tail := (BitVec.ne_of_lt hlt).symm
    have hnext : k.rqPop.rq.tail ≤ k.rqPop.rq.head := by
      change k.rq.tail + 1 ≤ k.rq.head
      rw [BitVec.lt_def] at hlt
      rw [BitVec.le_def, BitVec.toNat_add]
      change (k.rq.tail.toNat + 1) % 2 ^ 32 ≤ _
      omega
    have hcount (n : Nat) : k.qRqTail + 1 + BitVec.ofNat 32 n =
        k.qRqTail + BitVec.ofNat 32 (n + 1) := by
      rw [BitVec.add_assoc, BitVec.add_comm 1, BitVec.ofNat_add]
      rfl
    rw [ih hnext, rqPop_window hne, List.append_assoc, List.singleton_append,
      List.length_cons, ← hcount]
    simp only [KThread.rqPop, Ring.drop, List.append_assoc,
      List.singleton_append]
  | case2 k tmp hstop =>
    have heq : k.rq.head = k.rq.tail :=
      BitVec.le_antisymm (BitVec.not_lt.mp hstop) hle
    have hempty : k.rqWindow = [] := Ring.window_eq_nil_iff.mpr heq
    have hrq (x : BitVec 32) (hx : x = k.rq.tail) :
        ({ k.rq with tail := x } : Ring 32 τ) = k.rq := by
      rw [hx]
    simp [hempty, hrq _ heq]

theorem joinLoop_wrapped {k : KThread τ} {tmp : List τ}
    (hlt : k.rq.head < k.rq.tail) : joinLoop k tmp = (k, tmp) := by
  rw [joinLoop, if_neg (BitVec.not_lt.mpr (BitVec.le_of_lt hlt))]

theorem joinDrain_wrapped {k : KThread τ} (hlt : k.rq.head < k.rq.tail) :
    joinDrain k = ({ k with rq := k.rq.reset, rqOverflow := [] },
      k.rqOverflow) := by
  have hcount : k.rq.head.toNat - k.rq.tail.toNat = 0 :=
    Nat.sub_eq_zero_of_le (Nat.le_of_lt (BitVec.lt_def.mp hlt))
  simp [joinDrain, hcount]

theorem joinLoop_joinDrain (k : KThread τ) :
    ({ (joinLoop k []).1 with
        rq := (joinLoop k []).1.rq.reset, rqOverflow := [] },
      (joinLoop k []).2 ++ (joinLoop k []).1.rqOverflow) = joinDrain k := by
  by_cases hle : k.rq.tail ≤ k.rq.head
  · rw [joinLoop_unwrapped hle, joinDrain_unwrapped hle]
    rfl
  · have hlt := BitVec.not_le.mp hle
    rw [joinLoop_wrapped hlt, joinDrain_wrapped hlt]
    rfl

end Loops

variable {s t : SchedState κ τ ε} {k r : κ} {quiet : Bool}

omit [DecidableEq ε] in
theorem wakeLoop_eq (calls tmp : List τ) :
    wakeLoop s k calls tmp = (rewake s k tmp, calls ++ tmp) := by
  induction tmp generalizing s calls with
  | nil => rw [wakeLoop, rewake, List.append_nil]
  | cons th rest ih =>
    rw [wakeLoop, rewake, ih, List.append_assoc, List.singleton_append]

theorem joinKthread_eq :
    joinKthread s k r quiet =
      if (s.kth r).detached ∨ ¬ (s.kth r).parked ∨ r = k then some (s, [])
      else
        (kthreadDetach (s.setKth r (joinDrain (s.kth r)).1) k r quiet).map
          fun u => (rewake u k (joinDrain (s.kth r)).2,
            (joinDrain (s.kth r)).2) := by
  unfold joinKthread
  split
  · rfl
  · simp only [wakeLoop_eq, List.nil_append, ← joinLoop_joinDrain]

/-- The step of the scheduler is this function. -/
theorem joinKthread_joinStep :
    (joinKthread s k r quiet).map Prod.fst = joinStep s k r quiet := by
  rw [joinKthread_eq, joinStep]
  split
  · rfl
  · rw [Option.map_map]
    rfl

/-- There is room for the timers of `r` among those of `k`. -/
def mergeFits (s : TimerState κ ε) (k r : κ) : Prop :=
  s.timern r = 0 ∨ s.timern k + s.timern r < runtimeMaxTimers

instance (s : TimerState κ ε) (k r : κ) : Decidable (mergeFits s k r) :=
  inferInstanceAs (Decidable (_ ∨ _))

section Detach

omit [DecidableEq τ]

/-- `timer_merge` reaches its `BUG()` as soon as the array is full. -/
theorem timerMergeLoop_isSome_iff (s : TimerState κ ε) (k r : κ) (n : Nat) :
    (timerMergeLoop s k r n).isSome ↔
      n = 0 ∨ s.timern k + n < runtimeMaxTimers := by
  induction n with
  | zero => simp [timerMergeLoop]
  | succ n ih =>
    cases hloop : timerMergeLoop s k r n with
    | none =>
      rw [hloop] at ih
      have hfull := ih.not.mp (by simp)
      rw [timerMergeLoop, hloop]
      simp only [Option.bind_none, Option.isSome_none, Bool.false_eq_true,
        false_iff]
      omega
    | some t =>
      have hcount : t.timern k = s.timern k + n := by
        rw [timerMergeLoop_timern hloop, Function.update_self]
      rw [timerMergeLoop, hloop, Option.bind_some, timerMergeOne_eq, hcount]
      split
      · rename_i hfull
        simp only [Option.isSome_none, Bool.false_eq_true, false_iff]
        omega
      · rename_i hroom
        simp only [Option.isSome_some, true_iff]
        omega

theorem timerMerge_isSome_iff (s : TimerState κ ε) (k r : κ) :
    (timerMerge s k r).isSome ↔ mergeFits s k r := by
  unfold timerMerge mergeFits
  split
  · rename_i hzero
    simp [hzero]
  · rw [Option.isSome_map, timerMergeLoop_isSome_iff]

theorem kthreadDetach_isSome_iff {s : SchedState κ τ ε} {k r : κ} {quiet : Bool}
    (hks : r ∈ s.ks) :
    (kthreadDetach s k r quiet).isSome ↔
      (quiet = true → mergeFits s.timers k r) := by
  unfold kthreadDetach
  cases quiet with
  | false => simp
  | true => simp [hks, timerMerge_isSome_iff]

theorem kthreadDetach_queues {s t : SchedState κ τ ε} {k r : κ} {quiet : Bool}
    (h : kthreadDetach s k r quiet = some t) :
    (t.kth r).rq = (s.kth r).rq ∧
      (t.kth r).rqOverflow = (s.kth r).rqOverflow ∧
      (t.kth r).qRqTail = (s.kth r).qRqTail := by
  rcases kthreadDetach_cases h with rfl | ⟨_, _, timers, _, rfl⟩
  · exact ⟨rfl, rfl, rfl⟩
  · simp [SchedState.setKth]

end Detach

omit [DecidableEq ε] in
theorem rewake_kth (hne : r ≠ k) (tmp : List τ) :
    (rewake s k tmp).kth r = s.kth r := by
  induction tmp generalizing s with
  | nil => rfl
  | cons th rest ih =>
    rw [rewake, ih]
    exact Function.update_of_ne hne ..

/-- What `join_kthread` is for: it returns, having called `thread_ready` on the
threads of the window and then on those of the overflow list, once each; the
queues of `r` are empty, and the daemon sees `rq_tail` advanced by the number
of threads that were in the window. -/
def JoinSound (s : SchedState κ τ ε) (k r : κ) (quiet : Bool) : Prop :=
  ∃ t, joinKthread s k r quiet =
      some (t, (s.kth r).rqWindow ++ (s.kth r).rqOverflow) ∧
    (t.kth r).rq.head = (t.kth r).rq.tail ∧ (t.kth r).rqOverflow = [] ∧
    (t.kth r).qRqTail =
      (s.kth r).qRqTail + BitVec.ofNat 32 (s.kth r).rqWindow.length

/-- For every parked and attached kthread other than the caller's, whatever is
in its queues: `join_kthread` loses no thread exactly if `rq_tail` is at most
`rq_head` as an unsigned number and, should the kthread be detached, its timers
fit among the caller's. -/
theorem join_loses_no_thread_iff (hparked : (s.kth r).parked = true)
    (hattached : (s.kth r).detached = false ∧ r ∈ s.ks) (hne : r ≠ k) :
    JoinSound s k r quiet ↔
      (s.kth r).rq.tail ≤ (s.kth r).rq.head ∧
        (quiet = true → mergeFits s.timers k r) := by
  obtain ⟨hdetached, hks⟩ := hattached
  have hgo : ¬ ((s.kth r).detached = true ∨ ¬ (s.kth r).parked = true ∨
      r = k) := by
    simp [hdetached, hparked, hne]
  set u := s.setKth r (joinDrain (s.kth r)).1 with hu
  have hur : u.kth r = (joinDrain (s.kth r)).1 := Function.update_self ..
  have hreturns : (kthreadDetach u k r quiet).isSome ↔
      (quiet = true → mergeFits s.timers k r) := kthreadDetach_isSome_iff hks
  unfold JoinSound
  rw [joinKthread_eq, if_neg hgo, ← hu]
  constructor
  · rintro ⟨t, hjoin, -⟩
    obtain ⟨v, hv, hvt⟩ := Option.map_eq_some_iff.mp hjoin
    refine ⟨?_, hreturns.mp (by rw [hv]; rfl)⟩
    -- the loop of a wrapped window leaves out the whole window
    by_contra hwrapped
    have hlt := BitVec.not_le.mp hwrapped
    have hcalls := congrArg (fun p => p.2.length) hvt
    rw [joinDrain_wrapped hlt] at hcalls
    have hnone : (s.kth r).rqWindow = [] := by
      rw [← List.length_eq_zero_iff]
      simpa using hcalls
    have hempty := Ring.window_eq_nil_iff.mp hnone
    exact absurd hempty (BitVec.ne_of_lt hlt)
  · rintro ⟨hle, hfits⟩
    obtain ⟨v, hv⟩ := Option.isSome_iff_exists.mp (hreturns.mpr hfits)
    obtain ⟨hrq, hover, htail⟩ := kthreadDetach_queues hv
    rw [hur, joinDrain_unwrapped hle] at hrq hover htail
    refine ⟨rewake v k (joinDrain (s.kth r)).2, ?_, ?_⟩
    · rw [hv, joinDrain_unwrapped hle]
      rfl
    · rw [rewake_kth hne, hrq, hover, htail]
      exact ⟨rfl, rfl, rfl⟩

section Runs

/-- A parked kthread with the threads 1 and 2 in its window and thread 3 in
its overflow list. -/
def parkedKthread (head tail : BitVec 32) : KThread Nat where
  rq := ⟨fun i => if i % 2 = 1 then 1 else 2, head, tail⟩
  rqOverflow := [3]
  qRqHead := head
  qRqTail := tail
  rrq := ⟨fun _ => 0, 0, 0⟩
  parked := true
  detached := false
  entered := []
  left := []

def oneParked (head tail : BitVec 32) : SchedState Bool Nat Nat where
  kth k :=
    if k then parkedKthread head tail
    else
      { parkedKthread 0 0 with rqOverflow := [], parked := false }
  pc k := if k then .parked else .thread 0
  state th :=
    if th = 0 then .running else if th ≤ 3 then .runnable else .sleeping
  ks := [false, true]
  timers := ⟨fun _ _ => ⟨0, 0⟩, fun _ => 0, fun _ => ⟨false, 0, none⟩, []⟩

theorem join_loses_no_thread_plain :
    ((oneParked 5 3).kth true).rqWindow ++ ((oneParked 5 3).kth true).rqOverflow =
        [1, 2, 3] ∧ JoinSound (oneParked 5 3) false true true := by
  have hattached : ((oneParked 5 3).kth true).detached = false ∧
      true ∈ (oneParked 5 3).ks := by decide
  have hfits : mergeFits (oneParked 5 3).timers false true := by decide
  exact ⟨by decide, (join_loses_no_thread_iff rfl hattached (by decide)).mpr
    ⟨by decide, fun _ => hfits⟩⟩

/-- With `rq_tail` at `2 ^ 32 - 1` and `rq_head` at 1 the window holds the
threads 1 and 2, but `join_kthread` readies thread 3 only and resets the
counters: 1 and 2 are runnable and in no queue. -/
theorem join_drops_wrapped_window :
    let s := oneParked 1 0xffffffff
    ((s.kth true).parked = true ∧ (s.kth true).detached = false ∧ true ∈ s.ks ∧
      (s.kth true).rq.length ≤ runtimeRqSize) ∧
    (s.kth true).rqWindow = [1, 2] ∧
    (∃ t, joinKthread s false true true = some (t, [3]) ∧
      (t.kth true).rqWindow = [] ∧ (t.kth false).rqWindow = [3] ∧
      t.state 1 = .runnable) ∧
    ¬ JoinSound s false true true := by
  intro s
  have hjoin : ∃ t, joinKthread s false true true = some (t, [3]) ∧
      (t.kth true).rqWindow = [] ∧ (t.kth false).rqWindow = [3] ∧
      t.state 1 = .runnable := by
    have hdrain : joinDrain (s.kth true) =
        ({ s.kth true with
            rq := (s.kth true).rq.reset, rqOverflow := [] }, [3]) :=
      joinDrain_wrapped (by decide)
    rw [joinKthread_eq, hdrain]
    exact ⟨_, rfl, by decide, by decide, by decide⟩
  refine ⟨by decide, by decide, hjoin, ?_⟩
  rintro ⟨t, ht, -⟩
  obtain ⟨t', ht', -⟩ := hjoin
  have hall : (s.kth true).rqWindow ++ (s.kth true).rqOverflow = [1, 2, 3] := by
    decide
  rw [hall, ht'] at ht
  simp at ht

end Runs

end Libut.Runtime
