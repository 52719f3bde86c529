import Libut.Runtime.RunQueue
import Libut.Hwalloc.Dataplane

/-!
The queue positions that a runtime publishes (`runtime/sched.c`) and what the
daemon concludes from them (`cores_is_proc_congested` in `hwalloc/cores.c`).
The indices of `rq` are set back to 0 whenever the queue is empty, while the
copies in `q_ptrs` run freely and wrap. Every place that moves an index moves
its copy by the same amount, so that the copies count the threads that entered
and left the window.
-/

namespace Libut.Runtime

open Function Machine Hwalloc

variable {κ τ ε : Type}

def KThread.Published (k : KThread τ) : Prop :=
  k.qRqHead - k.qRqTail = k.rq.head - k.rq.tail

/-- `k` became `k'`: the threads `ins` entered the window, `outs` left it, and
the copies counted both. -/
def Advances (k k' : KThread τ) : Prop :=
  ∃ ins outs : List τ, k'.entered = k.entered ++ ins ∧
    k'.left = k.left ++ outs ∧
    k'.qRqHead = k.qRqHead + BitVec.ofNat 32 ins.length ∧
    k'.qRqTail = k.qRqTail + BitVec.ofNat 32 outs.length

section Kthread

variable {k k' k'' l r : KThread τ}

theorem Advances.of_same (hentered : k'.entered = k.entered)
    (hleft : k'.left = k.left) (hhead : k'.qRqHead = k.qRqHead)
    (htail : k'.qRqTail = k.qRqTail) : Advances k k' := by
  refine ⟨[], [], ?_, ?_, ?_, ?_⟩
  · rw [hentered, List.append_nil]
  · rw [hleft, List.append_nil]
  · rw [hhead]
    exact (BitVec.add_zero _).symm
  · rw [htail]
    exact (BitVec.add_zero _).symm

theorem Advances.refl (k : KThread τ) : Advances k k :=
  .of_same rfl rfl rfl rfl

theorem Advances.trans (h : Advances k k') (h' : Advances k' k'') :
    Advances k k'' := by
  obtain ⟨ins, outs, hentered, hleft, hhead, htail⟩ := h
  obtain ⟨ins', outs', hentered', hleft', hhead', htail'⟩ := h'
  refine ⟨ins ++ ins', outs ++ outs', ?_, ?_, ?_, ?_⟩
  · rw [hentered', hentered, List.append_assoc]
  · rw [hleft', hleft, List.append_assoc]
  · rw [hhead', hhead, List.length_append, BitVec.ofNat_add, BitVec.add_assoc]
  · rw [htail', htail, List.length_append, BitVec.ofNat_add, BitVec.add_assoc]

theorem rqPush_advances (k : KThread τ) (th : τ) : Advances k (k.rqPush th) :=
  ⟨[th], [], rfl, (List.append_nil _).symm, rfl, (BitVec.add_zero _).symm⟩

theorem rqPop_advances (k : KThread τ) : Advances k k.rqPop :=
  ⟨[], [k.rq.front runtimeRqSize], (List.append_nil _).symm, rfl,
    (BitVec.add_zero _).symm, rfl⟩

theorem drainLoop_advances (l : KThread τ) (pending : List τ) :
    Advances l (drainLoop l pending) := by
  induction pending generalizing l with
  | nil => exact .of_same rfl rfl rfl rfl
  | cons th rest ih =>
    rw [drainLoop]
    split_ifs with hroom
    · exact (rqPush_advances l th).trans (ih (l.rqPush th))
    · exact .of_same rfl rfl rfl rfl

theorem drainOverflow_advances (l : KThread τ) : Advances l (drainOverflow l) :=
  drainLoop_advances l l.rqOverflow

theorem threadReady_advances (k : KThread τ) (th : τ) :
    Advances k (threadReady k th) := by
  unfold threadReady
  split_ifs with hfull
  · exact .of_same rfl rfl rfl rfl
  · exact rqPush_advances k th

theorem scheduleDone_advances (l : KThread τ) : Advances l (scheduleDone l).1 :=
  (rqPop_advances l).trans (drainOverflow_advances l.rqPop)

theorem scheduleAgain_advances (l : KThread τ) (softirq : Option τ) :
    Advances l (scheduleAgain l softirq).1 := by
  apply (drainOverflow_advances l).trans
  unfold scheduleAgain
  dsimp only
  generalize drainOverflow l = l'
  have hreset : ∀ rq rrq : Ring 32 τ,
      Advances l' { l' with rq := rq, rrq := rrq } :=
    fun _ _ => .of_same rfl rfl rfl rfl
  split_ifs with hrrq hrq
  · exact (hreset l'.rq (l'.rrq.drop 1)).trans (drainOverflow_advances _)
  · exact (hreset l'.rq l'.rrq.reset).trans (scheduleDone_advances _)
  · cases softirq with
    | none => exact hreset l'.rq.reset l'.rrq.reset
    | some th =>
      exact (hreset l'.rq.reset l'.rrq.reset).trans
        (drainOverflow_advances _)

theorem enterSchedule_advances (k : KThread τ) (stackBusy watchdog : Bool) :
    Advances k (enterSchedule k stackBusy watchdog).1 := by
  unfold enterSchedule
  split_ifs with hrrq hslow
  · exact .of_same rfl rfl rfl rfl
  · exact .refl k
  · exact rqPop_advances k

theorem stealEnqueue_advances (l : KThread τ) (th : τ) :
    Advances l (stealEnqueue l th) :=
  ⟨[th], [], rfl, (List.append_nil _).symm, rfl, (BitVec.add_zero _).symm⟩

theorem stealHalf_advances (l r : KThread τ) :
    Advances l (stealHalf l r).1 ∧ Advances r (stealHalf l r).2 := by
  have hcount : BitVec.ofNat 32 ((List.range
      ((r.rq.head - r.rq.tail + 2 - 1) / 2).toNat).map fun i =>
        r.rq.slots (r.rq.slot runtimeRqSize i)).length =
      (r.rq.head - r.rq.tail + 2 - 1) / 2 := by
    rw [List.length_map, List.length_range, BitVec.ofNat_toNat,
      BitVec.setWidth_eq]
  constructor
  · refine ⟨_, [], rfl, (List.append_nil _).symm, ?_, (BitVec.add_zero _).symm⟩
    rw [hcount]
    rfl
  · refine ⟨[], _, (List.append_nil _).symm, rfl, (BitVec.add_zero _).symm, ?_⟩
    rw [hcount]
    rfl

theorem stealWork_advances (l r : KThread τ) (softirq : Option τ) :
    Advances l (stealWork l r softirq).1 ∧
      Advances r (stealWork l r softirq).2.1 := by
  unfold stealWork
  by_cases hdetached : r.detached = true
  · rw [if_pos hdetached]
    exact ⟨.refl l, .refl r⟩
  · rw [if_neg hdetached]
    by_cases havail : r.rq.head ≠ r.rq.tail
    · rw [if_pos havail]
      exact stealHalf_advances l r
    · rw [if_neg havail]
      cases r.rqOverflow with
      | cons th rest =>
        exact ⟨stealEnqueue_advances l th, .of_same rfl rfl rfl rfl⟩
      | nil =>
        cases softirq with
        | some th => exact ⟨stealEnqueue_advances l th, .refl r⟩
        | none => exact ⟨.refl l, .refl r⟩

theorem RqOk.distance (h : RqOk k) :
    k.rq.head - k.rq.tail =
      BitVec.ofNat 32 k.entered.length - BitVec.ofNat 32 k.left.length := by
  have hlength := congrArg List.length h.fifo
  rw [List.length_append, KThread.rqWindow, Ring.window_length] at hlength
  have hhead := Ring.head_eq (r := k.rq)
  rw [hlength, BitVec.ofNat_add, hhead]
  ring

theorem Advances.published (h : Advances k k') (hk : RqOk k) (hk' : RqOk k')
    (hpub : k.Published) : k'.Published := by
  obtain ⟨ins, outs, hentered, hleft, hhead, htail⟩ := h
  unfold KThread.Published at hpub ⊢
  rw [hk.distance] at hpub
  rw [hk'.distance, hhead, htail, hentered, hleft, List.length_append,
    List.length_append, BitVec.ofNat_add, BitVec.ofNat_add]
  linear_combination hpub

end Kthread

section Steps

variable [DecidableEq κ] {s t : SchedState κ τ ε} {k : κ}

theorem advances_update {x : KThread τ} (hkth : t.kth = update s.kth k x)
    (hx : Advances (s.kth k) x) (l : κ) : Advances (s.kth l) (t.kth l) := by
  rw [hkth]
  rcases eq_or_ne l k with rfl | hne
  · rwa [update_self]
  · rw [update_of_ne hne]
    exact .refl _

theorem kthreadDetach_advances [DecidableEq ε] {r : κ} {quiet : Bool}
    (hnext : kthreadDetach s k r quiet = some t) (l : κ) :
    Advances (s.kth l) (t.kth l) := by
  rcases kthreadDetach_cases hnext with rfl | ⟨_, _, timers, _, rfl⟩
  · exact .refl _
  · refine advances_update rfl ?_ l
    exact .of_same rfl rfl rfl rfl

variable [DecidableEq τ] [DecidableEq ε]

theorem stealStep_advances {l r : κ} {softirq : Option τ} {quiet : Bool}
    (hlr : l ≠ r) (hnext : stealStep s l r softirq quiet = some t) (j : κ) :
    Advances (s.kth j) (t.kth j) := by
  obtain ⟨hl, hr⟩ := stealWork_advances (s.kth l) (s.kth r) softirq
  unfold stealStep at hnext
  rcases hres : stealWork (s.kth l) (s.kth r) softirq with ⟨l', r', result⟩
  rw [hres] at hl hr hnext
  have hmoved : Advances (s.kth j) (((s.setKth l l').setKth r r').kth j) := by
    have hfirst := advances_update (t := s.setKth l l') rfl hl j
    apply hfirst.trans
    apply advances_update rfl
    change Advances (update s.kth l l' r) r'
    rwa [update_of_ne hlr.symm]
  cases result with
  | stole fresh =>
    cases fresh with
    | none | some th =>
      cases hnext
      exact hmoved
  | missed =>
    cases hnext
    exact hmoved
  | detach => exact hmoved.trans (kthreadDetach_advances hnext j)

theorem schedNext_advances {a : SchedAct κ τ ε} (hop : queueOp s a)
    (hnext : schedNext s a = some t) (l : κ) :
    Advances (s.kth l) (t.kth l) := by
  cases a with
  | throw k r th => exact hop.elim
  | join k r quiet => exact hop.elim
  | ready k th =>
    obtain ⟨-, rfl⟩ := guarded hnext
    exact advances_update rfl (threadReady_advances _ th) l
  | sleep k =>
    simp only [schedNext] at hnext
    split at hnext <;> cases hnext
    exact .refl _
  | enterSchedule k stackBusy watchdog =>
    simp only [schedNext] at hnext
    split at hnext <;> cases hnext
    exact advances_update (resume_kth ..)
      (enterSchedule_advances _ stackBusy watchdog) l
  | watchdog k th =>
    obtain ⟨-, rfl⟩ := guarded hnext
    exact advances_update (resume_kth ..) (drainOverflow_advances _) l
  | again k softirq =>
    obtain ⟨-, rfl⟩ := guarded hnext
    exact advances_update (resume_kth ..) (scheduleAgain_advances _ softirq) l
  | steal l' r softirq quiet =>
    simp only [schedNext] at hnext
    split_ifs at hnext with hguard
    exact stealStep_advances hguard.2.1 hnext l
  | retry k | noPark k | timerSoftirq k r nowUs =>
    obtain ⟨-, rfl⟩ := guarded hnext
    exact .refl _
  | done k =>
    obtain ⟨-, rfl⟩ := guarded hnext
    exact advances_update (resume_kth ..) (scheduleDone_advances _) l
  | yieldKthread k =>
    simp only [schedNext] at hnext
    split at hnext <;> cases hnext
    exact advances_update rfl (threadReady_advances _ _) l
  | park k =>
    obtain ⟨-, rfl⟩ := guarded hnext
    refine advances_update rfl ?_ l
    exact .of_same rfl rfl rfl rfl
  | unpark k =>
    obtain ⟨-, rfl⟩ := guarded hnext
    unfold kthreadUnpark
    split_ifs
    · refine advances_update rfl ?_ l
      exact .of_same rfl rfl rfl rfl
    · refine advances_update rfl ?_ l
      exact .of_same rfl rfl rfl rfl
  | timerStart k e deadlineUs =>
    simp only [schedNext] at hnext
    split_ifs at hnext
    obtain ⟨timers, _, rfl⟩ := Option.map_eq_some_iff.mp hnext
    exact .refl _

theorem advances_reach (ht : (schedSystem (· = s)).Reach queueOp t) (l : κ) :
    Advances (s.kth l) (t.kth l) := by
  induction ht with
  | init hinit =>
    cases hinit
    exact .refl _
  | step _ hop hnext ih => exact ih.trans (schedNext_advances hop hnext l)

end Steps

section Congestion

variable {k k' : KThread τ}

/-- A thread of the window of `k` is still in the window of `k'`. Its place is
counted from the first thread that ever entered, so that a thread which left
and came back is not the same one. -/
def StillQueued (k k' : KThread τ) : Prop :=
  ∃ i j th, k.rqWindow[i]? = some th ∧ k'.rqWindow[j]? = some th ∧
    k.left.length + i = k'.left.length + j

theorem wrapsLt_iff {a b : BitVec 32} {m n : Nat}
    (hdiff : a - b = BitVec.ofNat 32 m - BitVec.ofNat 32 n) (hn : n ≤ 2 ^ 31)
    (hm : m < n + 2 ^ 31) : wrapsLt a b = true ↔ m < n := by
  unfold wrapsLt
  rw [hdiff]
  apply BitVec.slt_zero_iff_msb_cond.trans
  simp only [BitVec.msb_eq_decide, BitVec.toNat_sub, BitVec.toNat_ofNat,
    decide_eq_true_eq]
  omega

/-- What entered since `k` was looked at comes behind its window, and what left
since then was in front. -/
theorem window_after {ins outs : List τ} (hk : RqOk k) (hk' : RqOk k')
    (hentered : k'.entered = k.entered ++ ins)
    (hleft : k'.left = k.left ++ outs) :
    k.rqWindow ++ ins = outs ++ k'.rqWindow := by
  have hfifo := hk'.fifo
  rw [hentered, hleft, hk.fifo, List.append_assoc, List.append_assoc] at hfifo
  exact List.append_cancel_left hfifo

theorem stillQueued_iff {ins outs : List τ} (hk : RqOk k) (hk' : RqOk k')
    (hentered : k'.entered = k.entered ++ ins)
    (hleft : k'.left = k.left ++ outs) :
    StillQueued k k' ↔ outs.length < k.rqWindow.length := by
  have hwindow := window_after hk hk' hentered hleft
  have hcount : k'.left.length = k.left.length + outs.length := by
    rw [hleft, List.length_append]
  constructor
  · rintro ⟨i, j, th, hi, _, hplace⟩
    have hlt := (List.getElem?_eq_some_iff.mp hi).1
    omega
  · intro hlt
    have hfirst : k'.rqWindow[0]? = k.rqWindow[outs.length]? := by
      have hleft : (k.rqWindow ++ ins)[outs.length]? =
          k.rqWindow[outs.length]? := List.getElem?_append_left hlt
      rw [← hleft, hwindow, List.getElem?_append_right le_rfl, Nat.sub_self]
    have hth := List.getElem?_eq_getElem hlt
    exact ⟨outs.length, 0, _, hth, hfirst.trans hth, hcount.symm⟩

/-- The daemon's comparison of the tail with an earlier head finds out whether
a thread of the earlier window is left. -/
theorem wrapsLt_stillQueued (hk : RqOk k) (hk' : RqOk k') (hpub : k.Published)
    (h : Advances k k') (hfew : k'.entered.length - k.entered.length < 2 ^ 31) :
    wrapsLt k'.qRqTail k.qRqHead = true ↔ StillQueued k k' := by
  obtain ⟨ins, outs, hentered, hleft, -, htail⟩ := h
  rw [stillQueued_iff hk hk' hentered hleft]
  have hwindow := congrArg List.length (window_after hk hk' hentered hleft)
  rw [List.length_append, List.length_append] at hwindow
  rw [hentered, List.length_append] at hfew
  have hbound : k.rqWindow.length ≤ 32 := by
    rw [KThread.rqWindow, Ring.window_length]
    exact hk.bound
  apply wrapsLt_iff
  · have hdistance := hk.distance
    rw [hk.fifo, List.length_append, BitVec.ofNat_add] at hdistance
    unfold KThread.Published at hpub
    rw [htail]
    linear_combination -hpub - hdistance
  · omega
  · omega

end Congestion

section Daemon

variable {π : Type} [DecidableEq π]

theorem checkThread_lastRqHead (obs : Observed π) (acc : Dataplane π × Bool)
    (th : ThreadRef π) :
    (Dataplane.checkThread obs acc th).1.lastRqHead =
      update acc.1.lastRqHead th (obs.rqHead th) := by
  unfold Dataplane.checkThread
  simp only
  split_ifs <;> rfl

theorem coresIsProcCongested_lastRqHead {d : Dataplane π} {p : π}
    {th : ThreadRef π} (hth : th ∈ d.threads.activeThreads p)
    (obs : Observed π) :
    (d.coresIsProcCongested p obs).1.lastRqHead th = obs.rqHead th := by
  -- once set, the value stays, as every pass stores what it observes
  have hloop : ∀ (l : List (ThreadRef π)) (acc : Dataplane π × Bool),
      (th ∈ l ∨ acc.1.lastRqHead th = obs.rqHead th) →
        (l.foldl (Dataplane.checkThread obs) acc).1.lastRqHead th =
          obs.rqHead th := by
    intro l
    induction l with
    | nil =>
      intro acc hacc
      exact hacc.resolve_left List.not_mem_nil
    | cons first rest ih =>
      intro acc hacc
      apply ih
      rw [checkThread_lastRqHead]
      rcases eq_or_ne th first with rfl | hne
      · exact .inr (update_self ..)
      · rw [update_of_ne hne]
        exact hacc.imp_left fun hmem => (List.mem_cons.mp hmem).resolve_left hne
  exact hloop _ (d, false) (.inl hth)

end Daemon

/-- The copies start at the distance of the indices; in the source all four
are 0. -/
def countersStart (s : SchedState κ τ ε) : Prop :=
  rqStart s ∧ ∀ k, (s.kth k).Published

section Run

variable [DecidableEq κ] [Fintype κ] [DecidableEq τ] [DecidableEq ε]
variable {s t : SchedState κ τ ε}
variable {π : Type} [DecidableEq π]

theorem published_reach (hs : (schedSystem countersStart).Reach queueOp s) :
    QueueInv s ∧ ∀ k, (s.kth k).Published := by
  induction hs with
  | init hinit => exact ⟨queueInv_reach (.init hinit.1), hinit.2⟩
  | step _ hop hnext ih =>
    obtain ⟨hinv, hpub⟩ := ih
    have hinv' := (hinv.next hop hnext).1
    refine ⟨hinv', fun k => ?_⟩
    exact (schedNext_advances hop hnext k).published (hinv.ok k)
      (hinv'.ok k) (hpub k)

/-- In every state of every run, the copies of every kthread have the same
distance as its indices. If the daemon looks at a thread in one such state `s`
and again in a later one `t`, and fewer than 2^31 threads entered the thread's
queue in between, then its comparison says congested exactly when a thread
that was queued in `s` has not left the queue. -/
theorem queue_counters_sound
    (hs : (schedSystem countersStart).Reach queueOp s) :
    (∀ k, (s.kth k).Published) ∧
    ∀ (d : Dataplane π) (p : π) (th : ThreadRef π) (obs : Observed π) (k : κ)
      (t : SchedState κ τ ε), th ∈ d.threads.activeThreads p →
      obs.rqHead th = (s.kth k).qRqHead →
      (schedSystem (· = s)).Reach queueOp t →
      (t.kth k).entered.length - (s.kth k).entered.length < 2 ^ 31 →
      (wrapsLt (t.kth k).qRqTail
          ((d.coresIsProcCongested p obs).1.lastRqHead th) = true ↔
        StillQueued (s.kth k) (t.kth k)) := by
  obtain ⟨hinv, hpub⟩ := published_reach hs
  refine ⟨hpub, fun d p th obs k t hth hhead ht hfew => ?_⟩
  have hinv' : QueueInv t := by
    apply ht.invariant
    · rintro _ rfl
      exact hinv
    · intro s a t hinv hop hnext
      exact (hinv.next hop hnext).1
  rw [coresIsProcCongested_lastRqHead hth, hhead]
  exact wrapsLt_stillQueued (hinv.ok k) (hinv'.ok k) (hpub k)
    (advances_reach ht k) hfew

end Run

def countersWrap : SchedState Unit Nat Nat :=
  { wrapStart with
    kth := fun _ =>
      { wrapKthread with qRqHead := 0xffffffff, qRqTail := 0xffffffff } }

def watchingDaemon : Dataplane Unit :=
  let boot := Dataplane.boot 0 fun _ => false
  { boot with
    threads := { boot.threads with activeThreads := fun p => [⟨p, 0⟩] } }

/-- The daemon looks after one thread was readied, across the wrap of the
published head, and again after another. -/
theorem queue_counters_sound_across_wrap :
    (schedSystem countersStart).Reach queueOp (countersWrap.ready () 1) ∧
    (wrapsLt (((countersWrap.ready () 1).ready () 2).kth ()).qRqTail
        ((watchingDaemon.coresIsProcCongested () ⟨0, 0, 0, 0⟩).1.lastRqHead
          ⟨(), 0⟩) = true ↔ StillQueued ((countersWrap.ready () 1).kth ())
        (((countersWrap.ready () 1).ready () 2).kth ())) := by
  have hok : RqOk (countersWrap.kth ()) := ⟨by decide, by decide⟩
  have hinit : (schedSystem countersStart).init countersWrap :=
    ⟨fun _ => ⟨hok, rfl⟩, fun _ => rfl⟩
  have hs : (schedSystem countersStart).Reach queueOp
      (countersWrap.ready () 1) :=
    .step (a := .ready () 1) (.init hinit) trivial rfl
  have ht : (schedSystem (· = countersWrap.ready () 1)).Reach queueOp
      ((countersWrap.ready () 1).ready () 2) :=
    .step (a := .ready () 2) (.init rfl) trivial rfl
  have hhead : 0 = ((countersWrap.ready () 1).kth ()).qRqHead := by decide
  have hfew : (((countersWrap.ready () 1).ready () 2).kth ()).entered.length -
      ((countersWrap.ready () 1).kth ()).entered.length < 2 ^ 31 := by decide
  exact ⟨hs, (queue_counters_sound hs).2 watchingDaemon () ⟨(), 0⟩ _ () _
    (List.mem_singleton_self _) hhead ht hfew⟩

end Libut.Runtime
