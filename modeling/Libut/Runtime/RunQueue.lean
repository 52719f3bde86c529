import Libut.Runtime.SchedQueues

/-!
Conservation of the run queues over whole runs: no runnable thread is lost,
duplicated or overwritten, whatever the kthreads do and whatever values the
32-bit counters have.
-/

namespace Libut.Runtime

open Function Machine

variable {κ τ ε : Type}

def rqStart (s : SchedState κ τ ε) : Prop :=
  ∀ k, RqOk (s.kth k) ∧ (s.pc k).unlocked = true

/-- The steps other than `thread_throw` and `join_kthread`. -/
def queueOp (_ : SchedState κ τ ε) : SchedAct κ τ ε → Prop
  | .ready _ _ => True
  | .throw _ _ _ => False
  | .sleep _ => True
  | .enterSchedule _ _ _ => True
  | .watchdog _ _ => True
  | .again _ _ => True
  | .steal _ _ _ _ => True
  | .retry _ => True
  | .done _ => True
  | .yieldKthread _ => True
  | .park _ => True
  | .noPark _ => True
  | .unpark _ => True
  | .join _ _ _ => False
  | .timerStart _ _ _ => True
  | .timerSoftirq _ _ _ => True

/-- The thread a step gives to `thread_ready`, or the softirq thread that it
enqueues. -/
def rqAdded (s : SchedState κ τ ε) : SchedAct κ τ ε → Multiset τ
  | .ready _ th => {th}
  | .steal l r softirq _ =>
    (stealWork (s.kth l) (s.kth r) softirq).2.2.fresh
  | .yieldKthread k =>
    match s.pc k with
    | .thread th => {th}
    | _ => 0
  | _ => 0

def rqRemoved (s : SchedState κ τ ε) : SchedAct κ τ ε → Multiset τ
  | .enterSchedule k stackBusy watchdog =>
    (enterSchedule (s.kth k) stackBusy watchdog).2.popped
  | .again k softirq => (scheduleAgain (s.kth k) softirq).2.popped
  | .done k => (scheduleDone (s.kth k)).2.popped
  | _ => 0

def queueContents [Fintype κ] (s : SchedState κ τ ε) : Multiset τ :=
  ∑ k, (s.kth k).rqContents

structure QueueInv (s : SchedState κ τ ε) : Prop where
  ok : ∀ k, RqOk (s.kth k)
  stealing : ∀ k, s.pc k = .stealing →
    (s.kth k).rq.head = 0 ∧ (s.kth k).rq.tail = 0
  found : ∀ k, s.pc k = .found → (s.kth k).rq.head ≠ (s.kth k).rq.tail

theorem SchedPc.unlocked_ne {pc : SchedPc τ} (h : pc.unlocked = true) :
    pc ≠ .again ∧ pc ≠ .stealing ∧ pc ≠ .found := by
  cases pc <;> simp_all [SchedPc.unlocked]

section Change

variable [DecidableEq κ] {s t : SchedState κ τ ε}

variable {x : KThread τ} {p : SchedPc τ}

theorem QueueInv.update (h : QueueInv s) {k : κ}
    (hkth : t.kth = update s.kth k x) (hpc : t.pc = update s.pc k p)
    (hx : RqOk x) (hstealing : p = .stealing → x.rq.head = 0 ∧ x.rq.tail = 0)
    (hfound : p = .found → x.rq.head ≠ x.rq.tail) : QueueInv t := by
  have hself : t.kth k = x := by rw [hkth, update_self]
  have hother : ∀ l, l ≠ k → t.kth l = s.kth l ∧ t.pc l = s.pc l :=
    fun l hl => by simp [hkth, hpc, hl]
  have hpck : t.pc k = p := by rw [hpc, update_self]
  refine ⟨fun l => ?_, fun l hl => ?_, fun l hl => ?_⟩
  · rcases eq_or_ne l k with rfl | hne
    · rwa [hself]
    · rw [(hother l hne).1]
      exact h.ok l
  · rcases eq_or_ne l k with rfl | hne
    · rw [hself]
      exact hstealing (hpck.symm.trans hl)
    · rw [(hother l hne).1]
      exact h.stealing l ((hother l hne).2.symm.trans hl)
  · rcases eq_or_ne l k with rfl | hne
    · rw [hself]
      exact hfound (hpck.symm.trans hl)
    · rw [(hother l hne).1]
      exact h.found l ((hother l hne).2.symm.trans hl)

theorem QueueInv.update_unlocked (h : QueueInv s) {k : κ}
    (hkth : t.kth = Function.update s.kth k x) (hpc : t.pc = s.pc)
    (hk : (s.pc k).unlocked = true) (hx : RqOk x) : QueueInv t := by
  have hne := SchedPc.unlocked_ne hk
  exact h.update hkth (by rw [hpc, update_eq_self]) hx
    (fun hp => absurd hp hne.2.1) (fun hp => absurd hp hne.2.2)

variable [Fintype κ] {a b : Multiset τ}

theorem QueueInv.change_one (h : QueueInv s) {k : κ}
    (hkth : t.kth = Function.update s.kth k x)
    (hpc : t.pc = Function.update s.pc k p) (hx : RqOk x)
    (hstealing : p = .stealing → x.rq.head = 0 ∧ x.rq.tail = 0)
    (hfound : p = .found → x.rq.head ≠ x.rq.tail)
    (hcontents : x.rqContents + a = (s.kth k).rqContents + b) :
    QueueInv t ∧ queueContents t + a = queueContents s + b := by
  refine ⟨h.update hkth hpc hx hstealing hfound, ?_⟩
  refine sum_change_one (k := k) (fun l hl => ?_) ?_
  · rw [hkth, update_of_ne hl]
  · rwa [hkth, update_self]

theorem QueueInv.change_pc (h : QueueInv s) {k : κ} (hkth : t.kth = s.kth)
    (hpc : t.pc = Function.update s.pc k p) (hstealing : p ≠ .stealing)
    (hfound : p ≠ .found) :
    QueueInv t ∧ queueContents t + 0 = queueContents s + 0 :=
  h.change_one (x := s.kth k) (by rw [hkth, update_eq_self]) hpc
    (h.ok k) (fun hp => absurd hp hstealing) (fun hp => absurd hp hfound) rfl

omit [DecidableEq κ] in
theorem QueueInv.unchanged (h : QueueInv s) (hkth : t.kth = s.kth)
    (hpc : t.pc = s.pc) :
    QueueInv t ∧ queueContents t + 0 = queueContents s + 0 := by
  refine ⟨⟨?_, ?_, ?_⟩, ?_⟩
  · exact hkth ▸ h.ok
  · exact hkth ▸ hpc ▸ h.stealing
  · exact hkth ▸ hpc ▸ h.found
  · rw [queueContents, queueContents, hkth]

theorem QueueInv.change_two (h : QueueInv s) {l r : κ} (hlr : l ≠ r)
    {y : KThread τ}
    (hkth : t.kth = Function.update (Function.update s.kth l x) r y)
    (hpc : t.pc = Function.update s.pc l p) (hr : (s.pc r).unlocked = true)
    (hx : RqOk x) (hy : RqOk y)
    (hstealing : p = .stealing → x.rq.head = 0 ∧ x.rq.tail = 0)
    (hfound : p = .found → x.rq.head ≠ x.rq.tail)
    (hcontents : x.rqContents + y.rqContents + a =
      (s.kth l).rqContents + (s.kth r).rqContents + b) :
    QueueInv t ∧ queueContents t + a = queueContents s + b := by
  have hl' : t.kth l = x := by simp [hkth, hlr]
  have hr' : t.kth r = y := by simp [hkth]
  have hother : ∀ j, j ≠ l → j ≠ r → t.kth j = s.kth j :=
    fun j hj hj' => by simp [hkth, hj, hj']
  have hpcl : t.pc l = p := by rw [hpc, update_self]
  have hpco : ∀ j, j ≠ l → t.pc j = s.pc j := fun j hj => by simp [hpc, hj]
  have hrne := SchedPc.unlocked_ne hr
  refine ⟨⟨fun j => ?_, fun j hj => ?_, fun j hj => ?_⟩, ?_⟩
  · rcases eq_or_ne j r with rfl | hjr
    · rwa [hr']
    · rcases eq_or_ne j l with rfl | hjl
      · rwa [hl']
      · rw [hother j hjl hjr]
        exact h.ok j
  · rcases eq_or_ne j l with rfl | hjl
    · rw [hl']
      exact hstealing (hpcl.symm.trans hj)
    · rw [hpco j hjl] at hj
      rcases eq_or_ne j r with rfl | hjr
      · exact absurd hj hrne.2.1
      · rw [hother j hjl hjr]
        exact h.stealing j hj
  · rcases eq_or_ne j l with rfl | hjl
    · rw [hl']
      exact hfound (hpcl.symm.trans hj)
    · rw [hpco j hjl] at hj
      rcases eq_or_ne j r with rfl | hjr
      · exact absurd hj hrne.2.2
      · rw [hother j hjl hjr]
        exact h.found j hj
  · refine sum_change_two hlr (fun j hjl hjr => ?_) (hl' ▸ hr' ▸ hcontents)
    rw [hother j hjl hjr]

end Change

section Resume

/-- Where a kthread goes after a pick, with `pc` for the case of no pick. -/
def Picked.next (pc : SchedPc τ) : Picked τ → SchedPc τ
  | .rrq th => .thread th
  | .rq th => .thread th
  | .softirq th => .thread th
  | .nothing => pc

theorem Picked.next_eq {picked : Picked τ} {pc pc' : SchedPc τ}
    (h : picked.next pc = pc') (hthread : ∀ th, pc' ≠ .thread th) :
    picked = .nothing ∧ pc = pc' := by
  cases picked with
  | rrq th | rq th | softirq th => exact absurd h.symm (hthread th)
  | nothing => exact ⟨rfl, h⟩

variable [DecidableEq κ] [DecidableEq τ] (s : SchedState κ τ ε) (k : κ)
  (pc : SchedPc τ) (picked : Picked τ)

theorem resume_kth : (s.resume k pc picked).kth = s.kth := by
  cases picked <;> rfl

theorem resume_pc :
    (s.resume k pc picked).pc = update s.pc k (picked.next pc) := by
  cases picked <;> rfl

end Resume

theorem kthreadDetach_cases [DecidableEq κ] [DecidableEq ε]
    {s t : SchedState κ τ ε} {k r : κ} {quiet : Bool}
    (h : kthreadDetach s k r quiet = some t) :
    t = s ∨
      (quiet = true ∧ r ∈ s.ks ∧ ∃ timers,
        timerMerge s.timers k r = some timers ∧
        t = { s.setKth r { s.kth r with detached := true } with
          ks := swapRemove s.ks (s.ks.idxOf r)
          timers := timers }) := by
  unfold kthreadDetach at h
  split_ifs at h with hquiet hmem
  · obtain ⟨timers, htimers, rfl⟩ := Option.map_eq_some_iff.mp h
    exact Or.inr ⟨hquiet, hmem, timers, htimers, rfl⟩
  · exact Or.inl (Option.some.inj h).symm

theorem QueueInv.detach [DecidableEq κ] [DecidableEq ε] [Fintype κ]
    {s t : SchedState κ τ ε} (h : QueueInv s) {k r : κ} {quiet : Bool}
    (hr : (s.pc r).unlocked = true)
    (hnext : kthreadDetach s k r quiet = some t) :
    QueueInv t ∧ queueContents t + 0 = queueContents s + 0 := by
  rcases kthreadDetach_cases hnext with rfl | ⟨_, _, timers, _, rfl⟩
  · exact ⟨h, rfl⟩
  · exact h.change_one (k := r) (p := s.pc r) rfl
      (update_eq_self r s.pc).symm ⟨(h.ok r).bound, (h.ok r).fifo⟩
      (fun hp => absurd hp (SchedPc.unlocked_ne hr).2.1)
      (fun hp => absurd hp (SchedPc.unlocked_ne hr).2.2) rfl

/-- An attempt that steals nothing leaves both kthreads as they were. -/
theorem StealOk.setKth_eq [DecidableEq κ] {s : SchedState κ τ ε} {l r : κ}
    {l' r' : KThread τ} {result : Steal τ}
    (h : StealOk (s.kth l) (s.kth r) (l', r', result))
    (hfail : result = .missed ∨ result = .detach) :
    (s.setKth l l').setKth r r' = s := by
  obtain ⟨rfl, rfl⟩ := h.failed hfail
  simp [SchedState.setKth]

section Step

variable [DecidableEq κ] [DecidableEq τ] [DecidableEq ε] [Fintype κ]
  {s t : SchedState κ τ ε}

theorem QueueInv.steal (h : QueueInv s) {l r : κ} {softirq : Option τ}
    {quiet : Bool} (hpc : s.pc l = .stealing) (hlr : l ≠ r)
    (hr : (s.pc r).unlocked = true)
    (hnext : stealStep s l r softirq quiet = some t) :
    QueueInv t ∧ queueContents t + 0 = queueContents s +
      (stealWork (s.kth l) (s.kth r) softirq).2.2.fresh := by
  obtain ⟨hhead, htail⟩ := h.stealing l hpc
  have hok := stealWork_ok (h.ok l) (h.ok r) hhead htail softirq
  unfold stealStep at hnext
  rcases hres : stealWork (s.kth l) (s.kth r) softirq with ⟨l', r', result⟩
  rw [hres] at hok hnext
  cases result with
  | stole fresh =>
    have hcontents := hok.contents
    have hkth : t.kth =
        Function.update (Function.update s.kth l l') r r' ∧
        t.pc = Function.update s.pc l .found := by
      cases fresh <;> (cases hnext; exact ⟨rfl, rfl⟩)
    exact h.change_two hlr hkth.1 hkth.2 hr hok.okL hok.okR
      (fun hp => by cases hp) (fun _ => (hok.stole fresh rfl).1)
      ((add_zero _).trans hcontents)
  | missed =>
    cases hnext
    rw [hok.setKth_eq (.inl rfl)]
    exact ⟨h, rfl⟩
  | detach =>
    change kthreadDetach ((s.setKth l l').setKth r r') l r quiet = some t
      at hnext
    rw [hok.setKth_eq (.inr rfl)] at hnext
    exact h.detach hr hnext

theorem QueueInv.next (h : QueueInv s) {a : SchedAct κ τ ε} (hop : queueOp s a)
    (hnext : schedNext s a = some t) :
    QueueInv t ∧
      queueContents t + rqRemoved s a = queueContents s + rqAdded s a := by
  cases a with
  | throw k r th => exact hop.elim
  | join k r quiet => exact hop.elim
  | ready k th =>
    obtain ⟨hin, rfl⟩ := guarded hnext
    refine h.change_one (k := k) (p := s.pc k) rfl
      (update_eq_self k s.pc).symm ((h.ok k).threadReady th)
      (fun hp => ?_) (fun hp => ?_)
      ((add_zero _).trans (threadReady_contents _ th))
    · rw [hp] at hin
      cases hin
    · rw [hp] at hin
      cases hin
  | sleep k =>
    simp only [schedNext] at hnext
    split at hnext <;> cases hnext
    exact h.change_pc rfl rfl (by simp) (by simp)
  | enterSchedule k stackBusy watchdog =>
    simp only [schedNext] at hnext
    split at hnext
    · cases hnext
      have hok := enterSchedule_ok (h.ok k) stackBusy watchdog
      refine h.change_one (resume_kth ..) (resume_pc ..) hok.ok
        (fun hp => ?_) (fun hp => ?_) (hok.contents.trans (add_zero _).symm)
      · cases (Picked.next_eq hp (by simp)).2
      · cases (Picked.next_eq hp (by simp)).2
    · cases hnext
  | watchdog k th =>
    obtain ⟨-, rfl⟩ := guarded hnext
    have hok := h.ok k
    exact h.change_one rfl rfl hok.drain (fun hp => by cases hp)
      (fun hp => by cases hp)
      (congrArg (· + 0) (drainOverflow_contents hok))
  | again k softirq =>
    obtain ⟨-, rfl⟩ := guarded hnext
    obtain ⟨hok, hreset⟩ := scheduleAgain_ok (h.ok k) softirq
    refine h.change_one (resume_kth ..) (resume_pc ..) hok.ok
      (fun hp => ?_) (fun hp => ?_) (hok.contents.trans (add_zero _).symm)
    · exact hreset (Picked.next_eq hp (by simp)).1
    · cases (Picked.next_eq hp (by simp)).2
  | steal l r softirq quiet =>
    simp only [schedNext] at hnext
    split_ifs at hnext with hguard
    exact h.steal hguard.1 hguard.2.1 hguard.2.2 hnext
  | retry k | noPark k =>
    obtain ⟨-, rfl⟩ := guarded hnext
    exact h.change_pc rfl rfl (by simp) (by simp)
  | done k =>
    obtain ⟨hpc, rfl⟩ := guarded hnext
    have hok := scheduleDone_ok (h.ok k) (h.found k hpc)
    refine h.change_one (resume_kth ..) (resume_pc ..) hok.ok
      (fun hp => ?_) (fun hp => ?_) (hok.contents.trans (add_zero _).symm)
    · cases (Picked.next_eq hp (by simp)).2
    · cases (Picked.next_eq hp (by simp)).2
  | yieldKthread k =>
    simp only [schedNext] at hnext
    split at hnext <;> cases hnext
    rename_i th hpc
    refine h.change_one (k := k) (p := .yielding) rfl rfl
      ((h.ok k).threadReady th) (fun hp => by cases hp)
      (fun hp => by cases hp) ?_
    simp only [rqAdded, rqRemoved, hpc]
    exact (add_zero _).trans (threadReady_contents _ th)
  | park k =>
    obtain ⟨-, rfl⟩ := guarded hnext
    have hok := h.ok k
    exact h.change_one rfl rfl ⟨hok.bound, hok.fifo⟩ (fun hp => by cases hp)
      (fun hp => by cases hp) rfl
  | unpark k =>
    obtain ⟨-, rfl⟩ := guarded hnext
    have hok := h.ok k
    unfold kthreadUnpark
    split_ifs
    · exact h.change_one rfl rfl ⟨hok.bound, hok.fifo⟩
        (fun hp => by cases hp) (fun hp => by cases hp) rfl
    · exact h.change_one rfl rfl ⟨hok.bound, hok.fifo⟩
        (fun hp => by cases hp) (fun hp => by cases hp) rfl
  | timerStart k e deadlineUs =>
    simp only [schedNext] at hnext
    split_ifs at hnext
    obtain ⟨timers, _, rfl⟩ := Option.map_eq_some_iff.mp hnext
    exact h.unchanged rfl rfl
  | timerSoftirq k r nowUs =>
    obtain ⟨-, rfl⟩ := guarded hnext
    exact h.unchanged rfl rfl

theorem queueInv_reach (hs : (schedSystem rqStart).Reach queueOp s) :
    QueueInv s := by
  apply hs.invariant
  · intro s hinit
    refine ⟨fun k => (hinit k).1, fun k hpc => ?_, fun k hpc => ?_⟩
    · exact absurd hpc (SchedPc.unlocked_ne (hinit k).2).2.1
    · exact absurd hpc (SchedPc.unlocked_ne (hinit k).2).2.2
  · intro s a t hinv hop hnext
    exact (hinv.next hop hnext).1

/-- In every run of any number of kthreads, from queues with arbitrary
counters: at most 32 threads are between `rq_tail` and `rq_head`, also when
these have wrapped; threads leave each window in the order in which they
entered it; a kthread that steals has an empty, reset queue, as `steal_work`
asserts, and one that pops has something to pop; and a step changes the threads
in all run queues and overflow lists by exactly the one it adds and the one it
pops. -/
theorem run_queue_conservation (hs : (schedSystem rqStart).Reach queueOp s) :
    (∀ k, (s.kth k).rq.length ≤ runtimeRqSize) ∧
    (∀ k, (s.kth k).entered = (s.kth k).left ++ (s.kth k).rqWindow) ∧
    (∀ k, s.pc k = .stealing → (s.kth k).rq.head = 0 ∧ (s.kth k).rq.tail = 0) ∧
    (∀ k, s.pc k = .found → (s.kth k).rq.head ≠ (s.kth k).rq.tail) ∧
    ∀ a t, queueOp s a → schedNext s a = some t →
      queueContents t + rqRemoved s a = queueContents s + rqAdded s a := by
  have hinv := queueInv_reach hs
  exact ⟨fun k => (hinv.ok k).bound, fun k => (hinv.ok k).fifo, hinv.stealing,
    hinv.found, fun a t hop hnext => (hinv.next hop hnext).2⟩

end Step

def wrapKthread : KThread Nat where
  rq := ⟨fun _ => 1, 0xffffffff, 0xffffffff⟩
  rqOverflow := []
  qRqHead := 0
  qRqTail := 0
  rrq := ⟨fun _ => 0, 0, 0⟩
  parked := false
  detached := false
  entered := []
  left := []

def wrapStart : SchedState Unit Nat Nat where
  kth _ := wrapKthread
  pc _ := .thread 0
  state _ := .sleeping
  ks := [()]
  timers := ⟨fun _ _ => ⟨0, 0⟩, fun _ => 0, fun _ => ⟨false, 0, none⟩, []⟩

/-- Two threads are readied across the wrap of `rq_head`. -/
theorem run_queue_conservation_across_wrap :
    ∃ s t : SchedState Unit Nat Nat,
      (schedSystem rqStart).Reach queueOp s ∧
      schedNext s (.ready () 2) = some t ∧
      ((s.kth ()).rq.head = 0 ∧ (s.kth ()).rq.tail = 0xffffffff) ∧
      queueContents t + 0 = queueContents s + {2} := by
  have hok : RqOk wrapKthread := ⟨by decide, by decide⟩
  have hinit : (schedSystem rqStart).init wrapStart := fun _ => ⟨hok, rfl⟩
  have hs : (schedSystem rqStart).Reach queueOp (wrapStart.ready () 1) :=
    .step (a := .ready () 1) (.init hinit) trivial rfl
  exact ⟨_, (wrapStart.ready () 1).ready () 2, hs, rfl, by decide,
    (run_queue_conservation hs).2.2.2.2 (.ready () 2) _ trivial rfl⟩

end Libut.Runtime
