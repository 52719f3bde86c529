import Libut.Runtime.StackTokens

/-!
At most one kthread executes on a uthread's stack, and a kthread enters a
thread only through the frame the thread last had. Every step keeps the token
invariant, except one: `thread_finish_yield_kthread` leaves `__self` set while
the kthread is parked, and the `schedule()` that follows clears the flag of
whatever the thread has become since.
-/

namespace Libut.Runtime

open Machine

variable {κ τ : Type} {s t : StackState κ τ} {k l : κ} {th : τ}

namespace StackInv

theorem init (hinit : stackStart s) : StackInv s := by
  obtain ⟨hpc, hqueue, hthread⟩ := hinit
  have hidle : ∀ k, (s.pc k).idle = true := fun k => by
    rw [(hpc k).1]
    rfl
  refine ⟨fun k => ?_, fun k l th hk _ => ?_, fun k l th hk _ => ?_,
    fun th _ => (hthread th).2, ⟨?_, ?_, ?_⟩⟩
  · simp [PcOk, hpc k]
  · simp [holds_of_idle (hidle k)] at hk
  · simp [claims_of_idle (hidle k)] at hk
  all_goals simp [hqueue]

variable [DecidableEq κ] [DecidableEq τ]

attribute [simp] StackState.claim StackState.ready StackState.holds
  StackState.onStack StackState.clears StackState.claims

section

variable (h : StackInv s)
include h

theorem mark (hpc : s.pc k = .running th) (hnext : s.mark k th = some t) :
    StackInv t := by
  have hok := h.pcOk k
  simp only [PcOk, hpc] at hok
  obtain ⟨hself, hbusy, hsaved, hstate⟩ := hok
  have hheld : s.holds k = some th := by simp [hpc]
  have hclaims : s.claims k = some th := by simp [hpc]
  rw [StackState.mark, hself, Option.map_some] at hnext
  cases hnext
  refine h.stepHeld hheld ?_ (by simp) ?_ ?_ ?_ ?_ ?_ ?_
  · simp +contextual
  · simp +contextual
  · simp
  · intro l hl th' hth'
    simp [h.ne_claimed hclaims hstate hl hth']
  · simp
  · exact h.queued.setState (by simp [hstate])
  · simp [PcOk, hself, hsaved]

theorem publish (hpc : s.pc k = .marked th) :
    StackInv ((s.setVisible th true).setPc k (.published th)) := by
  have hok := h.pcOk k
  simp only [PcOk, hpc] at hok
  obtain ⟨hself, hbusy, hsaved, hstate, _⟩ := hok
  have hheld : s.holds k = some th := by simp [hpc]
  refine h.stepKeep k ?_ (by simp) rfl rfl ?_ ?_ ?_ h.queued ?_
  · simp +contextual
  · rw [hheld]
    simp
  · intro l hl th' hth'
    have hne : th' ≠ th := by
      rintro rfl
      rcases hth' with hth' | hth'
      · exact h.not_claimed (by simp [hstate]) l hth'
      · refine hl (h.holds_inj l k th' ?_ hheld)
        simp [hth']
    simp [hne]
  · simp
  · simp [PcOk, hself, hbusy, hsaved]

theorem claim {pc : StackPc τ} (hmem : th ∈ s.queue (.queues k))
    (hholds : ((s.take (.queues k) th).claim k th pc).holds k = s.holds k)
    (hclaims : ((s.take (.queues k) th).claim k th pc).claims k = some th)
    (hok : PcOk ((s.take (.queues k) th).claim k th pc) k) :
    StackInv ((s.take (.queues k) th).claim k th pc) := by
  have hrunnable := h.queued.runnable _ th hmem
  refine h.stepKeep k ?_ ?_ rfl rfl hholds ?_
    (h.claims_taken (by simp [hrunnable]) hclaims) (h.queued.take hmem) hok
  · simp +contextual
  · simp +contextual
  · intro l _ th' hth'
    have hne : th' ≠ th := by
      rintro rfl
      exact h.not_mentioned (by simp [hrunnable]) (by simp [hrunnable]) l hth'
    simp [hne]

theorem claimDirect {myth : τ} (hpc : s.pc k = .published myth)
    (hmem : th ∈ s.queue (.queues k)) :
    StackInv ((s.take (.queues k) th).claim k th (.directWait myth th)) := by
  have hok := h.pcOk k
  simp only [PcOk, hpc] at hok
  obtain ⟨_, hbusy, hsaved⟩ := hok
  refine h.claim hmem ?_ ?_ ?_
  · simp [hpc]
  · simp
  · simp [PcOk, hbusy, hsaved]

theorem popDirect {myth : τ} (hpc : s.pc k = .published myth)
    (hmem : th ∈ s.queue (.queues k)) : StackInv (s.popDirect k myth th) := by
  unfold StackState.popDirect
  split_ifs with heq
  · subst heq
    have hok := h.pcOk k
    simp only [PcOk, hpc] at hok
    obtain ⟨hself, _, hsaved⟩ := hok
    have hheld : s.holds k = some th := by
      simp [hpc]
    have hrunnable := h.queued.runnable _ th hmem
    have hrun : s.state th ≠ .running := by simp [hrunnable]
    refine h.stepHeld hheld ?_ (by simp) ?_ ?_ ?_ (h.claims_taken hrun ?_)
      (h.queued.take hmem) ?_
    · simp +contextual
    · simp +contextual
    · simp
    · intro l _ th' hth'
      have hne : th' ≠ th := by
        rintro rfl
        exact h.not_mentioned hrun (by simp [hrunnable]) l hth'
      simp [hne]
    · simp
    · simp [PcOk, hself, hsaved]
  · exact h.claimDirect hpc hmem

theorem directSave {oldth newth : τ} (hpc : s.pc k = .directWait oldth newth)
    (hfree : s.stackBusy newth = false) :
    StackInv ((s.setSaved oldth true).setPc k (.directSaved oldth newth)) := by
  have hok := h.pcOk k
  simp only [PcOk, hpc] at hok
  obtain ⟨hself, hbusy, _, hstate⟩ := hok
  have hheld : s.holds k = some oldth := by
    simp [hpc]
  have hclaims : s.claims k = some newth := by simp [hpc]
  have hsaved : s.saved newth = true :=
    (h.free newth (h.not_held hclaims hfree (by simp [hpc]))).2
  have hne : newth ≠ oldth := by
    rintro rfl
    exact Bool.noConfusion (hfree.symm.trans hbusy)
  refine h.stepHeld hheld ?_ (by simp) ?_ ?_ (by simp)
    (h.claims_kept hclaims ?_) h.queued ?_
  · simp +contextual
  · simp +contextual
  · simp
  · simp
  · simp [PcOk, hself, hbusy, hstate, hfree, hsaved, hne]

/-- Entering a thread: `k` has claimed it and its stack is free. The store to
`stack_busy` of the thread left behind is the other half of
`__jmp_thread_direct`. -/
theorem enter {busy : τ → Bool}
    (hself : s.self k = some th) (hstate : s.state th = .running)
    (hclaims : s.claims k = some th) (hfree : ∀ l, s.holds l ≠ some th)
    (hcleared : ∀ old, s.holds k = some old →
      busy old = false ∧ s.saved old = true)
    (hother : ∀ th', s.holds k ≠ some th' → busy th' = s.stackBusy th') :
    StackInv (({ s with stackBusy := busy }.setSaved th false).setPc k
      (.running th)) := by
  have hbusy : busy th = false :=
    (hother th (hfree k)).trans (h.free th hfree).1
  refine h.step k ?_ (by simp) ?_ (by simp) ?_ ?_
    (h.claims_kept hclaims ?_) ?_ h.queued
  · simp +contextual
  · intro l hl th' hth'
    have hne : th' ≠ th := by
      rintro rfl
      exact h.alone_of_not_held hclaims hfree hl hth'
    have hold : s.holds k ≠ some th' := fun hk => h.alone hk hl hth'
    simp [hne, hother th' hold]
  · simp [PcOk, hself, hstate, hbusy]
  · intro th' hth' l _
    have heq : th = th' := by
      simpa [StackState.holds, StackState.onStack] using hth'
    exact heq ▸ hfree l
  · simp
  · intro th' hothers hth'
    have hne : th' ≠ th := by
      rintro rfl
      simp at hth'
    by_cases hk : s.holds k = some th'
    · simpa [hne] using hcleared th' hk
    · have hheld : ∀ l, s.holds l ≠ some th' := fun l => by
        rcases eq_or_ne l k with rfl | hl
        · exact hk
        · exact hothers l hl
      simpa [hne, hother th' hk] using h.free th' hheld

theorem directJump {oldth newth : τ} (hpc : s.pc k = .directSaved oldth newth) :
    StackInv (((s.setBusy oldth false).setSaved newth false).setPc k
      (.running newth)) := by
  have hok := h.pcOk k
  simp only [PcOk, hpc] at hok
  obtain ⟨hself, _, hsaved, hstate, hfree, _⟩ := hok
  have hheld : s.holds k = some oldth := by
    simp [hpc]
  have hclaims : s.claims k = some newth := by simp [hpc]
  refine h.enter hself hstate hclaims
    (h.not_held hclaims hfree (by simp [hpc])) ?_ ?_
  · intro old hold
    cases hheld.symm.trans hold
    exact ⟨Function.update_self .., hsaved⟩
  · intro th' hth'
    rw [hheld] at hth'
    exact Function.update_of_ne (fun heq => hth' (congrArg some heq.symm)) ..

theorem jump (hpc : s.pc k = .jumpWait th) (hfree : s.stackBusy th = false) :
    StackInv ((s.setSaved th false).setPc k (.running th)) := by
  have hok := h.pcOk k
  simp only [PcOk, hpc] at hok
  obtain ⟨hself, hstate⟩ := hok
  have hclaims : s.claims k = some th := by simp [hpc]
  refine h.enter hself hstate hclaims
    (h.not_held hclaims hfree (by simp [hpc])) ?_ fun _ _ => rfl
  simp [hpc]

theorem jmpRuntime (hpc : s.pc k = .published th)
    (hnext : s.jmpRuntime k .schedule = some t) : StackInv t := by
  have hok := h.pcOk k
  simp only [PcOk, hpc] at hok
  obtain ⟨hself, hbusy, _⟩ := hok
  have hheld : s.holds k = some th := by simp [hpc]
  rw [StackState.jmpRuntime, hself, Option.map_some] at hnext
  cases hnext
  refine h.stepHeld hheld ?_ (by simp) ?_ ?_ (by simp) ?_ h.queued ?_
  · simp +contextual
  · simp +contextual
  · simp [hself]
  · simp
  · simp [PcOk, hself, hbusy]

theorem yieldKthread (hpc : s.pc k = .running th)
    (hnext : s.jmpRuntime k .finishYield = some t) : StackInv t := by
  have hok := h.pcOk k
  simp only [PcOk, hpc] at hok
  obtain ⟨hself, hbusy, _, hstate⟩ := hok
  have hheld : s.holds k = some th := by simp [hpc]
  have hclaims : s.claims k = some th := by simp [hpc]
  rw [StackState.jmpRuntime, hself, Option.map_some] at hnext
  cases hnext
  refine h.stepHeld hheld ?_ (by simp) ?_ ?_ (by simp)
    (h.claims_kept hclaims ?_) h.queued ?_
  · simp +contextual
  · simp +contextual
  · simp [hbusy]
  · simp [hself]
  · simp [PcOk, hself, hbusy, hstate]

theorem schedule (hpc : s.pc k = .schedule) : StackInv (s.schedule k) := by
  have hok := h.pcOk k
  simp only [PcOk, hpc] at hok
  obtain ⟨th, hself, _, hsaved⟩ := hok
  have hheld : s.holds k = some th := by
    simp [hpc, hself]
  simp only [StackState.schedule, hself]
  refine h.stepHeld hheld ?_ ?_ ?_ ?_ (by simp) ?_ h.queued ?_
  · simp +contextual
  · simp +contextual
  · simp +contextual
  · simp [hsaved]
  · simp
  · simp [PcOk]

/-- The entry of `schedule()` from `thread_finish_yield_kthread`: `__self` may
be anywhere by now, and the store is harmless when its flag is clear. -/
theorem yieldSchedule (hpc : s.pc k = .yieldSchedule)
    (hclear : ∀ th ∈ s.self k, s.stackBusy th = false) :
    StackInv (s.schedule k) := by
  have hok := h.pcOk k
  simp only [PcOk, hpc] at hok
  obtain ⟨th, hself⟩ := hok
  simp only [StackState.schedule, hself]
  refine h.stepKeep k ?_ ?_ ?_ rfl ?_ (by simp) ?_ h.queued ?_
  · simp +contextual
  · simp +contextual
  · rw [← hclear th hself]
    exact Function.update_eq_self ..
  · simp [hpc]
  · simp
  · simp [PcOk]

theorem ready (hsleeping : s.state th = .sleeping)
    (hvisible : s.visible th = true) : StackInv (s.ready k th) :=
  h.requeue (by simp [hsleeping]) (fun _ => hvisible)
    (h.queued.put (by simp [hsleeping]))

theorem move {p q : Place κ} (hnext : s.move p q th = some t) : StackInv t := by
  obtain ⟨hmem, rfl⟩ := guarded hnext
  have hrunnable := h.queued.runnable p th hmem
  exact h.requeue (by simp [hrunnable]) (by simp [hrunnable])
    (h.queued.move hmem)

theorem finishYield (hpc : s.pc k = .finishYield)
    (hnext : s.finishYield k = some t) : StackInv t := by
  have hok := h.pcOk k
  simp only [PcOk, hpc] at hok
  obtain ⟨th, hself, hstate, _⟩ := hok
  have hclaims : s.claims k = some th := by
    simp [hpc, hself]
  rw [StackState.finishYield, hself, Option.map_some] at hnext
  cases hnext
  refine h.stepKeep k ?_ (by simp) rfl rfl ?_ ?_ ?_
    (h.queued.put (by simp [hstate])) ?_
  · simp +contextual
  · simp [hpc]
  · intro l hl th' hth'
    simp [h.ne_claimed hclaims hstate hl hth']
  · simp
  · simp [PcOk, hself]

theorem next {a : StackAct κ τ} (hok : stackOk s a)
    (hnext : stackNext s a = some t) : StackInv t := by
  cases a with
  | mark k =>
    simp only [stackNext] at hnext
    split at hnext
    · exact h.mark ‹_› hnext
    · cases hnext
  | publish k =>
    simp only [stackNext] at hnext
    split at hnext <;> cases hnext
    exact h.publish ‹_›
  | ready k th =>
    obtain ⟨hth, rfl⟩ := guarded hnext
    exact h.ready hth.1 hth.2
  | popDirect k th =>
    simp only [stackNext] at hnext
    split at hnext
    · obtain ⟨hmem, rfl⟩ := guarded hnext
      exact h.popDirect ‹_› hmem
    · cases hnext
  | popTargeted k th =>
    simp only [stackNext] at hnext
    split at hnext
    · obtain ⟨hmem, rfl⟩ := guarded hnext
      exact h.claimDirect ‹_› hmem.1
    · cases hnext
  | directSave k =>
    simp only [stackNext] at hnext
    split at hnext
    · obtain ⟨hfree, rfl⟩ := guarded hnext
      exact h.directSave ‹_› hfree
    · cases hnext
  | directJump k =>
    simp only [stackNext] at hnext
    split at hnext <;> cases hnext
    exact h.directJump ‹_›
  | jmpRuntime k =>
    simp only [stackNext] at hnext
    split at hnext
    · exact h.jmpRuntime ‹_› hnext
    · cases hnext
  | schedule k =>
    simp only [stackNext] at hnext
    split at hnext <;> cases hnext
    · exact h.schedule ‹_›
    · exact h.yieldSchedule ‹_› (hok ‹_›)
  | pop k th =>
    simp only [stackNext] at hnext
    split at hnext
    · rename_i hpc
      obtain ⟨hmem, rfl⟩ := guarded hnext
      exact h.claim hmem (by simp [hpc]) (by simp) (by simp [PcOk])
    · cases hnext
  | jump k =>
    simp only [stackNext] at hnext
    split at hnext
    · obtain ⟨hfree, rfl⟩ := guarded hnext
      exact h.jump ‹_› hfree
    · cases hnext
  | steal | joinDrain | joinWake => exact h.move hnext
  | yieldKthread k =>
    simp only [stackNext] at hnext
    split at hnext
    · exact h.yieldKthread ‹_› hnext
    · cases hnext
  | finishYield k =>
    simp only [stackNext] at hnext
    split_ifs at hnext with hpc
    exact h.finishYield hpc hnext
  | park k | unpark k | yieldPark k =>
    obtain ⟨hpc, rfl⟩ := guarded hnext
    have hself := h.pcOk k
    simp only [PcOk, hpc] at hself
    exact h.setPc (by rw [hpc]; rfl) rfl (by simpa [PcOk] using hself)
  | yieldReturn k =>
    obtain ⟨hpc, rfl⟩ := guarded hnext
    have hself := h.pcOk k
    rcases hpc with hpc | hpc
    all_goals
      simp only [PcOk, hpc] at hself
      exact h.setPc (by rw [hpc]; rfl) rfl (by simpa [PcOk] using hself)

/-- A step that enters a thread comes from a kthread that has claimed it and
has seen its flag clear. -/
theorem enters_claims {a : StackAct κ τ} (hnext : stackNext s a = some t)
    (henters : s.enters a = some th) :
    ∃ k, s.claims k = some th ∧ s.stackBusy th = false ∧
      s.pc k ≠ .running th := by
  cases a with
  | directJump k =>
    simp only [StackState.enters] at henters
    split at henters <;> cases henters
    rename_i hpc
    have hok := h.pcOk k
    simp only [PcOk, hpc] at hok
    exact ⟨k, by simp [hpc], hok.2.2.2.2.1, by simp [hpc]⟩
  | jump k =>
    simp only [StackState.enters] at henters
    split at henters <;> cases henters
    rename_i hpc
    simp only [stackNext, hpc] at hnext
    split_ifs at hnext with hfree
    exact ⟨k, by simp [hpc], hfree, by simp [hpc]⟩
  | _ => simp [StackState.enters] at henters

end

end StackInv

theorem onStack_holds (hk : s.onStack k = some th) : s.holds k = some th := by
  rw [StackState.holds, hk]
  rfl

variable [DecidableEq κ] [DecidableEq τ]

/-- In every run whose steps all meet `stackOk`: no two kthreads execute on the
stack of one thread, and a step that enters a thread finds the frame the thread
last had saved and nobody on its stack. -/
theorem stack_exclusive (hs : (stackSystem κ τ).Reach stackOk s) :
    (∀ k l th, s.onStack k = some th → s.onStack l = some th → k = l) ∧
    ∀ a t th, stackNext s a = some t → s.enters a = some th →
      s.saved th = true ∧ ∀ k, s.onStack k ≠ some th := by
  have hinv : StackInv s :=
    hs.invariant (fun _ hinit => .init hinit)
      fun _ _ _ hinv hok hnext => hinv.next hok hnext
  refine ⟨fun k l th hk hl => ?_, fun a t th hnext henters => ?_⟩
  · exact hinv.holds_inj k l th (onStack_holds hk) (onStack_holds hl)
  · obtain ⟨k, hclaims, hfree, hwait⟩ := hinv.enters_claims hnext henters
    have hheld := hinv.not_held hclaims hfree hwait
    exact ⟨(hinv.free th hheld).2, fun l hl => hheld l (onStack_holds hl)⟩

def allAsleep : StackState Nat Nat where
  state _ := .sleeping
  stackBusy _ := false
  visible _ := true
  saved _ := true
  queue _ := []
  pc _ := .scanning
  self _ := none

theorem allAsleep_start : stackStart allAsleep :=
  ⟨fun _ => ⟨rfl, rfl⟩, fun _ => rfl, fun _ => ⟨rfl, rfl, rfl⟩⟩

/-- Kthread 0 runs thread 0 until it parks. Kthread 1 has already been handed
the thread when kthread 0 saves its frame. -/
def handedOnRun : List (StackAct Nat Nat) :=
  [.ready 0 0, .pop 0 0, .jump 0, .mark 0, .publish 0, .ready 1 0, .pop 1 0,
    .jmpRuntime 0]

theorem handedOnRun_isSome :
    ((stackSystem Nat Nat).exec allAsleep handedOnRun).isSome := by
  decide

def handedOn : StackState Nat Nat :=
  ((stackSystem Nat Nat).exec allAsleep handedOnRun).get
    handedOnRun_isSome

/-- Kthread 0 lets go of the stack in `schedule()`, and kthread 1 can enter. -/
theorem stack_exclusive_handed_on :
    stackNext handedOn (.jump 1) = none ∧
      (stackSystem Nat Nat).Reach stackOk (handedOn.schedule 0) ∧
      (handedOn.schedule 0).enters (.jump 1) = some 0 ∧
      (handedOn.schedule 0).saved 0 = true ∧
      ∀ k, (handedOn.schedule 0).onStack k ≠ some 0 := by
  have hreach : (stackSystem Nat Nat).Reach stackOk handedOn := by
    apply System.Reach.exec_of (.init allAsleep_start) handedOnRun
    · simp [handedOnRun, stackOk]
    · exact (Option.some_get handedOnRun_isSome).symm
  have hok : stackOk handedOn (.schedule 0) := fun hpc => absurd hpc (by decide)
  have hs := hreach.step hok (t := handedOn.schedule 0) rfl
  exact ⟨by rfl, hs, rfl, (stack_exclusive hs).2 (.jump 1) _ 0 rfl rfl⟩

/-- Kthread 0 runs thread 0, is preempted in it, makes it runnable and parks
with `__self` still set. Kthread 1 steals the thread and runs it until it parks
itself; it is published, and kthread 1 is still on its stack. Kthread 2 is woken
for it and waits for `stack_busy`. Now kthread 0 returns from the park. -/
def staleSelfRun : List (StackAct Nat Nat) :=
  [.ready 0 0, .pop 0 0, .jump 0, .yieldKthread 0, .finishYield 0,
    .yieldPark 0, .steal 1 0 0, .pop 1 0, .jump 1, .mark 1, .publish 1,
    .ready 2 0, .pop 2 0, .yieldReturn 0, .schedule 0]

theorem staleSelfRun_isSome :
    ((stackSystem Nat Nat).exec allAsleep staleSelfRun).isSome := by
  decide

def staleSelfEnd : StackState Nat Nat :=
  ((stackSystem Nat Nat).exec allAsleep staleSelfRun).get
    staleSelfRun_isSome

theorem staleSelfEnd_jump : (stackNext staleSelfEnd (.jump 2)).isSome := by
  decide

/-- The store of `schedule()` on kthread 0 lets kthread 2 into the thread while
its frame is not saved, and two kthreads execute on one stack. -/
theorem stack_shared_after_yield :
    ∃ s t : StackState Nat Nat,
      (stackSystem Nat Nat).Reach anyStep s ∧
      stackNext s (.jump 2) = some t ∧
      s.enters (.jump 2) = some 0 ∧ s.saved 0 = false ∧
      t.onStack 1 = some 0 ∧ t.onStack 2 = some 0 := by
  have hs := System.Reach.exec (.init allAsleep_start) staleSelfRun
    (Option.some_get staleSelfRun_isSome).symm
  exact ⟨staleSelfEnd, _, hs, (Option.some_get staleSelfEnd_jump).symm,
    by decide, by decide, by decide, by decide⟩

end Libut.Runtime
