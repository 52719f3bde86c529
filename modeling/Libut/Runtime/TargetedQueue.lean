import Libut.Runtime.SchedQueues

/-!
The queue of targeted threads of one kthread (`rrq`). Other kthreads push into
it in `thread_throw`, under the kthread's lock. The kthread itself pops, in
`schedule` under the lock and in `enter_schedule` without it, and resets both
counters when `schedule` finds the queue empty.

Every access to the queue is a step of its own where the other side can come in
between. The counters are free-running 32-bit numbers and the queue has seven
slots; since seven does not divide `2 ^ 32`, the slots are not used in turn
where the counters wrap.
-/

namespace Libut.Runtime

open Machine

variable {τ : Type}

inductive RrqLock
  | free
  | pusher
  | owner
  deriving DecidableEq, Repr

inductive ThrowPc (τ : Type)
  | idle
  /-- The lock is held; the tests of `parked` and of the length are next. -/
  | check (th : τ)
  | store (th : τ)
  | publish (th : τ)
  | unlock
  deriving DecidableEq, Repr

inductive OwnerPc (τ : Type)
  | running
  /-- `enter_schedule` has seen `rrq_head != rrq_tail`. -/
  | peeked
  | loaded (th : τ)
  /-- `enter_schedule` takes the lock next. -/
  | locking
  | locked
  | schedule
  /-- `thread_finish_yield_kthread` holds the lock and parks next. -/
  | yielding
  | parked
  deriving DecidableEq, Repr

def OwnerPc.holds : OwnerPc τ → Bool
  | .running | .peeked | .loaded _ | .locking | .parked => false
  | .locked | .schedule | .yielding => true

/-- `pushed` and `popped` list what has gone through the queue. -/
structure RrqState (τ : Type) where
  rrq : Ring 32 τ
  lock : RrqLock
  /-- `detached` or `parked`, which `thread_throw` tests together -/
  parked : Bool
  throwing : ThrowPc τ
  owner : OwnerPc τ
  pushed : List τ
  popped : List τ

inductive ThrowAct (τ : Type)
  /-- `spin_try_lock_np` in `thread_throw` succeeds. -/
  | tryLock (th : τ)
  | check
  | store
  | publish
  | unlock
  deriving DecidableEq, Repr

inductive OwnerAct
  | enterSchedule
  | load
  | take (stackBusy : Bool)
  | lock
  /-- The slow path of `enter_schedule` calls `schedule`. -/
  | slow
  /-- `enter_schedule` runs the next thread of the run queue. -/
  | fast
  /-- `schedule` at `again`. -/
  | again
  /-- `schedule` has found a thread elsewhere. -/
  | found
  | yieldKthread
  | noPark
  | park
  | unpark
  deriving DecidableEq, Repr

inductive RrqAct (τ : Type)
  | throwing (a : ThrowAct τ)
  | owner (a : OwnerAct)
  deriving DecidableEq, Repr

def RrqState.throwStep (s : RrqState τ) : ThrowAct τ → Option (RrqState τ)
  | .tryLock th =>
    if s.lock = .free then
      some { s with lock := .pusher, throwing := .check th }
    else none
  | .check =>
    match s.throwing with
    | .check th =>
      -- a parked kthread and a full queue are served elsewhere
      if s.parked then some { s with throwing := .unlock }
      else if runtimeRrqSize ≤ s.rrq.length then
        some { s with throwing := .unlock }
      else some { s with throwing := .store th }
    | _ => none
  | .store =>
    match s.throwing with
    | .store th =>
      some { s with
        rrq := s.rrq.store runtimeRrqSize th
        throwing := .publish th }
    | _ => none
  | .publish =>
    match s.throwing with
    | .publish th =>
      some { s with
        rrq := s.rrq.publish
        pushed := s.pushed ++ [th]
        throwing := .unlock }
    | _ => none
  | .unlock =>
    match s.throwing with
    | .unlock => some { s with lock := .free, throwing := .idle }
    | _ => none

/-- `th = rrq[rrq_tail++ % RUNTIME_RRQ_SIZE]`, with `th` loaded before. -/
def RrqState.pop (s : RrqState τ) (th : τ) : RrqState τ :=
  { s with rrq := s.rrq.drop 1, popped := s.popped ++ [th] }

def RrqState.ownerStep (s : RrqState τ) : OwnerAct → Option (RrqState τ)
  | .enterSchedule =>
    match s.owner with
    | .running =>
      some { s with
        owner :=
          if s.rrq.head ≠ s.rrq.tail then .peeked else .locking }
    | _ => none
  | .load =>
    match s.owner with
    | .peeked =>
      some { s with owner := .loaded (s.rrq.front runtimeRrqSize) }
    | _ => none
  | .take stackBusy =>
    match s.owner with
    | .loaded th =>
      if stackBusy then some { s with owner := .locking }
      else some { s.pop th with owner := .running }
    | _ => none
  | .lock =>
    match s.owner with
    | .locking =>
      if s.lock = .free then
        some { s with lock := .owner, owner := .locked }
      else none
    | _ => none
  | .slow =>
    match s.owner with
    | .locked => some { s with owner := .schedule }
    | _ => none
  | .fast =>
    match s.owner with
    | .locked =>
      if s.rrq.head = s.rrq.tail then
        some { s with lock := .free, owner := .running }
      else none
    | _ => none
  | .again =>
    match s.owner with
    | .schedule =>
      if s.rrq.head ≠ s.rrq.tail then
        some { s.pop (s.rrq.front runtimeRrqSize) with
          lock := .free, owner := .running }
      else some { s with rrq := s.rrq.reset }
    | _ => none
  | .found =>
    match s.owner with
    | .schedule => some { s with lock := .free, owner := .running }
    | _ => none
  | .yieldKthread =>
    match s.owner with
    | .running =>
      if s.lock = .free then
        some { s with lock := .owner, owner := .yielding }
      else none
    | _ => none
  | .noPark =>
    match s.owner with
    | .yielding => some { s with owner := .schedule }
    | _ => none
  | .park =>
    match s.owner with
    | .yielding | .schedule =>
      some { s with lock := .free, parked := true, owner := .parked }
    | _ => none
  | .unpark =>
    match s.owner with
    | .parked =>
      if s.lock = .free then
        some { s with lock := .owner, parked := false, owner := .schedule }
      else none
    | _ => none

def rrqSystem (τ : Type) : System (RrqState τ) (RrqAct τ) where
  init s :=
    s.rrq.head = 0 ∧ s.rrq.tail = 0 ∧ s.lock = .free ∧ s.parked = false ∧
    s.throwing = .idle ∧ s.owner = .running ∧ s.pushed = [] ∧ s.popped = []
  next s
    | .throwing a => s.throwStep a
    | .owner a => s.ownerStep a

def RrqState.waiting (s : RrqState τ) : List τ := s.rrq.window runtimeRrqSize

/-- The stores that do not come upon a slot in use: `rrq_head` is at least
`2 ^ 32 % 7 = 4`, or fewer than four threads are waiting. -/
def storeOk (s : RrqState τ) : RrqAct τ → Prop
  | .throwing .store => 4 ≤ s.rrq.head.toNat ∨ s.rrq.length < 4
  | _ => True

instance (s : RrqState τ) (a : RrqAct τ) : Decidable (storeOk s a) :=
  match a with
  | .throwing .store => inferInstanceAs (Decidable (_ ∨ _))
  | .throwing (.tryLock _) => isTrue trivial
  | .throwing .check => isTrue trivial
  | .throwing .publish => isTrue trivial
  | .throwing .unlock => isTrue trivial
  | .owner _ => isTrue trivial

/-- The condition is exact: it holds where the slot of the next push is free. -/
theorem rrq_free_iff {r : Ring 32 τ} (hlen : r.length < runtimeRrqSize) :
    r.Free runtimeRrqSize ↔ 4 ≤ r.head.toNat ∨ r.length < 4 :=
  Ring.free_iff hlen

section Invariant

variable {s t : RrqState τ}

def RrqState.ThrowOk (s : RrqState τ) : Prop :=
  match s.throwing with
  | .idle | .check _ | .unlock => True
  | .store _ => s.rrq.length < runtimeRrqSize
  | .publish th => s.rrq.length < runtimeRrqSize ∧
      s.rrq.Free runtimeRrqSize ∧
      s.rrq.slots (s.rrq.head.toNat % runtimeRrqSize) = th

def RrqState.OwnerOk (s : RrqState τ) : Prop :=
  match s.owner with
  | .peeked => s.rrq.head ≠ s.rrq.tail
  | .loaded th => s.rrq.head ≠ s.rrq.tail ∧
      s.rrq.front runtimeRrqSize = th
  | .running | .locking | .locked | .schedule | .yielding | .parked => True

structure RrqInv (s : RrqState τ) : Prop where
  order : s.popped ++ s.waiting = s.pushed
  bound : s.rrq.length ≤ runtimeRrqSize
  pusher : s.throwing ≠ .idle → s.lock = .pusher
  holder : s.owner.holds = true → s.lock = .owner
  throwOk : s.ThrowOk
  ownerOk : s.OwnerOk

theorem rrqInv_init (hs : (rrqSystem τ).init s) : RrqInv s := by
  obtain ⟨hhead, htail, _, _, hthrowing, howner, hpushed, hpopped⟩ := hs
  have heq : s.rrq.head = s.rrq.tail := hhead.trans htail.symm
  constructor
  · rw [hpushed, hpopped, RrqState.waiting, Ring.window_eq_nil_iff.mpr heq]
    rfl
  · rw [Ring.length_eq_zero_iff.mpr heq]
    exact Nat.zero_le _
  · exact fun h => absurd hthrowing h
  · rw [howner]
    nofun
  · simp [RrqState.ThrowOk, hthrowing]
  · simp [RrqState.OwnerOk, howner]

section

variable (h : RrqInv s)
include h

theorem RrqInv.setOwner {lock : RrqLock} {parked : Bool}
    {owner : OwnerPc τ}
    (hpusher : s.throwing ≠ .idle → lock = .pusher)
    (hholder : owner.holds = true → lock = .owner)
    (howner : ({ s with lock := lock, parked := parked, owner := owner }
      : RrqState τ).OwnerOk) :
    RrqInv { s with lock := lock, parked := parked, owner := owner } :=
  ⟨h.order, h.bound, hpusher, hholder, h.throwOk, howner⟩

theorem RrqInv.setThrowing {lock : RrqLock}
    {throwing : ThrowPc τ} (hpusher : throwing ≠ .idle → lock = .pusher)
    (hholder : s.owner.holds = true → lock = .owner)
    (hthrow : ({ s with lock := lock, throwing := throwing }
      : RrqState τ).ThrowOk) :
    RrqInv { s with lock := lock, throwing := throwing } :=
  ⟨h.order, h.bound, hpusher, hholder, hthrow, h.ownerOk⟩

theorem RrqInv.idle_of_holds (hholds : s.owner.holds = true) :
    s.throwing = .idle := by
  by_contra hpush
  have hlock := (h.pusher hpush).symm.trans (h.holder hholds)
  cases hlock

theorem RrqInv.not_holds (hpush : s.throwing ≠ .idle) :
    s.owner.holds ≠ true := fun hholds => hpush (h.idle_of_holds hholds)

theorem RrqInv.store {th : τ} (hpc : s.throwing = .store th)
    (hok : 4 ≤ s.rrq.head.toNat ∨ s.rrq.length < 4) :
    RrqInv { s with
      rrq := s.rrq.store runtimeRrqSize th, throwing := .publish th } := by
  have hroom : s.rrq.length < runtimeRrqSize := by
    have hthrow := h.throwOk
    simpa only [RrqState.ThrowOk, hpc] using hthrow
  have hfree : s.rrq.Free runtimeRrqSize := (rrq_free_iff hroom).mpr hok
  constructor
  · change s.popped ++ (s.rrq.store runtimeRrqSize th).window _ = _
    rw [Ring.window_store th hfree]
    exact h.order
  · exact h.bound
  · exact fun _ => h.pusher (by rw [hpc]; nofun)
  · exact h.holder
  · exact ⟨hroom, hfree, Function.update_self ..⟩
  · have howner := h.ownerOk
    unfold RrqState.OwnerOk at howner ⊢
    dsimp only
    cases hown : s.owner with
    | loaded th' =>
      simp only [hown] at howner ⊢
      exact ⟨howner.1, (Ring.front_store th hfree howner.1).trans howner.2⟩
    | peeked =>
      simp only [hown] at howner ⊢
      exact howner
    | running | locking | locked | schedule | yielding | parked => trivial

theorem RrqInv.publish {th : τ}
    (hpc : s.throwing = .publish th) :
    RrqInv { s with
      rrq := s.rrq.publish, pushed := s.pushed ++ [th]
      throwing := .unlock } := by
  have hthrow := h.throwOk
  simp only [RrqState.ThrowOk, hpc] at hthrow
  obtain ⟨hroom, hfree, hslot⟩ := hthrow
  have hlen : s.rrq.length + 1 < 2 ^ 32 := by
    simp only [runtimeRrqSize] at hroom
    omega
  have hlength := Ring.length_publish hlen
  have hne : s.rrq.publish.head ≠ s.rrq.publish.tail := by
    intro heq
    have hzero := Ring.length_eq_zero_iff.mpr heq
    omega
  constructor
  · change s.popped ++ s.rrq.publish.window _ = s.pushed ++ [th]
    rw [Ring.window_publish hlen, hslot, ← List.append_assoc]
    exact congrArg (· ++ [th]) h.order
  · change s.rrq.publish.length ≤ _
    rw [hlength]
    exact hroom
  · exact fun _ => h.pusher (by rw [hpc]; nofun)
  · exact h.holder
  · trivial
  · have howner := h.ownerOk
    unfold RrqState.OwnerOk at howner ⊢
    dsimp only
    cases hown : s.owner with
    | loaded th' =>
      simp only [hown] at howner ⊢
      exact ⟨hne, howner.2⟩
    | peeked => exact hne
    | running | locking | locked | schedule | yielding | parked => trivial

theorem RrqInv.pop {lock : RrqLock}
    (hne : s.rrq.head ≠ s.rrq.tail)
    (hpusher : s.throwing ≠ .idle → lock = .pusher) :
    RrqInv { s.pop (s.rrq.front runtimeRrqSize) with
      lock := lock, owner := .running } := by
  have hpos : 0 < s.rrq.length :=
    Nat.pos_iff_ne_zero.mpr fun hzero =>
      hne (Ring.length_eq_zero_iff.mp hzero)
  have hone : (1 : BitVec 32).toNat ≤ s.rrq.length := hpos
  have hlength := Ring.length_drop hone
  have hwindow := Ring.window_eq_front_cons hne (n := runtimeRrqSize)
  have hless : (s.rrq.drop 1).length ≤ s.rrq.length := by omega
  constructor
  · have horder := h.order
    change (s.popped ++ [_]) ++ (s.rrq.drop 1).window _ = _
    rw [RrqState.waiting, hwindow] at horder
    rw [List.append_assoc, List.singleton_append]
    exact horder
  · exact hless.trans h.bound
  · exact hpusher
  · nofun
  · have hthrow := h.throwOk
    unfold RrqState.ThrowOk at hthrow ⊢
    change match s.throwing with
      | .idle | .check _ | .unlock => True
      | .store _ => (s.rrq.drop 1).length < runtimeRrqSize
      | .publish th => (s.rrq.drop 1).length < runtimeRrqSize ∧
          (s.rrq.drop 1).Free runtimeRrqSize ∧
          s.rrq.slots (s.rrq.head.toNat % runtimeRrqSize) = th
    cases hpc : s.throwing with
    | idle | check _ | unlock => trivial
    | store th =>
      simp only [hpc] at hthrow
      exact hless.trans_lt hthrow
    | publish th =>
      simp only [hpc] at hthrow
      obtain ⟨hroom, hfree, hslot⟩ := hthrow
      exact ⟨hless.trans_lt hroom, hfree.drop hone, hslot⟩
  · trivial

theorem RrqInv.reset (hpc : s.owner = .schedule)
    (hempty : s.rrq.head = s.rrq.tail) :
    RrqInv { s with rrq := s.rrq.reset } := by
  have hidle : s.throwing = .idle := h.idle_of_holds (by rw [hpc]; rfl)
  constructor
  · have horder := h.order
    rw [RrqState.waiting, Ring.window_eq_nil_iff.mpr hempty] at horder
    rw [RrqState.waiting, Ring.window_reset]
    exact horder
  · change s.rrq.reset.length ≤ _
    rw [Ring.length_reset]
    exact Nat.zero_le _
  · exact h.pusher
  · exact h.holder
  · simp [RrqState.ThrowOk, hidle]
  · simp [RrqState.OwnerOk, hpc]

theorem RrqInv.throwStep {a : ThrowAct τ} (hok : storeOk s (.throwing a))
    (hnext : s.throwStep a = some t) : RrqInv t := by
  cases a with
  | tryLock th =>
    obtain ⟨hfree, rfl⟩ := guarded hnext
    have hnot : s.owner.holds = true → RrqLock.pusher = .owner := by
      intro hholds
      rw [h.holder hholds] at hfree
      cases hfree
    exact h.setThrowing (fun _ => rfl) hnot trivial
  | check =>
    simp only [RrqState.throwStep] at hnext
    split at hnext
    · rename_i th hpc
      have hlock : s.lock = .pusher := h.pusher (by rw [hpc]; nofun)
      split_ifs at hnext with hparked hroom <;> cases hnext
      · exact h.setThrowing (fun _ => hlock) h.holder trivial
      · exact h.setThrowing (fun _ => hlock) h.holder trivial
      · exact h.setThrowing (fun _ => hlock) h.holder (not_le.mp hroom)
    · cases hnext
  | store =>
    simp only [RrqState.throwStep] at hnext
    split at hnext <;> cases hnext
    exact h.store ‹_› hok
  | publish =>
    simp only [RrqState.throwStep] at hnext
    split at hnext <;> cases hnext
    exact h.publish ‹_›
  | unlock =>
    simp only [RrqState.throwStep] at hnext
    split at hnext <;> cases hnext
    rename_i hpc
    have hnot := h.not_holds (by rw [hpc]; nofun)
    exact h.setThrowing (fun hidle => absurd rfl hidle)
      (fun hholds => absurd hholds hnot) trivial

theorem RrqInv.takeLock (hfree : s.lock = .free)
    {parked : Bool} {owner : OwnerPc τ}
    (howner : ({ s with lock := .owner, parked := parked, owner := owner }
      : RrqState τ).OwnerOk) :
    RrqInv { s with lock := .owner, parked := parked, owner := owner } := by
  apply h.setOwner _ (fun _ => rfl) howner
  intro hpush
  rw [h.pusher hpush] at hfree
  cases hfree

theorem RrqInv.releaseLock (hholds : s.owner.holds = true)
    {parked : Bool} {owner : OwnerPc τ} (hout : owner.holds = false)
    (howner : ({ s with lock := .free, parked := parked, owner := owner }
      : RrqState τ).OwnerOk) :
    RrqInv { s with lock := .free, parked := parked, owner := owner } := by
  apply h.setOwner _ _ howner
  · exact fun hpush => absurd (h.idle_of_holds hholds) hpush
  · rw [hout]
    nofun

theorem RrqInv.ownerStep {a : OwnerAct} (hnext : s.ownerStep a = some t) :
    RrqInv t := by
  cases a with
  | enterSchedule =>
    simp only [RrqState.ownerStep] at hnext
    split at hnext <;> cases hnext
    split
    · exact h.setOwner h.pusher nofun ‹_›
    · exact h.setOwner h.pusher nofun trivial
  | load =>
    simp only [RrqState.ownerStep] at hnext
    split at hnext <;> cases hnext
    rename_i hpc
    have hseen := h.ownerOk
    simp only [RrqState.OwnerOk, hpc] at hseen
    exact h.setOwner h.pusher nofun ⟨hseen, rfl⟩
  | take stackBusy =>
    simp only [RrqState.ownerStep] at hnext
    split at hnext
    · rename_i th hpc
      have hseen := h.ownerOk
      simp only [RrqState.OwnerOk, hpc] at hseen
      obtain ⟨hne, rfl⟩ := hseen
      split at hnext <;> cases hnext
      · exact h.setOwner h.pusher nofun trivial
      · exact h.pop hne h.pusher
    · cases hnext
  | lock | yieldKthread | unpark =>
    simp only [RrqState.ownerStep] at hnext
    split at hnext
    · obtain ⟨hfree, rfl⟩ := guarded hnext
      exact h.takeLock hfree trivial
    · cases hnext
  | slow | noPark =>
    simp only [RrqState.ownerStep] at hnext
    split at hnext <;> cases hnext
    rename_i hpc
    exact h.setOwner h.pusher (fun _ => h.holder (by rw [hpc]; rfl)) trivial
  | fast =>
    simp only [RrqState.ownerStep] at hnext
    split at hnext
    · rename_i hpc
      obtain ⟨-, rfl⟩ := guarded hnext
      exact h.releaseLock (by rw [hpc]; rfl) rfl trivial
    · cases hnext
  | again =>
    simp only [RrqState.ownerStep] at hnext
    split at hnext
    · rename_i hpc
      have hidle : s.throwing = .idle := h.idle_of_holds (by rw [hpc]; rfl)
      split at hnext <;> cases hnext
      · exact h.pop ‹_› fun hpush => absurd hidle hpush
      · exact h.reset hpc (not_not.mp ‹_›)
    · cases hnext
  | found =>
    simp only [RrqState.ownerStep] at hnext
    split at hnext <;> cases hnext
    rename_i hpc
    exact h.releaseLock (by rw [hpc]; rfl) rfl trivial
  | park =>
    simp only [RrqState.ownerStep] at hnext
    split at hnext <;> cases hnext
    all_goals
      rename_i hpc
      exact h.releaseLock (by rw [hpc]; rfl) rfl trivial

end

theorem rrqInv_reach (hs : (rrqSystem τ).Reach storeOk s) : RrqInv s := by
  apply hs.invariant fun _ hinit => rrqInv_init hinit
  intro s a t hinv hok hnext
  cases a with
  | throwing a => exact hinv.throwStep hok hnext
  | owner a => exact hinv.ownerStep hnext

end Invariant

/-- The queue is a FIFO: what has been popped and what waits are together what
has been pushed, in order; and a push that is about to store into a slot, and
does not violate the condition there, comes upon no waiting thread. -/
structure RrqFifo (s : RrqState τ) : Prop where
  order : s.popped ++ s.waiting = s.pushed
  bound : s.waiting.length ≤ runtimeRrqSize
  kept : ∀ th, s.throwing = .store th → storeOk s (.throwing .store) →
    s.rrq.Free runtimeRrqSize

/-- Along every run whose stores all meet `storeOk`, over any number of wraps
of the counters, the queue of targeted threads is a FIFO. -/
theorem targeted_queue_fifo {s : RrqState τ}
    (hs : (rrqSystem τ).Reach storeOk s) : RrqFifo s := by
  have hinv := rrqInv_reach hs
  constructor
  · exact hinv.order
  · rw [RrqState.waiting, Ring.window_length]
    exact hinv.bound
  · intro th hpc hok
    have hroom := hinv.throwOk
    simp only [RrqState.ThrowOk, hpc] at hroom
    exact (rrq_free_iff hroom).mpr hok

section Alone

variable {s : RrqState τ}

/-- One complete `thread_throw` with nobody in between. -/
def throwRun (th : τ) : List (RrqAct τ) :=
  [.throwing (.tryLock th), .throwing .check, .throwing .store,
    .throwing .publish, .throwing .unlock]

def popRun (τ : Type) : List (RrqAct τ) :=
  [.owner .enterSchedule, .owner .load, .owner (.take false)]

theorem throwRun_exec (hlock : s.lock = .free) (hparked : s.parked = false)
    (hroom : s.rrq.length < runtimeRrqSize) (th : τ) :
    (rrqSystem τ).exec s (throwRun th) =
      some { s with
        rrq := s.rrq.push runtimeRrqSize th, lock := .free, throwing := .idle
        pushed := s.pushed ++ [th] } := by
  have hnot : ¬ runtimeRrqSize ≤ s.rrq.length := not_le.mpr hroom
  simp only [throwRun, System.exec, rrqSystem, RrqState.throwStep, hlock,
    hparked, hnot, if_true, if_false, Bool.false_eq_true, Option.bind_some]
  rfl

theorem popRun_exec (howner : s.owner = .running)
    (hne : s.rrq.head ≠ s.rrq.tail) :
    (rrqSystem τ).exec s (popRun τ) =
      some { s.pop (s.rrq.front runtimeRrqSize) with owner := .running } := by
  simp only [popRun, System.exec, rrqSystem, RrqState.ownerStep, howner,
    if_pos hne, Option.bind_some]
  rfl

/-- Taken together, the steps of a push are the push of the scheduler model. -/
theorem throwRun_threadThrow {k : KThread τ} (hrrq : s.rrq = k.rrq)
    (hlock : s.lock = .free) (hparked : s.parked = false)
    (hroom : k.rrq.length < runtimeRrqSize) (th : τ) :
    ∃ t, (rrqSystem τ).exec s (throwRun th) = some t ∧
      t.rrq = (threadThrowLocked k th).rrq := by
  refine ⟨_, throwRun_exec hlock hparked (hrrq ▸ hroom) th, ?_⟩
  rw [threadThrowLocked, if_neg (not_le.mpr hroom), hrrq]

/-- Taken together, the steps of a pop are the one of `enter_schedule` in the
scheduler model. -/
theorem popRun_enterSchedule {k : KThread τ} {watchdog : Bool}
    (hrrq : s.rrq = k.rrq) (howner : s.owner = .running)
    (hne : k.rrq.head ≠ k.rrq.tail) :
    ∃ t th, (rrqSystem τ).exec s (popRun τ) = some t ∧
      t.rrq = (enterSchedule k false watchdog).1.rrq ∧
      (enterSchedule k false watchdog).2 = .rrq th ∧
      t.popped = s.popped ++ [th] := by
  have henter : enterSchedule k false watchdog =
      ({ k with rrq := k.rrq.drop 1 }, .rrq (k.rrq.front runtimeRrqSize)) :=
    if_pos ⟨hne, rfl⟩
  refine ⟨_, k.rrq.front runtimeRrqSize, popRun_exec howner (hrrq ▸ hne), ?_⟩
  rw [henter, ← hrrq]
  exact ⟨rfl, rfl, rfl⟩

end Alone

section Runs

/-- An empty queue with both counters at `n`, after the threads `passed` have
gone through it. -/
def rrqLevel (n : BitVec 32) (passed : List Nat) : RrqState Nat where
  rrq := ⟨fun _ => 0, n, n⟩
  lock := .free
  parked := false
  throwing := .idle
  owner := .running
  pushed := passed
  popped := passed

theorem rrqLevel_init : (rrqSystem Nat).init (rrqLevel 0 []) :=
  ⟨rfl, rfl, rfl, rfl, rfl, rfl, rfl, rfl⟩

theorem rrqLevel_round {n : BitVec 32} {passed : List Nat}
    (hs : (rrqSystem Nat).Reach anyStep (rrqLevel n passed)) :
    (rrqSystem Nat).Reach anyStep
      (rrqLevel (n + 1) (passed ++ [0])) := by
  have hroom : (rrqLevel n passed).rrq.length < runtimeRrqSize := by
    rw [Ring.length_eq_zero_iff.mpr rfl]
    decide
  have hpush := hs.exec _ (throwRun_exec rfl rfl hroom 0)
  have hne : n + 1 ≠ n := by bv_omega
  have hpop := hpush.exec _ (popRun_exec rfl hne)
  have hsame (i : Nat) :
      Function.update (fun _ : Nat => (0 : Nat)) i 0 = fun _ => 0 :=
    Function.update_eq_self i fun _ => 0
  simpa only [RrqState.pop, Ring.push, Ring.drop, Ring.front, rrqLevel, hsame]
    using hpop

theorem rrqLevel_reach (n : Nat) :
    (rrqSystem Nat).Reach anyStep
      (rrqLevel (BitVec.ofNat 32 n) (List.replicate n 0)) := by
  induction n with
  | zero => exact .init rrqLevel_init
  | succ n ih =>
    rw [List.replicate_succ', BitVec.ofNat_add]
    exact rrqLevel_round ih

/-- Thread 1 is thrown while the owner is about to take thread 0. -/
def crossingRun : List (RrqAct Nat) :=
  throwRun 0 ++ [.owner .enterSchedule, .owner .load,
    .throwing (.tryLock 1), .throwing .check, .throwing .store,
    .owner (.take false), .throwing .publish, .throwing .unlock]

theorem crossingRun_isSome :
    (((rrqSystem Nat).restrict fun s a => decide (storeOk s a)).exec
      (rrqLevel 0 []) crossingRun).isSome := by
  with_unfolding_all decide

def crossing : RrqState Nat :=
  (((rrqSystem Nat).restrict fun s a => decide (storeOk s a)).exec
    (rrqLevel 0 []) crossingRun).get crossingRun_isSome

theorem targeted_queue_fifo_crossing :
    (rrqSystem Nat).Reach storeOk crossing ∧ crossing.popped = [0] ∧
      crossing.waiting = [1] ∧ RrqFifo crossing := by
  have hs : (rrqSystem Nat).Reach storeOk crossing :=
    .of_checked rrqLevel_init (Option.some_get crossingRun_isSome).symm
  exact ⟨hs, by with_unfolding_all decide, by with_unfolding_all decide,
    targeted_queue_fifo hs⟩

/-- The ring after thread 0 has been pushed `i` times into an empty queue with
both counters at `2 ^ 32 - 4`. -/
def wrapRing : Nat → Ring 32 Nat
  | 0 => ⟨fun _ => 0, 0xfffffffc, 0xfffffffc⟩
  | i + 1 => (wrapRing i).push runtimeRrqSize 0

def atWrap (passed : List Nat) (i : Nat) : RrqState Nat :=
  { rrqLevel 0 passed with
    rrq := wrapRing i, pushed := passed ++ List.replicate i 0 }

theorem wrapRing_room : ∀ i ≤ 4, (wrapRing i).length < runtimeRrqSize := by
  decide

theorem atWrap_reach {passed : List Nat}
    (hs : (rrqSystem Nat).Reach anyStep (rrqLevel 0xfffffffc passed))
    {i : Nat} (hi : i ≤ 4) :
    (rrqSystem Nat).Reach anyStep (atWrap passed i) := by
  induction i with
  | zero =>
    rw [atWrap, List.replicate_zero, List.append_nil]
    exact hs
  | succ i ih =>
    have hroom : (atWrap passed i).rrq.length < runtimeRrqSize :=
      wrapRing_room i (by omega)
    rw [atWrap, List.replicate_succ', ← List.append_assoc]
    exact (ih (by omega)).exec _ (throwRun_exec rfl rfl hroom 0)

/-- After `2 ^ 32 - 4` threads have been thrown and run one at a time, four
more are thrown and then a fifth: the counters have wrapped, and the fifth goes
to slot 0, where the first of the four still waits. That one is lost, and the
fifth will be run in its place and once more at its own. -/
theorem push_overwrites_at_wrap :
    ∃ s : RrqState Nat, (rrqSystem Nat).Reach anyStep s ∧
      s.pushed = s.popped ++ [0, 0, 0, 0, 1] ∧
      s.waiting = [1, 0, 0, 0, 1] ∧ ¬ RrqFifo s := by
  obtain ⟨passed, hs⟩ : ∃ passed,
      (rrqSystem Nat).Reach anyStep (rrqLevel 0xfffffffc passed) :=
    ⟨_, rrqLevel_reach 0xfffffffc⟩
  have hroom : (atWrap passed 4).rrq.length < runtimeRrqSize :=
    wrapRing_room 4 le_rfl
  have hfifth := (atWrap_reach hs le_rfl).exec _
    (throwRun_exec rfl rfl hroom 1)
  have hpushed : (passed ++ [0, 0, 0, 0]) ++ [1] =
      passed ++ [0, 0, 0, 0, 1] := List.append_assoc ..
  have hwaiting : ((wrapRing 4).push runtimeRrqSize 1).window
      runtimeRrqSize = [1, 0, 0, 0, 1] := by decide
  refine ⟨_, hfifth, hpushed, hwaiting, fun hfifo => ?_⟩
  have horder := hfifo.order.trans hpushed
  have hsame := List.append_cancel_left horder
  exact absurd (hwaiting.symm.trans hsame) (by decide)

end Runs

end Libut.Runtime
