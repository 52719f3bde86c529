import Mathlib.Data.List.Nodup
import Mathlib.Order.WellFounded
import Mathlib.Tactic
import Libut.Machine.System
import Libut.Runtime.Sched

/-!
Who waits for whose stack (`runtime/sched.c`).

A kthread that leaves a uthread through `jmp_thread_direct` waits for the
stack of the next one while the stack it is leaving is still marked busy, so
kthreads that leave each other's threads could wait in a circle. No code rules
this out by itself. What does is the order of two events: a kthread takes its
next thread from its own run queue, the run queue is filled only while the
kthread is not leaving anything, and so whatever is busy in it became busy
before the kthread began to leave. Threads that arrive later come through the
receive queue, where `enter_schedule` looks at `stack_busy` first, or through
the overflow list, which only `schedule()` drains.

Each kthread's queues are followed in their order; their sizes are left out,
and a push goes to the ring or to the overflow list as its label says.
`steal_work` moves one thread a step.
-/

namespace Libut.Runtime

open Function Machine

/-- Where a kthread is. The first thread named by `marked` to `schedule` is the
one the kthread is leaving. -/
inductive WaitPc (τ : Type)
  | running (th : τ)
  /-- `thread_park_and_unlock_np` before it drops the waiters' lock. -/
  | marked (myth : τ)
  /-- `thread_yield` before its `thread_throw`. -/
  | yielding (myth : τ)
  /-- `thread_swap` before its `thread_throw`. -/
  | swapping (myth th : τ)
  /-- In `enter_schedule(myth)`. -/
  | entering (myth : τ)
  /-- `jmp_thread_direct`, waiting for `newth->stack_busy`. -/
  | directWait (oldth newth : τ)
  /-- `__jmp_thread_direct`. -/
  | directJump (oldth newth : τ)
  /-- At the first line of `schedule()`, with `__self` still set. -/
  | schedule (self : τ)
  | scanning
  /-- `schedule()` after its pop. -/
  | popped (th : τ)
  /-- `jmp_thread`, waiting for `th->stack_busy`. -/
  | jumpWait (th : τ)
  deriving DecidableEq, Repr

inductive Slot (κ : Type)
  | rq (k : κ)
  | overflow (k : κ)
  | rrq (k : κ)
  deriving DecidableEq, Repr

/-- Where `thread_throw` puts a thread: on the caller's own kthread, as
`thread_ready` does and as it does for the caller's own number, or on another
one; `full` sends it to the overflow list. -/
inductive Route (κ : Type)
  | own (full : Bool)
  | other (r : κ) (full : Bool)
  deriving DecidableEq, Repr

def Route.slot {κ : Type} [DecidableEq κ] (k : κ) : Route κ → Slot κ
  | .own false => .rq k
  | .own true => .overflow k
  | .other r false => if r = k then .rq k else .rrq r
  | .other r true => .overflow r

/-- `visible th` says that a waker can find `th`. The last two fields are
history: how often a kthread began to leave a thread, and the number of the
last time for each kthread. -/
structure WaitState (κ τ : Type) where
  state : τ → ThreadState
  stackBusy : τ → Bool
  visible : τ → Bool
  queue : Slot κ → List τ
  pc : κ → WaitPc τ
  clock : ℕ
  left : κ → ℕ

inductive WaitAct (κ τ : Type)
  /-- `thread_park_and_unlock_np` sets `SLEEPING` and `stack_busy`. -/
  | mark (k : κ)
  /-- It drops the lock under which wakers look for the thread. -/
  | publish (k : κ)
  | yieldMark (k : κ)
  | yieldThrow (k : κ) (route : Route κ)
  /-- `thread_swap(th)` sets `SLEEPING` and `stack_busy` of the caller. -/
  | swapMark (k : κ) (th : τ)
  | swapThrow (k : κ) (route : Route κ)
  /-- `thread_ready` or `thread_throw` of a sleeping thread. -/
  | throw (k : κ) (th : τ) (route : Route κ)
  /-- `enter_schedule` takes the head of the receive queue. -/
  | popTargeted (k : κ)
  /-- `enter_schedule` takes the head of the run queue. -/
  | popDirect (k : κ)
  | directFree (k : κ)
  | directJump (k : κ)
  /-- `jmp_runtime(schedule)`. -/
  | jmpRuntime (k : κ)
  /-- The first statement of `schedule()`. -/
  | schedule (k : κ)
  | drainOverflow (k : κ)
  /-- `steal_work` takes the head of the run queue or of the overflow list. -/
  | stealWork (l r : κ) (overflow : Bool)
  /-- `schedule()` takes the head of the receive queue or of the run queue. -/
  | pop (k : κ) (targeted : Bool)
  /-- `jmp_thread`. -/
  | jmpThread (k : κ)
  | jump (k : κ)
  deriving DecidableEq, Repr

variable {κ τ : Type} [DecidableEq κ] [DecidableEq τ]

namespace WaitState

def goto (s : WaitState κ τ) (k : κ) (p : WaitPc τ) : WaitState κ τ :=
  { s with pc := update s.pc k p }

def push (s : WaitState κ τ) (slot : Slot κ) (th : τ) : WaitState κ τ :=
  { s with queue := update s.queue slot (s.queue slot ++ [th]) }

def setQueue (s : WaitState κ τ) (slot : Slot κ) (l : List τ) :
    WaitState κ τ :=
  { s with queue := update s.queue slot l }

def setState (s : WaitState κ τ) (th : τ) (x : ThreadState) :
    WaitState κ τ :=
  { s with state := update s.state th x }

def leave (s : WaitState κ τ) (k : κ) (myth : τ) (p : WaitPc τ) :
    WaitState κ τ :=
  { s.goto k p with
    state := update s.state myth .sleeping
    stackBusy := update s.stackBusy myth true
    clock := s.clock + 1
    left := update s.left k s.clock }

def release (s : WaitState κ τ) (k : κ) (oldth : τ) (p : WaitPc τ) :
    WaitState κ τ :=
  { s.goto k p with stackBusy := update s.stackBusy oldth false }

def throw (s : WaitState κ τ) (slot : Slot κ) (th : τ) : WaitState κ τ :=
  (s.setState th .runnable).push slot th

def hide (s : WaitState κ τ) (th : τ) : WaitState κ τ :=
  { s with visible := update s.visible th false }

def popTo (s : WaitState κ τ) (k : κ) (slot : Slot κ) (rest : List τ)
    (p : WaitPc τ) : WaitState κ τ :=
  (s.setQueue slot rest).goto k p

def moveTo (s : WaitState κ τ) (slot : Slot κ) (k : κ) :
    Option (WaitState κ τ) :=
  match s.queue slot with
  | [] => none
  | th :: rest => some ((s.setQueue slot rest).push (.rq k) th)

end WaitState

/-- Code that wakes threads runs in a thread or in `schedule()`. -/
def WaitPc.wakes : WaitPc τ → Bool
  | .running _ => true
  | .scanning => true
  | _ => false

/-- `drain_overflow` runs in `schedule()`, before or after the pop. -/
def WaitPc.drains : WaitPc τ → Bool
  | .scanning => true
  | .popped _ => true
  | _ => false

open WaitState in
def waitNext (s : WaitState κ τ) : WaitAct κ τ → Option (WaitState κ τ)
  | .mark k =>
    match s.pc k with
    | .running th => some (s.leave k th (.marked th))
    | _ => none
  | .publish k =>
    match s.pc k with
    | .marked th =>
      some
        { s.goto k (.entering th) with
          visible := update s.visible th true }
    | _ => none
  | .yieldMark k =>
    match s.pc k with
    | .running th => some (s.leave k th (.yielding th))
    | _ => none
  | .yieldThrow k route =>
    match s.pc k with
    | .yielding th =>
      some ((s.throw (route.slot k) th).goto k (.entering th))
    | _ => none
  | .swapMark k th =>
    match s.pc k with
    | .running myth =>
      if s.state th = .sleeping ∧ s.visible th = true then
        some ((s.hide th).leave k myth (.swapping myth th))
      else none
    | _ => none
  | .swapThrow k route =>
    match s.pc k with
    | .swapping myth th =>
      some (((s.throw (route.slot k) myth).setState th .running).goto k
        (.directWait myth th))
    | _ => none
  | .throw k th route =>
    if (s.pc k).wakes = true ∧ s.state th = .sleeping ∧
        s.visible th = true then
      some ((s.hide th).throw (route.slot k) th)
    else none
  | .popTargeted k =>
    match s.pc k, s.queue (.rrq k) with
    | .entering myth, th :: rest =>
      if s.stackBusy th = false then
        some ((s.setState th .running).popTo k (.rrq k) rest
          (.directWait myth th))
      else none
    | _, _ => none
  | .popDirect k =>
    match s.pc k, s.queue (.rrq k), s.queue (.rq k) with
    | .entering myth, [], th :: rest =>
      if th = myth then
        some (((s.setState th .running).setQueue (.rq k) rest).release k th
          (.running th))
      else
        some ((s.setState th .running).popTo k (.rq k) rest
          (.directWait myth th))
    | _, _, _ => none
  | .directFree k =>
    match s.pc k with
    | .directWait oldth newth =>
      if s.stackBusy newth = false then
        some (s.goto k (.directJump oldth newth))
      else none
    | _ => none
  | .directJump k =>
    match s.pc k with
    | .directJump oldth newth => some (s.release k oldth (.running newth))
    | _ => none
  | .jmpRuntime k =>
    match s.pc k with
    | .entering myth => some (s.goto k (.schedule myth))
    | _ => none
  | .schedule k =>
    match s.pc k with
    | .schedule th => some (s.release k th .scanning)
    | _ => none
  | .drainOverflow k =>
    if (s.pc k).drains then s.moveTo (.overflow k) k else none
  | .stealWork l r overflow =>
    if s.pc l = .scanning ∧ r ≠ l then
      s.moveTo (if overflow then .overflow r else .rq r) l
    else none
  | .pop k targeted =>
    match s.pc k, targeted, s.queue (.rrq k), s.queue (.rq k) with
    | .scanning, true, th :: rest, _ =>
      some (s.popTo k (.rrq k) rest (.popped th))
    | .scanning, false, [], th :: rest =>
      some (s.popTo k (.rq k) rest (.popped th))
    | _, _, _, _ => none
  | .jmpThread k =>
    match s.pc k with
    | .popped th => some ((s.setState th .running).goto k (.jumpWait th))
    | _ => none
  | .jump k =>
    match s.pc k with
    | .jumpWait th =>
      if s.stackBusy th = false then some (s.goto k (.running th))
      else none
    | _ => none

def waitSystem (κ τ : Type) [DecidableEq κ] [DecidableEq τ] :
    System (WaitState κ τ) (WaitAct κ τ) where
  init s :=
    (∀ k, s.pc k = .scanning) ∧ (∀ slot, s.queue slot = []) ∧
    ∀ th, s.stackBusy th = false
  next := waitNext

section Reading

def WaitPc.leaves : WaitPc τ → Option τ
  | .marked th | .yielding th | .swapping th _ | .entering th
  | .directWait th _ | .directJump th _ | .schedule th => some th
  | _ => none

def WaitPc.held : WaitPc τ → List τ
  | .running th | .marked th | .yielding th | .directWait _ th
  | .directJump _ th | .popped th | .jumpWait th => [th]
  | .swapping myth th => [myth, th]
  | _ => []

def WaitPc.heading : WaitPc τ → Option τ
  | .swapping _ th | .directWait _ th => some th
  | _ => none

def WaitPc.entered : WaitPc τ → Option τ
  | .running th | .directJump _ th => some th
  | _ => none

def WaitPc.spins : WaitPc τ → Option τ
  | .directWait _ th | .jumpWait th => some th
  | _ => none

/-- Kthread `k` waits for a thread whose stack `j` has still to leave. -/
def WaitsFor (s : WaitState κ τ) (k j : κ) : Prop :=
  ∃ th, (s.pc k).spins = some th ∧ s.stackBusy th = true ∧
    (s.pc j).leaves = some th

end Reading

/-- The one place a thread can be found at: on wakers' lists, in a queue, or
with a kthread. -/
inductive Spot (κ : Type)
  | asleep
  | queued (slot : Slot κ)
  | held (k : κ)

/-- Every thread is where `spot` says, and nowhere else. -/
structure SpotInv (s : WaitState κ τ) (spot : τ → Spot κ) : Prop where
  asleep : ∀ th, s.visible th = true → spot th = .asleep
  queued : ∀ slot, ∀ th ∈ s.queue slot, spot th = .queued slot
  nodup : ∀ slot, (s.queue slot).Nodup
  held : ∀ k, ∀ th ∈ (s.pc k).held, spot th = .held k
  held_nodup : ∀ k, (s.pc k).held.Nodup

/-- A stack is busy while exactly one kthread is leaving it, and a kthread that
is leaving a stack has nothing in its run queue, and heads for nothing, that
began to be left after its own thread. -/
structure LeaveInv (s : WaitState κ τ) : Prop where
  busy : ∀ th, s.stackBusy th = true ↔ ∃ k, (s.pc k).leaves = some th
  unique : ∀ k j th, (s.pc k).leaves = some th → (s.pc j).leaves = some th →
    k = j
  entered : ∀ k th, (s.pc k).entered = some th → s.stackBusy th = false
  stamped : ∀ k th, (s.pc k).leaves = some th → s.left k < s.clock
  ahead : ∀ k j x th, (s.pc k).leaves = some x → th ∈ s.queue (.rq k) →
    (s.pc j).leaves = some th → j = k ∨ s.left j < s.left k
  heading : ∀ k j th, (s.pc k).heading = some th →
    (s.pc j).leaves = some th → s.left j < s.left k

def WaitInv (s : WaitState κ τ) : Prop := (∃ spot, SpotInv s spot) ∧ LeaveInv s

variable {s t : WaitState κ τ} {spot : τ → Spot κ} {k : κ} {p : WaitPc τ}

theorem WaitInv.init (h : (waitSystem κ τ).init s) : WaitInv s := by
  obtain ⟨hpc, hqueue, hbusy⟩ := h
  refine ⟨⟨fun _ => .asleep, ?_⟩, ?_⟩
  · constructor <;> simp [hpc, hqueue, WaitPc.held]
  · constructor <;>
      simp [hpc, hqueue, hbusy, WaitPc.leaves, WaitPc.entered, WaitPc.heading]

omit [DecidableEq κ] in
theorem SpotInv.move (h : SpotInv s spot) {th : τ} {old : Spot κ}
    (hold : spot th = old) (dest : Spot κ)
    (hvisible : ∀ x, t.visible x = true → x = th ∧ dest = .asleep ∨
      s.visible x = true ∧ (old = .asleep → x ≠ th))
    (hqueue : ∀ slot, ∀ x ∈ t.queue slot, x = th ∧ dest = .queued slot ∨
      x ∈ s.queue slot ∧ (old = .queued slot → x ≠ th))
    (hnodup : ∀ slot, (t.queue slot).Nodup)
    (hheld : ∀ k, ∀ x ∈ (t.pc k).held, x = th ∧ dest = .held k ∨
      x ∈ (s.pc k).held ∧ (old = .held k → x ≠ th))
    (hheldNodup : ∀ k, (t.pc k).held.Nodup) : ∃ spot', SpotInv t spot' := by
  have key : ∀ {x l} {P : Prop}, x = th ∧ dest = l ∨ P ∧ (old = l → x ≠ th) →
      (P → spot x = l) → update spot th dest x = l := by
    rintro x l P (⟨rfl, hdest⟩ | ⟨hx, hne⟩) hP
    · rw [update_self, hdest]
    · rw [update_of_ne, hP hx]
      rintro rfl
      exact hne (hold.symm.trans (hP hx)) rfl
  exact ⟨update spot th dest,
    { asleep := fun x hx => key (hvisible x hx) (h.asleep x)
      queued := fun slot x hx => key (hqueue slot x hx) (h.queued slot x)
      nodup := hnodup
      held := fun k x hx => key (hheld k x hx) (h.held k x)
      held_nodup := hheldNodup }⟩

omit [DecidableEq τ] in
theorem SpotInv.goto (h : SpotInv s spot) (hvisible : t.visible = s.visible)
    (hqueue : t.queue = s.queue) (hpc : t.pc = update s.pc k p)
    (hheld : p.held = (s.pc k).held) : SpotInv t spot := by
  have hsame : ∀ j, (t.pc j).held = (s.pc j).held := by
    intro j
    rw [hpc]
    obtain rfl | hj := eq_or_ne j k
    · rw [update_self, hheld]
    · rw [update_of_ne hj]
  exact
    { asleep := by
        rw [hvisible]
        exact h.asleep
      queued := by
        rw [hqueue]
        exact h.queued
      nodup := by
        rw [hqueue]
        exact h.nodup
      held := by
        intro j
        rw [hsame]
        exact h.held j
      held_nodup := by
        intro j
        rw [hsame]
        exact h.held_nodup j }

omit [DecidableEq κ] [DecidableEq τ] in
theorem LeaveInv.quiet (h : LeaveInv s) (hbusy : t.stackBusy = s.stackBusy)
    (hclock : t.clock = s.clock) (hleft : t.left = s.left)
    (hleaves : ∀ j, (t.pc j).leaves = (s.pc j).leaves)
    (hentered : ∀ j th, (t.pc j).entered = some th → s.stackBusy th = false)
    (hqueue : ∀ j x, ∀ th ∈ t.queue (.rq j), (s.pc j).leaves = some x →
      th = x ∨ th ∈ s.queue (.rq j))
    (hheading : ∀ k j th, (t.pc k).heading = some th →
      (s.pc j).leaves = some th → s.left j < s.left k) : LeaveInv t where
  busy th := by
    rw [hbusy, h.busy]
    simp only [hleaves]
  unique k j th hk hj := by
    rw [hleaves] at hk hj
    exact h.unique k j th hk hj
  entered k th hk := by
    rw [hbusy]
    exact hentered k th hk
  stamped k th hk := by
    rw [hleaves] at hk
    rw [hclock, hleft]
    exact h.stamped k th hk
  ahead k j x th hk hth hj := by
    rw [hleaves] at hk hj
    rw [hleft]
    obtain rfl | hmem := hqueue k x th hth hk
    · exact .inl (h.unique j k th hj hk)
    · exact h.ahead k j x th hk hmem hj
  heading k j th hk hj := by
    rw [hleaves] at hj
    rw [hleft]
    exact hheading k j th hk hj

omit [DecidableEq τ] in
theorem LeaveInv.goto (h : LeaveInv s) (hbusy : t.stackBusy = s.stackBusy)
    (hclock : t.clock = s.clock) (hleft : t.left = s.left)
    (hpc : t.pc = update s.pc k p) (hleaves : p.leaves = (s.pc k).leaves)
    (hentered : ∀ th, p.entered = some th → s.stackBusy th = false)
    (hqueue : ∀ j x, ∀ th ∈ t.queue (.rq j), (s.pc j).leaves = some x →
      th = x ∨ th ∈ s.queue (.rq j))
    (hheading : ∀ j th, p.heading = some th → (s.pc j).leaves = some th →
      s.left j < s.left k) : LeaveInv t := by
  apply h.quiet hbusy hclock hleft
  · intro j
    rw [hpc]
    obtain rfl | hj := eq_or_ne j k
    · rw [update_self, hleaves]
    · rw [update_of_ne hj]
  · intro j th hj
    rw [hpc] at hj
    obtain rfl | hne := eq_or_ne j k
    · rw [update_self] at hj
      exact hentered th hj
    · rw [update_of_ne hne] at hj
      exact h.entered j th hj
  · exact hqueue
  · intro i j th hi hj
    rw [hpc] at hi
    obtain rfl | hne := eq_or_ne i k
    · rw [update_self] at hi
      exact hheading j th hi hj
    · rw [update_of_ne hne] at hi
      exact h.heading i j th hi hj

omit [DecidableEq τ] in
theorem WaitPc.heading_mem_held {th : τ} (h : p.heading = some th) :
    th ∈ p.held := by
  cases p <;> simp_all [WaitPc.heading, WaitPc.held]

omit [DecidableEq τ] in
theorem WaitPc.entered_mem_held {th : τ} (h : p.entered = some th) :
    th ∈ p.held := by
  cases p <;> simp_all [WaitPc.entered, WaitPc.held]

/-- The running thread begins to be left: its number is above all others', and
it is in no queue. -/
theorem LeaveInv.leave (h : LeaveInv s) (hspot : SpotInv s spot) {myth : τ}
    (hrun : s.pc k = .running myth) (hqueue : t.queue = s.queue)
    (hbusy : t.stackBusy = update s.stackBusy myth true)
    (hclock : t.clock = s.clock + 1) (hleft : t.left = update s.left k s.clock)
    (hpc : t.pc = update s.pc k p) (hleaves : p.leaves = some myth)
    (hentered : p.entered = none) (hheading : p.heading ≠ some myth) :
    LeaveInv t := by
  have hmyth : spot myth = .held k := hspot.held k myth (by
    rw [hrun]
    exact List.mem_singleton_self myth)
  have hfree : s.stackBusy myth = false := h.entered k myth (by
    rw [hrun]
    rfl)
  have hnobody : ∀ j, (s.pc j).leaves ≠ some myth := by
    intro j hj
    have := (h.busy myth).mpr ⟨j, hj⟩
    rw [hfree] at this
    cases this
  have hself : (s.pc k).leaves = none := by rw [hrun]; rfl
  -- what the other kthreads leave is what they left before
  have hold : ∀ j th, (t.pc j).leaves = some th →
      (j = k ∧ th = myth) ∨ (j ≠ k ∧ (s.pc j).leaves = some th) := by
    intro j th hj
    rw [hpc] at hj
    obtain rfl | hne := eq_or_ne j k
    · rw [update_self, hleaves] at hj
      exact .inl ⟨rfl, (Option.some.inj hj).symm⟩
    · rw [update_of_ne hne] at hj
      exact .inr ⟨hne, hj⟩
  have hothers : ∀ j, j ≠ k → t.pc j = s.pc j ∧ t.left j = s.left j := by
    intro j hj
    rw [hpc, hleft, update_of_ne hj, update_of_ne hj]
    exact ⟨rfl, rfl⟩
  have hleftSelf : t.left k = s.clock := by rw [hleft, update_self]
  have hnotHeld : ∀ j, j ≠ k → myth ∉ (s.pc j).held := by
    intro j hj hmem
    have := hmyth.symm.trans (hspot.held j myth hmem)
    exact hj (Spot.held.inj this).symm
  exact
    { busy := fun th => by
        rw [hbusy]
        obtain rfl | hne := eq_or_ne th myth
        · simp only [update_self, true_iff]
          exact ⟨k, by rw [hpc, update_self, hleaves]⟩
        · rw [update_of_ne hne, h.busy]
          constructor
          · rintro ⟨j, hj⟩
            have hjk : j ≠ k := by
              rintro rfl
              rw [hself] at hj
              cases hj
            exact ⟨j, (hothers j hjk).1 ▸ hj⟩
          · rintro ⟨j, hj⟩
            obtain ⟨-, rfl⟩ | ⟨-, hj⟩ := hold j th hj
            · exact absurd rfl hne
            · exact ⟨j, hj⟩
      unique := fun i j th hi hj => by
        obtain ⟨rfl, rfl⟩ | ⟨-, hi⟩ := hold i th hi
        · obtain ⟨rfl, -⟩ | ⟨-, hj⟩ := hold j _ hj
          · rfl
          · exact absurd hj (hnobody j)
        · obtain ⟨rfl, rfl⟩ | ⟨-, hj⟩ := hold j th hj
          · exact absurd hi (hnobody i)
          · exact h.unique i j th hi hj
      entered := fun j th hj => by
        obtain rfl | hne := eq_or_ne j k
        · rw [hpc, update_self, hentered] at hj
          cases hj
        · rw [(hothers j hne).1] at hj
          have hth : th ≠ myth := by
            rintro rfl
            exact hnotHeld j hne (WaitPc.entered_mem_held hj)
          rw [hbusy, update_of_ne hth]
          exact h.entered j th hj
      stamped := fun j th hj => by
        rw [hclock]
        obtain ⟨rfl, -⟩ | ⟨hne, hj⟩ := hold j th hj
        · omega
        · have := h.stamped j th hj
          rw [(hothers j hne).2]
          omega
      ahead := fun i j x th hi hth hj => by
        rw [hqueue] at hth
        obtain ⟨-, rfl⟩ | ⟨hjk, hj⟩ := hold j th hj
        · have := hmyth.symm.trans (hspot.queued _ _ hth)
          cases this
        rw [(hothers j hjk).2]
        obtain ⟨rfl, -⟩ | ⟨hik, hi⟩ := hold i x hi
        · exact .inr (hleftSelf ▸ h.stamped j th hj)
        · rw [(hothers i hik).2]
          exact h.ahead i j x th hi hth hj
      heading := fun i j th hi hj => by
        obtain rfl | hik := eq_or_ne i k
        · rw [hpc, update_self] at hi
          obtain ⟨-, rfl⟩ | ⟨hjk, hj⟩ := hold j th hj
          · exact absurd hi hheading
          · rw [(hothers j hjk).2, hleftSelf]
            exact h.stamped j th hj
        · rw [(hothers i hik).1] at hi
          obtain ⟨-, rfl⟩ | ⟨hjk, hj⟩ := hold j th hj
          · exact absurd (WaitPc.heading_mem_held hi) (hnotHeld i hik)
          · rw [(hothers j hjk).2, (hothers i hik).2]
            exact h.heading i j th hi hj }

theorem LeaveInv.release (h : LeaveInv s) {oldth : τ}
    (hold : (s.pc k).leaves = some oldth)
    (hqueue : ∀ j, ∀ th ∈ t.queue (.rq j), th ∈ s.queue (.rq j))
    (hbusy : t.stackBusy = update s.stackBusy oldth false)
    (hclock : t.clock = s.clock) (hleft : t.left = s.left)
    (hpc : t.pc = update s.pc k p) (hleaves : p.leaves = none)
    (hentered : ∀ th, p.entered = some th → th = oldth ∨
      s.stackBusy th = false) (hheading : p.heading = none) : LeaveInv t := by
  have hrest : ∀ j th, (t.pc j).leaves = some th →
      j ≠ k ∧ (s.pc j).leaves = some th := by
    intro j th hj
    rw [hpc] at hj
    obtain rfl | hne := eq_or_ne j k
    · rw [update_self, hleaves] at hj
      cases hj
    · rw [update_of_ne hne] at hj
      exact ⟨hne, hj⟩
  have hsame : ∀ j, j ≠ k → t.pc j = s.pc j := by
    intro j hj
    rw [hpc, update_of_ne hj]
  exact
    { busy := fun th => by
        rw [hbusy]
        obtain rfl | hne := eq_or_ne th oldth
        · simp only [update_self, Bool.false_eq_true, false_iff]
          rintro ⟨j, hj⟩
          obtain ⟨hjk, hj⟩ := hrest j th hj
          exact hjk (h.unique j k th hj hold)
        · rw [update_of_ne hne, h.busy]
          constructor
          · rintro ⟨j, hj⟩
            have hjk : j ≠ k := by
              rintro rfl
              exact hne (Option.some.inj (hj.symm.trans hold))
            exact ⟨j, hsame j hjk ▸ hj⟩
          · rintro ⟨j, hj⟩
            exact ⟨j, (hrest j th hj).2⟩
      unique := fun i j th hi hj =>
        h.unique i j th (hrest i th hi).2 (hrest j th hj).2
      entered := fun j th hj => by
        rw [hbusy, update_apply]
        split
        · rfl
        rename_i hth
        obtain rfl | hne := eq_or_ne j k
        · rw [hpc, update_self] at hj
          exact (hentered th hj).resolve_left hth
        · exact h.entered j th (hsame j hne ▸ hj)
      stamped := fun j th hj => by
        rw [hclock, hleft]
        exact h.stamped j th (hrest j th hj).2
      ahead := fun i j x th hi hth hj => by
        rw [hleft]
        exact h.ahead i j x th (hrest i x hi).2 (hqueue i th hth)
          (hrest j th hj).2
      heading := fun i j th hi hj => by
        rw [hleft]
        obtain rfl | hik := eq_or_ne i k
        · rw [hpc, update_self, hheading] at hi
          cases hi
        · exact h.heading i j th (hsame i hik ▸ hi) (hrest j th hj).2 }

section Moves

variable {s t : WaitState κ τ} {spot : τ → Spot κ} {th : τ} {slot : Slot κ}

omit [DecidableEq τ] in
theorem mem_of_push {queue : Slot κ → List τ} {slot slot' : Slot κ} {x th : τ}
    (h : x ∈ update queue slot (queue slot ++ [th]) slot') :
    x ∈ queue slot' ∨ (x = th ∧ slot' = slot) := by
  obtain rfl | hne := eq_or_ne slot' slot
  · rw [update_self, List.mem_append, List.mem_singleton] at h
    exact h.imp_right fun hx => ⟨hx, rfl⟩
  · rw [update_of_ne hne] at h
    exact .inl h

omit [DecidableEq τ] in
theorem nodup_of_push {queue : Slot κ → List τ} (hnot : th ∉ queue slot)
    (hnodup : ∀ slot', (queue slot').Nodup) (slot' : Slot κ) :
    (update queue slot (queue slot ++ [th]) slot').Nodup := by
  obtain rfl | hne := eq_or_ne slot' slot
  · rw [update_self, ← List.concat_eq_append]
    exact (hnodup slot').concat hnot
  · rw [update_of_ne hne]
    exact hnodup slot'

theorem SpotInv.thrown (h : SpotInv s spot) {old : Spot κ}
    (hold : spot th = old) (hspot : ∀ slot', old ≠ .queued slot')
    (hqueue : t.queue = update s.queue slot (s.queue slot ++ [th]))
    (hvisible : ∀ x, t.visible x = true →
      s.visible x = true ∧ (old = .asleep → x ≠ th))
    (hheld : ∀ k, ∀ x ∈ (t.pc k).held,
      x ∈ (s.pc k).held ∧ (old = .held k → x ≠ th))
    (hnodup : ∀ k, (t.pc k).held.Nodup) : ∃ spot', SpotInv t spot' := by
  refine h.move hold (.queued slot) ?_ ?_ ?_ ?_ hnodup
  · exact fun x hx => .inr (hvisible x hx)
  · intro slot' x hx
    rw [hqueue] at hx
    obtain hx | ⟨rfl, rfl⟩ := mem_of_push hx
    · exact .inr ⟨hx, fun heq => absurd heq (hspot slot')⟩
    · exact .inl ⟨rfl, rfl⟩
  · rw [hqueue]
    refine nodup_of_push (fun hmem => ?_) h.nodup
    exact hspot slot (hold.symm.trans (h.queued slot th hmem))
  · exact fun k x hx => .inr (hheld k x hx)

variable {rest : List τ}

omit [DecidableEq τ] in
theorem SpotInv.mem_of_pop (h : SpotInv s spot)
    (hhead : s.queue slot = th :: rest) {slot' : Slot κ} {x : τ}
    (hx : x ∈ update s.queue slot rest slot') :
    x ∈ s.queue slot' ∧ (Spot.queued slot = .queued slot' → x ≠ th) := by
  have hnodup := h.nodup slot
  rw [hhead, List.nodup_cons] at hnodup
  obtain rfl | hne := eq_or_ne slot' slot
  · rw [update_self] at hx
    refine ⟨by simp [hhead, hx], ?_⟩
    rintro - rfl
    exact hnodup.1 hx
  · rw [update_of_ne hne] at hx
    exact ⟨hx, fun heq => absurd (Spot.queued.inj heq).symm hne⟩

omit [DecidableEq τ] in
theorem SpotInv.nodup_of_pop (h : SpotInv s spot)
    (hhead : s.queue slot = th :: rest) (slot' : Slot κ) :
    (update s.queue slot rest slot').Nodup := by
  have hnodup := h.nodup slot
  rw [hhead, List.nodup_cons] at hnodup
  obtain rfl | hne := eq_or_ne slot' slot
  · rw [update_self]
    exact hnodup.2
  · rw [update_of_ne hne]
    exact h.nodup slot'

theorem SpotInv.popped (h : SpotInv s spot) {k : κ} {p : WaitPc τ}
    (hhead : s.queue slot = th :: rest)
    (hqueue : t.queue = update s.queue slot rest)
    (hvisible : t.visible = s.visible) (hpc : t.pc = update s.pc k p)
    (hheld : p.held = [th]) : ∃ spot', SpotInv t spot' := by
  have hth : spot th = .queued slot := h.queued slot th (by simp [hhead])
  refine h.move hth (.held k) ?_ ?_ ?_ ?_ ?_
  · exact fun x hx => .inr ⟨hvisible ▸ hx, nofun⟩
  · intro slot' x hx
    rw [hqueue] at hx
    exact .inr (h.mem_of_pop hhead hx)
  · rw [hqueue]
    exact h.nodup_of_pop hhead
  · intro j x hx
    rw [hpc] at hx
    obtain rfl | hne := eq_or_ne j k
    · rw [update_self, hheld, List.mem_singleton] at hx
      exact .inl ⟨hx, rfl⟩
    · rw [update_of_ne hne] at hx
      exact .inr ⟨hx, nofun⟩
  · intro j
    rw [hpc]
    obtain rfl | hne := eq_or_ne j k
    · rw [update_self, hheld]
      exact List.nodup_singleton th
    · rw [update_of_ne hne]
      exact h.held_nodup j

theorem SpotInv.moved (h : SpotInv s spot) {dest : Slot κ}
    (hhead : s.queue slot = th :: rest) (hne : dest ≠ slot)
    (hqueue : t.queue = update (s.setQueue slot rest).queue dest
      ((s.setQueue slot rest).queue dest ++ [th]))
    (hvisible : t.visible = s.visible) (hpc : t.pc = s.pc) :
    ∃ spot', SpotInv t spot' := by
  have hth : spot th = .queued slot := h.queued slot th (by simp [hhead])
  refine h.move hth (.queued dest) ?_ ?_ ?_ ?_ ?_
  · exact fun x hx => .inr ⟨hvisible ▸ hx, nofun⟩
  · intro slot' x hx
    rw [hqueue] at hx
    obtain hx | ⟨rfl, rfl⟩ := mem_of_push hx
    · exact .inr (h.mem_of_pop hhead hx)
    · exact .inl ⟨rfl, rfl⟩
  · rw [hqueue]
    refine nodup_of_push (fun hmem => ?_) (h.nodup_of_pop hhead)
    have hspot := h.queued dest th (h.mem_of_pop hhead hmem).1
    exact hne (Spot.queued.inj (hspot.symm.trans hth))
  · exact fun k x hx => .inr ⟨hpc ▸ hx, nofun⟩
  · rw [hpc]
    exact h.held_nodup

end Moves

section Steps

variable {s t : WaitState κ τ} {k : κ}

variable {p q : WaitPc τ} {th : τ}

omit [DecidableEq τ] in
theorem WaitInv.goto (h : WaitInv s) (hpc : s.pc k = q)
    (hheld : p.held = q.held) (hleaves : p.leaves = q.leaves)
    (hentered : ∀ th, p.entered = some th → s.stackBusy th = false)
    (hheading : ∀ th, p.heading = some th → q.heading = some th) :
    WaitInv (s.goto k p) := by
  obtain ⟨⟨spot, hspot⟩, hleave⟩ := h
  subst hpc
  refine ⟨⟨spot, hspot.goto rfl rfl rfl hheld⟩, ?_⟩
  refine hleave.goto rfl rfl rfl rfl hleaves hentered ?_ ?_
  · exact fun j x th hth _ => .inr hth
  · exact fun j th hth hj => hleave.heading k j th (hheading th hth) hj

omit [DecidableEq κ] in
theorem WaitInv.setState (h : WaitInv s) (th : τ) (x : ThreadState) :
    WaitInv (s.setState th x) := by
  obtain ⟨⟨spot, hspot⟩, hleave⟩ := h
  exact ⟨⟨spot, { hspot with }⟩, { hleave with }⟩

theorem WaitInv.leave (h : WaitInv s) {myth : τ} (hrun : s.pc k = .running myth)
    (hheld : p.held = [myth]) (hleaves : p.leaves = some myth)
    (hentered : p.entered = none) (hheading : p.heading = none) :
    WaitInv (s.leave k myth p) := by
  obtain ⟨⟨spot, hspot⟩, hleave⟩ := h
  refine ⟨⟨spot, hspot.goto rfl rfl rfl ?_⟩, ?_⟩
  · rw [hheld, hrun]
    rfl
  · refine hleave.leave hspot hrun rfl rfl rfl rfl rfl hleaves hentered ?_
    rw [hheading]
    exact nofun

theorem WaitInv.swapMark (h : WaitInv s) {myth : τ}
    (hrun : s.pc k = .running myth) (hvisible : s.visible th = true) :
    WaitInv ((s.hide th).leave k myth (.swapping myth th)) := by
  obtain ⟨⟨spot, hspot⟩, hleave⟩ := h
  have hmyth : spot myth = .held k := hspot.held k myth (by simp [hrun,
    WaitPc.held])
  have hth : spot th = .asleep := hspot.asleep th hvisible
  have hne : myth ≠ th := by
    rintro rfl
    rw [hmyth] at hth
    cases hth
  refine ⟨hspot.move hth (.held k) ?_ ?_ hspot.nodup ?_ ?_, ?_⟩
  · intro x hx
    obtain rfl | hxt := eq_or_ne x th
    · simp [WaitState.leave, WaitState.goto, WaitState.hide] at hx
    · refine .inr ⟨?_, fun _ => hxt⟩
      simpa [WaitState.leave, WaitState.goto, WaitState.hide, hxt] using hx
  · exact fun slot x hx => .inr ⟨hx, nofun⟩
  · intro j x hx
    obtain rfl | hj := eq_or_ne j k
    · obtain rfl | hxt := eq_or_ne x th
      · exact .inl ⟨rfl, rfl⟩
      · refine .inr ⟨?_, nofun⟩
        rw [hrun]
        simpa [WaitState.leave, WaitState.goto, WaitPc.held, hxt] using hx
    · refine .inr ⟨?_, nofun⟩
      simpa [WaitState.leave, WaitState.goto, WaitState.hide, hj] using hx
  · intro j
    obtain rfl | hj := eq_or_ne j k
    · simpa [WaitState.leave, WaitState.goto, WaitPc.held] using hne
    · simpa [WaitState.leave, WaitState.goto, WaitState.hide, hj] using
        hspot.held_nodup j
  · refine hleave.leave hspot hrun rfl rfl rfl rfl rfl rfl rfl ?_
    intro heq
    exact hne (Option.some.inj heq).symm

theorem Route.slot_eq_rq {route : Route κ} {j : κ} (h : route.slot k = .rq j) :
    j = k := by
  obtain (_ | _) | ⟨r, _ | _⟩ := route
  · exact (Slot.rq.inj h).symm
  · cases h
  · simp only [Route.slot] at h
    split at h
    · exact (Slot.rq.inj h).symm
    · cases h
  · cases h

omit [DecidableEq τ] in
/-- What a kthread pushes onto its run queue while it is leaving a thread can
only be that thread. -/
theorem rq_after_push {route : Route κ}
    (hth : (s.pc k).leaves = some th ∨ (s.pc k).leaves = none) (j : κ) (x : τ)
    {y : τ}
    (hy : y ∈ update s.queue (route.slot k)
      (s.queue (route.slot k) ++ [th]) (.rq j))
    (hj : (s.pc j).leaves = some x) : y = x ∨ y ∈ s.queue (.rq j) := by
  obtain hy | ⟨rfl, hslot⟩ := mem_of_push hy
  · exact .inr hy
  have hjk := Route.slot_eq_rq hslot.symm
  rw [hjk] at hj
  obtain hth | hth := hth
  · exact .inl (Option.some.inj (hth.symm.trans hj))
  · rw [hth] at hj
    cases hj

section

variable (h : WaitInv s)
include h

theorem WaitInv.publish (hpc : s.pc k = .marked th) :
    WaitInv { s.goto k (.entering th) with
      visible := update s.visible th true } := by
  obtain ⟨⟨spot, hspot⟩, hleave⟩ := h
  have hth : spot th = .held k := hspot.held k th (by simp [hpc, WaitPc.held])
  refine ⟨hspot.move hth .asleep ?_ ?_ hspot.nodup ?_ ?_, ?_⟩
  · intro x hx
    obtain rfl | hxt := eq_or_ne x th
    · exact .inl ⟨rfl, rfl⟩
    · exact .inr ⟨by simpa [hxt] using hx, nofun⟩
  · exact fun slot x hx => .inr ⟨hx, nofun⟩
  · intro j x hx
    obtain rfl | hj := eq_or_ne j k
    · simp [WaitState.goto, WaitPc.held] at hx
    · refine .inr ⟨by simpa [WaitState.goto, hj] using hx, fun heq => ?_⟩
      exact absurd (Spot.held.inj heq).symm hj
  · intro j
    obtain rfl | hj := eq_or_ne j k
    · simp [WaitState.goto, WaitPc.held]
    · simpa [WaitState.goto, hj] using hspot.held_nodup j
  · refine hleave.goto rfl rfl rfl rfl ?_ nofun ?_ nofun
    · rw [hpc]
      rfl
    · exact fun j x y hy _ => .inr hy

theorem WaitInv.throwSelf {myth : τ} (route : Route κ) (hq : s.pc k = q)
    (hleaves : q.leaves = some myth) (hheld : q.held = myth :: p.held)
    (hp : p.leaves = some myth) (hentered : p.entered = none)
    (hheading : ∀ th, p.heading = some th → q.heading = some th) :
    WaitInv ((s.throw (route.slot k) myth).goto k p) := by
  obtain ⟨⟨spot, hspot⟩, hleave⟩ := h
  subst hq
  have hmyth : spot myth = .held k := hspot.held k myth (by simp [hheld])
  have hnodup := hspot.held_nodup k
  rw [hheld, List.nodup_cons] at hnodup
  refine ⟨hspot.thrown hmyth nofun rfl (fun x hx => ⟨hx, nofun⟩) ?_ ?_, ?_⟩
  · intro j x hx
    change x ∈ (update s.pc k p j).held at hx
    obtain rfl | hj := eq_or_ne j k
    · rw [update_self] at hx
      refine ⟨by simp [hheld, hx], ?_⟩
      rintro - rfl
      exact hnodup.1 hx
    · rw [update_of_ne hj] at hx
      exact ⟨hx, fun heq => absurd (Spot.held.inj heq).symm hj⟩
  · intro j
    change (update s.pc k p j).held.Nodup
    obtain rfl | hj := eq_or_ne j k
    · rw [update_self]
      exact hnodup.2
    · rw [update_of_ne hj]
      exact hspot.held_nodup j
  · refine hleave.goto rfl rfl rfl rfl (hp.trans hleaves.symm) ?_ ?_ ?_
    · rw [hentered]
      exact nofun
    · exact fun j x y hy hj => rq_after_push (.inl hleaves) j x hy hj
    · exact fun j th hth hj => hleave.heading k j th (hheading th hth) hj

theorem WaitInv.throw (route : Route κ) (hwakes : (s.pc k).wakes = true)
    (hvisible : s.visible th = true) :
    WaitInv ((s.hide th).throw (route.slot k) th) := by
  obtain ⟨⟨spot, hspot⟩, hleave⟩ := h
  have hth : spot th = .asleep := hspot.asleep th hvisible
  have hnone : (s.pc k).leaves = none := by
    cases hpc : s.pc k <;> simp_all [WaitPc.wakes, WaitPc.leaves]
  refine ⟨hspot.thrown hth nofun rfl ?_ ?_ hspot.held_nodup, ?_⟩
  · intro x hx
    obtain rfl | hxt := eq_or_ne x th
    · simp [WaitState.throw, WaitState.push, WaitState.setState,
        WaitState.hide] at hx
    · refine ⟨?_, fun _ => hxt⟩
      simpa [WaitState.throw, WaitState.push, WaitState.setState,
        WaitState.hide, hxt] using hx
  · exact fun j x hx => ⟨hx, nofun⟩
  · refine hleave.quiet rfl rfl rfl (fun _ => rfl) hleave.entered ?_
      hleave.heading
    exact fun j x y hy hj => rq_after_push (.inr hnone) j x hy hj

/-- A kthread takes the head of one of its queues and leaves what it was
leaving; if it heads for it, that thread began to be left before. -/
theorem WaitInv.popTo {slot : Slot κ} {rest : List τ}
    (hhead : s.queue slot = th :: rest) (hq : s.pc k = q) (hheld : p.held = [th])
    (hleaves : p.leaves = q.leaves) (hentered : p.entered = none)
    (hheading : p.heading = some th →
      ∀ j, (s.pc j).leaves = some th → s.left j < s.left k)
    (honly : ∀ x, p.heading = some x → x = th) :
    WaitInv (s.popTo k slot rest p) := by
  obtain ⟨⟨spot, hspot⟩, hleave⟩ := h
  subst hq
  refine ⟨hspot.popped hhead rfl rfl rfl hheld, ?_⟩
  refine hleave.goto rfl rfl rfl rfl hleaves ?_ ?_ ?_
  · rw [hentered]
    exact nofun
  · exact fun j x y hy _ => .inr (hspot.mem_of_pop hhead hy).1
  · intro j x hx hj
    obtain rfl := honly x hx
    exact hheading hx j hj

theorem WaitInv.popSelf {slot : Slot κ} {rest : List τ}
    (hpc : s.pc k = .entering th) (hhead : s.queue slot = th :: rest) :
    WaitInv (((s.setState th .running).setQueue slot rest).release k th
      (.running th)) := by
  obtain ⟨⟨spot, hspot⟩, hleave⟩ := h
  refine ⟨hspot.popped hhead rfl rfl rfl rfl, ?_⟩
  refine hleave.release (by rw [hpc]; rfl) ?_ rfl rfl rfl rfl rfl ?_ rfl
  · exact fun j y hy => (hspot.mem_of_pop hhead hy).1
  · exact fun y hy => .inl (Option.some.inj hy).symm

theorem WaitInv.moveTo {slot : Slot κ} (hne : Slot.rq k ≠ slot)
    (hnone : (s.pc k).leaves = none) (hmove : s.moveTo slot k = some t) :
    WaitInv t := by
  obtain ⟨⟨spot, hspot⟩, hleave⟩ := h
  simp only [WaitState.moveTo] at hmove
  split at hmove
  · cases hmove
  rename_i th rest hhead
  cases hmove
  refine ⟨hspot.moved hhead hne rfl rfl rfl, ?_⟩
  refine hleave.quiet rfl rfl rfl (fun _ => rfl) hleave.entered ?_
    hleave.heading
  intro j x y hy hj
  obtain hy | ⟨-, hslot⟩ := mem_of_push hy
  · exact .inr (hspot.mem_of_pop hhead hy).1
  · rw [Slot.rq.inj hslot, hnone] at hj
    cases hj

theorem WaitInv.release {oldth : τ} (hpc : s.pc k = q)
    (hold : q.leaves = some oldth) (hheld : p.held = q.held)
    (hleaves : p.leaves = none)
    (hentered : ∀ th, p.entered = some th → s.stackBusy th = false)
    (hheading : p.heading = none) : WaitInv (s.release k oldth p) := by
  obtain ⟨⟨spot, hspot⟩, hleave⟩ := h
  subst hpc
  refine ⟨⟨spot, hspot.goto rfl rfl rfl hheld⟩, ?_⟩
  exact hleave.release hold (fun _ _ hth => hth) rfl rfl rfl rfl hleaves
    (fun th hth => .inr (hentered th hth)) hheading

theorem WaitInv.next {a : WaitAct κ τ} (hnext : waitNext s a = some t) :
    WaitInv t := by
  cases a with
  | mark k | yieldMark k =>
    simp only [waitNext] at hnext
    split at hnext <;> cases hnext
    rename_i th hpc
    exact h.leave hpc rfl rfl rfl rfl
  | publish k =>
    simp only [waitNext] at hnext
    split at hnext <;> cases hnext
    rename_i th hpc
    exact h.publish hpc
  | yieldThrow k route =>
    simp only [waitNext] at hnext
    split at hnext <;> cases hnext
    rename_i th hpc
    exact h.throwSelf route hpc rfl rfl rfl rfl nofun
  | swapMark k th =>
    simp only [waitNext] at hnext
    split at hnext
    · rename_i myth hpc
      obtain ⟨⟨-, hvisible⟩, rfl⟩ := guarded hnext
      exact h.swapMark hpc hvisible
    · cases hnext
  | swapThrow k route =>
    simp only [waitNext] at hnext
    split at hnext <;> cases hnext
    rename_i myth th hpc
    have hthrown := h.throwSelf route hpc rfl rfl (p := .directWait myth th) rfl
      rfl fun x hx => hx
    exact hthrown.setState th .running
  | throw k th route =>
    obtain ⟨⟨hwakes, -, hvisible⟩, rfl⟩ := guarded hnext
    exact h.throw route hwakes hvisible
  | popTargeted k =>
    simp only [waitNext] at hnext
    split at hnext
    · rename_i myth th rest hpc hhead
      obtain ⟨hfree, rfl⟩ := guarded hnext
      refine (h.popTo hhead hpc (p := .directWait myth th) rfl rfl rfl ?_
        ?_).setState th .running
      · -- nobody is leaving a stack that was found free
        intro _ j hj
        have hbusy := (h.2.busy th).mpr ⟨j, hj⟩
        rw [hfree] at hbusy
        cases hbusy
      · exact fun x hx => (Option.some.inj hx).symm
    · cases hnext
  | popDirect k =>
    simp only [waitNext] at hnext
    split at hnext
    · rename_i myth th rest hpc _ hhead
      split at hnext
      · rename_i heq
        cases hnext
        exact h.popSelf (heq ▸ hpc) hhead
      · rename_i hne
        cases hnext
        refine (h.popTo hhead hpc (p := .directWait myth th) rfl rfl rfl ?_
          ?_).setState th .running
        · -- it was in the run queue before the kthread began to leave
          intro _ j hj
          have hleaves : (s.pc k).leaves = some myth := by rw [hpc]; rfl
          have hmem : th ∈ s.queue (.rq k) := by simp [hhead]
          obtain rfl | hlt := h.2.ahead k j myth th hleaves hmem hj
          · exact absurd (Option.some.inj (hj.symm.trans hleaves)) hne
          · exact hlt
        · exact fun x hx => (Option.some.inj hx).symm
    · cases hnext
  | directFree k =>
    simp only [waitNext] at hnext
    split at hnext
    · rename_i oldth newth hpc
      obtain ⟨hfree, rfl⟩ := guarded hnext
      refine h.goto hpc rfl rfl (fun x hx => ?_) nofun
      rw [← Option.some.inj hx]
      exact hfree
    · cases hnext
  | directJump k =>
    simp only [waitNext] at hnext
    split at hnext <;> cases hnext
    rename_i oldth newth hpc
    refine h.release hpc rfl rfl rfl (fun x hx => h.2.entered k x ?_) rfl
    rw [hpc]
    exact hx
  | jmpRuntime k =>
    simp only [waitNext] at hnext
    split at hnext <;> cases hnext
    rename_i myth hpc
    exact h.goto hpc rfl rfl nofun nofun
  | schedule k =>
    simp only [waitNext] at hnext
    split at hnext <;> cases hnext
    rename_i th hpc
    exact h.release hpc rfl rfl rfl nofun rfl
  | drainOverflow k =>
    simp only [waitNext, Option.ite_none_right_eq_some] at hnext
    obtain ⟨hdrains, hmove⟩ := hnext
    refine h.moveTo ?_ ?_ hmove
    · exact nofun
    cases hpc : s.pc k <;> simp_all [WaitPc.drains, WaitPc.leaves]
  | stealWork l r overflow =>
    simp only [waitNext, Option.ite_none_right_eq_some] at hnext
    obtain ⟨⟨hpc, hne⟩, hmove⟩ := hnext
    refine h.moveTo ?_ (by rw [hpc]; rfl) hmove
    cases overflow with
    | true => exact nofun
    | false => exact fun heq => hne (Slot.rq.inj heq).symm
  | pop k targeted =>
    simp only [waitNext] at hnext
    split at hnext
    · rename_i th rest _ hpc hhead
      cases hnext
      exact h.popTo hhead hpc rfl rfl rfl nofun nofun
    · rename_i th rest hpc _ hhead
      cases hnext
      exact h.popTo hhead hpc rfl rfl rfl nofun nofun
    · cases hnext
  | jmpThread k =>
    simp only [waitNext] at hnext
    split at hnext <;> cases hnext
    rename_i th hpc
    exact (h.setState th .running).goto hpc rfl rfl nofun nofun
  | jump k =>
    simp only [waitNext] at hnext
    split at hnext
    · rename_i th hpc
      obtain ⟨hfree, rfl⟩ := guarded hnext
      refine h.goto hpc rfl rfl (fun x hx => ?_) nofun
      rw [← Option.some.inj hx]
      exact hfree
    · cases hnext

end

end Steps

theorem waitSystem_inv (hs : (waitSystem κ τ).Reach anyStep s) : WaitInv s :=
  hs.invariant (fun _ => WaitInv.init) fun _ _ _ h _ hnext => h.next hnext

/-- The number of a kthread that is leaving a stack, and a number above all of
these for the others. -/
def WaitState.rank (s : WaitState κ τ) (k : κ) : ℕ :=
  if (s.pc k).leaves.isSome then s.left k else s.clock

omit [DecidableEq κ] [DecidableEq τ] in
/-- Whoever is waited for began to leave before the waiter did. -/
theorem WaitsFor.rank_lt (h : LeaveInv s) {j : κ} (hwait : WaitsFor s k j) :
    s.rank j < s.rank k := by
  obtain ⟨th, hspins, -, hj⟩ := hwait
  have hrank : s.rank j = s.left j := by simp [WaitState.rank, hj]
  rw [hrank]
  cases hpc : s.pc k with
  | directWait oldth newth =>
    have hk : s.rank k = s.left k := by
      simp [WaitState.rank, hpc, WaitPc.leaves]
    rw [hk]
    apply h.heading k j th _ hj
    simpa [hpc, WaitPc.spins, WaitPc.heading] using hspins
  | jumpWait th' =>
    have hk : s.rank k = s.clock := by
      simp [WaitState.rank, hpc, WaitPc.leaves]
    rw [hk]
    exact h.stamped j th hj
  | running | marked | yielding | swapping | entering | directJump | schedule
  | scanning | popped =>
    simp [hpc, WaitPc.spins] at hspins

theorem LeaveInv.progress (h : LeaveInv s) {j : κ} {th : τ}
    (hleaves : (s.pc j).leaves = some th) (hfree : ∀ i, ¬ WaitsFor s j i) :
    ∃ a t, waitNext s a = some t ∧ t.pc j ≠ s.pc j := by
  cases hpc : s.pc j with
  | marked myth =>
    refine ⟨.publish j, _, by simp only [waitNext, hpc]; rfl, ?_⟩
    simp [WaitState.goto]
  | yielding myth =>
    refine ⟨.yieldThrow j (.own false), _, by simp only [waitNext, hpc]; rfl,
      ?_⟩
    simp [WaitState.goto]
  | swapping myth th' =>
    refine ⟨.swapThrow j (.own false), _, by simp only [waitNext, hpc]; rfl,
      ?_⟩
    simp [WaitState.goto]
  | entering myth =>
    refine ⟨.jmpRuntime j, _, by simp only [waitNext, hpc]; rfl, ?_⟩
    simp [WaitState.goto]
  | directWait oldth newth =>
    have hnot : s.stackBusy newth = false := by
      by_contra hbusy
      have hbusy := eq_true_of_ne_false hbusy
      obtain ⟨i, hi⟩ := (h.busy newth).mp hbusy
      exact hfree i ⟨newth, by simp [hpc, WaitPc.spins], hbusy, hi⟩
    refine ⟨.directFree j, _, by simp only [waitNext, hpc, hnot]; rfl, ?_⟩
    simp [WaitState.goto]
  | directJump oldth newth =>
    refine ⟨.directJump j, _, by simp only [waitNext, hpc]; rfl, ?_⟩
    simp [WaitState.release, WaitState.goto]
  | schedule self =>
    refine ⟨.schedule j, _, by simp only [waitNext, hpc]; rfl, ?_⟩
    simp [WaitState.release, WaitState.goto]
  | running | scanning | popped | jumpWait =>
    simp [hpc, WaitPc.leaves] at hleaves

omit [DecidableEq κ] [DecidableEq τ] in
/-- Following the waits from a kthread ends at one that waits for nobody. -/
theorem LeaveInv.chain_ends (h : LeaveInv s) {j : κ} (hwait : WaitsFor s k j) :
    ∃ i, Relation.TransGen (WaitsFor s) k i ∧ (s.pc i).leaves.isSome = true ∧
      ∀ l, ¬ WaitsFor s i l := by
  -- by induction on the rank of the kthread that is waited for
  induction hn : s.rank j using Nat.strong_induction_on generalizing k j with
  | _ n ih =>
    by_cases hj : ∃ l, WaitsFor s j l
    · obtain ⟨l, hl⟩ := hj
      obtain ⟨i, hi, hrest⟩ := ih _ (hn ▸ hl.rank_lt h) hl rfl
      exact ⟨i, .head hwait hi, hrest⟩
    · have hleaves : (s.pc j).leaves.isSome = true := by
        obtain ⟨th, -, -, hth⟩ := hwait
        simp [hth]
      exact ⟨j, .single hwait, hleaves, not_exists.mp hj⟩

/-- In every state of every run a busy stack is being left by exactly one
kthread, the kthreads in the `stack_busy` loops do not wait in a circle, and so
in every set of kthreads there is one that waits for none of the set. A kthread
that waits is, in the end, waiting for one that waits for nobody and can go on
leaving its stack. -/
theorem stack_wait_acyclic {s : WaitState κ τ}
    (hs : (waitSystem κ τ).Reach anyStep s) :
    (∀ th, s.stackBusy th = true ↔ ∃! k, (s.pc k).leaves = some th) ∧
    (∀ k, ¬ Relation.TransGen (WaitsFor s) k k) ∧
    (∀ S : Set κ, S.Nonempty → ∃ k ∈ S, ∀ j ∈ S, ¬ WaitsFor s k j) ∧
    ∀ k th, (s.pc k).spins = some th → s.stackBusy th = true →
      ∃ j, Relation.TransGen (WaitsFor s) k j ∧ (∀ i, ¬ WaitsFor s j i) ∧
        ∃ a t, waitNext s a = some t ∧ t.pc j ≠ s.pc j := by
  have h := (waitSystem_inv hs).2
  refine ⟨fun th => ?_, fun k hcycle => ?_, fun S hS => ?_,
    fun k th hspins hbusy => ?_⟩
  · rw [h.busy]
    constructor
    · rintro ⟨k, hk⟩
      exact ⟨k, hk, fun j hj => h.unique j k th hj hk⟩
    · rintro ⟨k, hk, -⟩
      exact ⟨k, hk⟩
  · have hlt : ∀ j, Relation.TransGen (WaitsFor s) k j →
        s.rank j < s.rank k := by
      intro j hj
      induction hj with
      | single hstep => exact hstep.rank_lt h
      | tail _ hstep ih => exact (hstep.rank_lt h).trans ih
    exact (hlt k hcycle).false
  · obtain ⟨k, hk, hmin⟩ := (measure s.rank).wf.has_min S hS
    exact ⟨k, hk, fun j hj hwait => hmin j hj (hwait.rank_lt h)⟩
  · obtain ⟨j, hj⟩ := (h.busy th).mp hbusy
    obtain ⟨i, hchain, hleaves, hfree⟩ := h.chain_ends ⟨th, hspins, hbusy, hj⟩
    obtain ⟨x, hx⟩ := Option.isSome_iff_exists.mp hleaves
    exact ⟨i, hchain, hfree, h.progress hx hfree⟩

/-- Kthread 0 is parking thread 0 while kthread 1, which has woken it, leaves
thread 1 for it. -/
def waitingRun : List (WaitAct Nat Nat) :=
  [.throw 0 0 (.own false), .pop 0 false, .jmpThread 0, .jump 0,
    .throw 1 1 (.own false), .pop 1 false, .jmpThread 1, .jump 1,
    .mark 0, .publish 0, .throw 1 0 (.own false),
    .yieldMark 1, .yieldThrow 1 (.own false), .popDirect 1]

def waitStart : WaitState Nat Nat where
  state _ := .sleeping
  stackBusy _ := false
  visible _ := true
  queue _ := []
  pc _ := .scanning
  clock := 0
  left _ := 0

theorem waitingRun_isSome :
    ((waitSystem Nat Nat).exec waitStart waitingRun).isSome = true := by
  decide

def waiting : WaitState Nat Nat :=
  ((waitSystem Nat Nat).exec waitStart waitingRun).get waitingRun_isSome

theorem waiting_reach : (waitSystem Nat Nat).Reach anyStep waiting :=
  System.Reach.exec (.init ⟨fun _ => rfl, fun _ => rfl, fun _ => rfl⟩)
    waitingRun (Option.some_get waitingRun_isSome).symm

theorem stack_wait_acyclic_waiting :
    WaitsFor waiting 1 0 ∧ ∀ k, ¬ Relation.TransGen (WaitsFor waiting) k k :=
  ⟨⟨0, rfl, rfl, rfl⟩, (stack_wait_acyclic waiting_reach).2.1⟩

end Libut.Runtime
