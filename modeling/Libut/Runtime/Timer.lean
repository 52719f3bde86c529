import Mathlib.Tactic
import Libut.Machine.System
import Libut.Machine.DaryHeap
import Libut.Machine.Total

/-!
Timers (`runtime/timer.c`). Every kthread keeps its pending timers in a 4-ary
heap; an entry remembers its slot (`idx`) and the kthread that holds it
(`localk`). Each function runs under the timer lock of the heap it changes and
is one step here; `timer_softirq` gives the lock up while a handler runs, so
one pass of its loop is a step. A `BUG` and an access through a pointer that
was never written have no result.

Kthreads and entries are arbitrary types. Deadlines are only compared, so
natural numbers stand for the 64-bit microseconds. The handler `fn` and its
argument are those of the entry; `fired` records which handlers ran.
-/

namespace Libut.Runtime

open Machine

def runtimeMaxTimers : Nat := 4096

structure TimerIdx (ε : Type) where
  deadlineUs : Nat
  e : ε
  deriving DecidableEq, Repr

structure TimerEntry (κ : Type) where
  armed : Bool
  idx : Nat
  /-- `none` is the garbage that `timer_init` leaves in the field. -/
  localk : Option κ
  deriving DecidableEq, Repr

structure TimerState (κ ε : Type) where
  timers : κ → Nat → TimerIdx ε
  timern : κ → Nat
  entries : ε → TimerEntry κ
  fired : List ε

namespace TimerState

variable {κ ε : Type} [DecidableEq κ] [DecidableEq ε]

/-- `k->timers[i] = x`. -/
def setSlot (s : TimerState κ ε) (k : κ) (i : Nat) (x : TimerIdx ε) :
    TimerState κ ε :=
  { s with
    timers :=
      Function.update s.timers k (Function.update (s.timers k) i x) }

def setTimern (s : TimerState κ ε) (k : κ) (n : Nat) : TimerState κ ε :=
  { s with timern := Function.update s.timern k n }

def setEntry (s : TimerState κ ε) (e : ε) (x : TimerEntry κ) :
    TimerState κ ε :=
  { s with entries := Function.update s.entries e x }

/-- `e->idx = i`. -/
def setIdx (s : TimerState κ ε) (e : ε) (i : Nat) : TimerState κ ε :=
  s.setEntry e { s.entries e with idx := i }

def setArmed (s : TimerState κ ε) (e : ε) (b : Bool) : TimerState κ ε :=
  s.setEntry e { s.entries e with armed := b }

end TimerState

variable {κ ε : Type} [DecidableEq κ] [DecidableEq ε]

/-- The four stores in the loops of `sift_up` and `sift_down`. The entry that
is being sifted (`tmp`) is the one in slot `i`. -/
def swapSlots (k : κ) (s : TimerState κ ε) (i j : Nat) : TimerState κ ε :=
  let tmp := s.timers k i
  let s := s.setSlot k i (s.timers k j)
  let s := s.setIdx (s.timers k i).e i
  let s := s.setSlot k j tmp
  s.setIdx (s.timers k j).e j

theorem swapSlots_timers (k : κ) (s : TimerState κ ε) (i j : Nat) :
    (swapSlots k s i j).timers k = s.timers k ∘ Equiv.swap i j := by
  funext x
  simp only [swapSlots, TimerState.setIdx, TimerState.setEntry,
    TimerState.setSlot, Function.comp_apply, Function.update_apply,
    Equiv.swap_apply_def]
  grind

/-- The heap of kthread `k`, ordered by deadline. -/
def timerHeap (k : κ) : SwapHeap (TimerState κ ε) Nat where
  key s i := (s.timers k i).deadlineUs
  swap := swapSlots k
  key_swap s i j := by
    funext x
    rw [swapSlots_timers]
    rfl

def timerArity : Nat := 4

def siftUp (k : κ) (s : TimerState κ ε) (i : Nat) : TimerState κ ε :=
  (timerHeap k).siftUp timerArity s i

def siftDown (k : κ) (s : TimerState κ ε) (i n : Nat) : TimerState κ ε :=
  (timerHeap k).siftDown timerArity s i n

def timerInit (s : TimerState κ ε) (e : ε) : TimerState κ ε :=
  s.setArmed e false

def timerStartLocked (s : TimerState κ ε) (k : κ) (e : ε)
    (deadlineUs : Nat) : Option (TimerState κ ε) :=
  if (s.entries e).armed then none
  else
    let i := s.timern k
    let s := s.setTimern k (i + 1)
    if runtimeMaxTimers ≤ s.timern k then none
    else
      let s := s.setSlot k i ⟨deadlineUs, e⟩
      let s := s.setEntry e { s.entries e with idx := i, localk := some k }
      let s := siftUp k s i
      some (s.setArmed e true)

/-- `timer_cancel`. The counter is a 32-bit `unsigned int`, so that an empty
heap would make `last` wrap and the read of `timers[last]` leave the array. -/
def timerCancel (s : TimerState κ ε) (e : ε) :
    Option (TimerState κ ε × Bool) :=
  match (s.entries e).localk with
  | none => none
  | some k =>
    if (s.entries e).armed then
      let s := s.setArmed e false
      let last := (s.timern k + (2 ^ 32 - 1)) % 2 ^ 32
      let s := s.setTimern k last
      if (s.entries e).idx = last then some (s, true)
      else if runtimeMaxTimers ≤ last then none
      else
        let s := s.setSlot k (s.entries e).idx (s.timers k last)
        let s := s.setIdx (s.timers k (s.entries e).idx).e (s.entries e).idx
        let s := siftUp k s (s.entries e).idx
        let s := siftDown k s (s.entries e).idx (s.timern k)
        some (s, true)
    else some (s, false)

/-- One pass of the first loop of `timer_merge`. -/
def timerMergeOne (s : TimerState κ ε) (k r : κ) (i : Nat) :
    Option (TimerState κ ε) :=
  let n := s.timern k
  let s := s.setSlot k n (s.timers r i)
  let s := s.setIdx (s.timers k n).e n
  let e := (s.timers k n).e
  let s := s.setEntry e { s.entries e with localk := some k }
  let s := s.setTimern k (n + 1)
  if runtimeMaxTimers ≤ s.timern k then none else some s

/-- The first `count` passes. -/
def timerMergeLoop (s : TimerState κ ε) (k r : κ) :
    Nat → Option (TimerState κ ε)
  | 0 => some s
  | i + 1 => (timerMergeLoop s k r i).bind fun t => timerMergeOne t k r i

/-- `timer_merge(r)` called on kthread `k`. -/
def timerMerge (s : TimerState κ ε) (k r : κ) : Option (TimerState κ ε) :=
  if s.timern r = 0 then some s
  else
    (timerMergeLoop s k r (s.timern r)).map fun s =>
      let s := s.setTimern r 0
      (timerHeap k).heapify timerArity s (s.timern k)
        (s.timern k / timerArity)

/-- The test of the loop in `timer_softirq`, its budget apart. -/
def timerExpired (s : TimerState κ ε) (k : κ) (nowUs : Nat) : Prop :=
  0 < s.timern k ∧ (s.timers k 0).deadlineUs ≤ nowUs

instance (s : TimerState κ ε) (k : κ) (nowUs : Nat) :
    Decidable (timerExpired s k nowUs) :=
  inferInstanceAs (Decidable (_ ∧ _))

/-- One pass of the loop in `timer_softirq`: take the first timer off the heap
and run its handler. -/
def timerSoftirq (s : TimerState κ ε) (k : κ) (nowUs : Nat) :
    TimerState κ ε :=
  if timerExpired s k nowUs then
    let i := s.timern k - 1
    let s := s.setTimern k i
    let e := (s.timers k 0).e
    let s :=
      if 0 < i then
        let s := s.setSlot k 0 (s.timers k i)
        let s := s.setIdx (s.timers k 0).e 0
        siftDown k s 0 i
      else s
    { s with fired := s.fired ++ [e] }
  else s

inductive TimerAct (κ ε : Type)
  | init (e : ε)
  | start (k : κ) (e : ε) (deadlineUs : Nat)
  | cancel (e : ε)
  | merge (k r : κ)
  | softirq (k : κ) (nowUs : Nat)

/-- Any number of kthreads and entries. At the start no timer is pending and
every entry has been through `timer_init` once. A kthread merges the heap of
another one only. -/
def timerSystem (κ ε : Type) [DecidableEq κ] [DecidableEq ε] :
    System (TimerState κ ε) (TimerAct κ ε) where
  init s := (∀ k, s.timern k = 0) ∧
    (∀ e, (s.entries e).armed = false ∧ (s.entries e).localk = none) ∧
    s.fired = []
  next s
    | .init e => some (timerInit s e)
    | .start k e deadlineUs => timerStartLocked s k e deadlineUs
    | .cancel e => (timerCancel s e).map Prod.fst
    | .merge k r => if k = r then none else timerMerge s k r
    | .softirq k nowUs => some (timerSoftirq s k nowUs)

end Libut.Runtime
