import Mathlib.Data.List.Nodup
import Mathlib.Tactic
import Libut.Machine.System

/-!
Read-write mutexes (`runtime/sync.c`). One signed counter says who holds the
lock: -1 for a writer, otherwise the number of readers. A thread that cannot
have the lock is put on a list and parks; the thread that unlocks later stores
the counter on its behalf, so a parked thread returns from its call as a holder
without looking at the counter again.

Every call is one step under `waiter_lock`. Next to the mutex the state records
the locks that calls have returned with (`held`) and the call each parked
thread is in (`waiting`); the code knows neither. `count` and
`read_waiter_count` are C `int`s: the model is the code's as long as fewer than
`2 ^ 31` locks are held or waited for.
-/

namespace Libut.Runtime

open Machine

inductive LockMode
  | read
  | write
  deriving DecidableEq, Repr

/-- `rwmutex_t`; both lists are in order of arrival. -/
structure RwMutex (τ : Type) where
  count : Int
  readWaiterCount : Int
  readWaiters : List τ
  writeWaiters : List τ
  deriving DecidableEq, Repr

section Calls

variable {τ : Type}

def rwmutexInit : RwMutex τ := ⟨0, 0, [], []⟩

/-- `rwmutex_rdlock`; false means that the caller parks. -/
def rwmutexRdlock (m : RwMutex τ) (myth : τ) : RwMutex τ × Bool :=
  if 0 ≤ m.count then ({ m with count := m.count + 1 }, true)
  else
    ({ m with
        readWaiterCount := m.readWaiterCount + 1
        readWaiters := m.readWaiters ++ [myth] }, false)

def rwmutexTryRdlock (m : RwMutex τ) : RwMutex τ × Bool :=
  if 0 ≤ m.count then ({ m with count := m.count + 1 }, true) else (m, false)

/-- `rwmutex_wrlock`; false means that the caller parks. -/
def rwmutexWrlock (m : RwMutex τ) (myth : τ) : RwMutex τ × Bool :=
  if m.count = 0 then ({ m with count := -1 }, true)
  else ({ m with writeWaiters := m.writeWaiters ++ [myth] }, false)

def rwmutexTryWrlock (m : RwMutex τ) : RwMutex τ × Bool :=
  if m.count = 0 then ({ m with count := -1 }, true) else (m, false)

/-- The count that `rwmutex_unlock` arrives at before it looks for waiters. -/
def RwMutex.released (m : RwMutex τ) : Int :=
  if m.count < 0 then 0 else m.count - 1

/-- `rwmutex_unlock` and the threads it makes ready, in order; `none` if its
`assert` fails. -/
def rwmutexUnlock (m : RwMutex τ) : Option (RwMutex τ × List τ) :=
  if m.count = 0 then none
  else if m.released = 0 ∧ 0 < m.readWaiterCount then
    some
      ({ m with
          count := m.readWaiterCount
          readWaiterCount := 0
          readWaiters := [] }, m.readWaiters)
  else if m.released = 0 then
    match m.writeWaiters with
    | [] => some ({ m with count := 0 }, [])
    | th :: rest => some ({ m with count := -1, writeWaiters := rest }, [th])
  else some ({ m with count := m.released }, [])

/-- What `rwmutex_unlock` can do: hand the lock to all waiting readers, find
nobody to hand it to, hand it to the first waiting writer, or leave it to the
readers that still hold it. -/
theorem rwmutexUnlock_cases {m m' : RwMutex τ} {woken : List τ}
    (h : rwmutexUnlock m = some (m', woken)) :
    (m.released = 0 ∧ 0 < m.readWaiterCount ∧ woken = m.readWaiters ∧
      m' = { m with
        count := m.readWaiterCount, readWaiterCount := 0, readWaiters := [] }) ∨
    (m.released = 0 ∧ ¬ 0 < m.readWaiterCount ∧ m.writeWaiters = [] ∧
      woken = [] ∧ m' = { m with count := 0 }) ∨
    (∃ th rest, m.released = 0 ∧ ¬ 0 < m.readWaiterCount ∧
      m.writeWaiters = th :: rest ∧ woken = [th] ∧
      m' = { m with count := -1, writeWaiters := rest }) ∨
    (m.released ≠ 0 ∧ woken = [] ∧ m' = { m with count := m.released }) := by
  unfold rwmutexUnlock at h
  split at h
  · cases h
  split at h
  · rename_i hfree
    cases h
    exact .inl ⟨hfree.1, hfree.2, rfl, rfl⟩
  rename_i hnot
  split at h
  · rename_i hfree
    have hnone : ¬ 0 < m.readWaiterCount := fun hpos => hnot ⟨hfree, hpos⟩
    split at h
    · rename_i hnil
      cases h
      exact .inr (.inl ⟨hfree, hnone, hnil, rfl, rfl⟩)
    · rename_i th rest hcons
      cases h
      exact .inr (.inr (.inl ⟨th, rest, hfree, hnone, hcons, rfl, rfl⟩))
  · rename_i hheld
    cases h
    exact .inr (.inr (.inr ⟨hheld, rfl, rfl⟩))

end Calls

/-- `held` has one entry for each lock that is held. -/
structure RwState (τ : Type) where
  m : RwMutex τ
  held : List (τ × LockMode)
  waiting : τ → Option LockMode

inductive RwAct (τ : Type)
  | rdlock (th : τ)
  | tryRdlock (th : τ)
  | wrlock (th : τ)
  | tryWrlock (th : τ)
  | unlock (th : τ) (mode : LockMode)
  deriving DecidableEq, Repr

variable {τ : Type} [DecidableEq τ]

/-- A call of `th` returns or parks. -/
def RwState.lock (s : RwState τ) (th : τ) (mode : LockMode) :
    RwMutex τ × Bool → RwState τ
  | (m, true) => { s with m := m, held := s.held ++ [(th, mode)] }
  | (m, false) =>
    { s with m := m, waiting := Function.update s.waiting th (some mode) }

def RwState.tryLock (s : RwState τ) (th : τ) (mode : LockMode) :
    RwMutex τ × Bool → RwState τ
  | (m, true) => { s with m := m, held := s.held ++ [(th, mode)] }
  | (m, false) => { s with m := m }

def RwState.wake (s : RwState τ) (woken : List τ) : RwState τ :=
  { s with
    held := s.held ++
      woken.filterMap fun th => (s.waiting th).map fun mode => (th, mode)
    waiting := fun th => if th ∈ woken then none else s.waiting th }

def rwNext (s : RwState τ) : RwAct τ → Option (RwState τ)
  | .rdlock th =>
    if s.waiting th = none then
      some (s.lock th .read (rwmutexRdlock s.m th))
    else none
  | .tryRdlock th =>
    if s.waiting th = none then
      some (s.tryLock th .read (rwmutexTryRdlock s.m))
    else none
  | .wrlock th =>
    if s.waiting th = none then
      some (s.lock th .write (rwmutexWrlock s.m th))
    else none
  | .tryWrlock th =>
    if s.waiting th = none then
      some (s.tryLock th .write (rwmutexTryWrlock s.m))
    else none
  | .unlock th mode =>
    if s.waiting th = none ∧ (th, mode) ∈ s.held then
      (rwmutexUnlock s.m).map fun r =>
        { s with m := r.1, held := s.held.erase (th, mode) }.wake r.2
    else none

def rwSystem (τ : Type) [DecidableEq τ] : System (RwState τ) (RwAct τ) where
  init s := s.m = rwmutexInit ∧ s.held = [] ∧ ∀ th, s.waiting th = none
  next := rwNext

/-- The counter says who holds the lock, the lists say who waits for it, and
nobody waits for a lock that could be had. -/
structure RwInv (s : RwState τ) : Prop where
  holders :
    (s.m.count = -1 ∧ ∃ w, s.held = [(w, .write)]) ∨
    (s.m.count = s.held.length ∧ ∀ e ∈ s.held, e.2 = .read)
  counted : s.m.readWaiterCount = s.m.readWaiters.length
  readers_blocked : s.m.readWaiters ≠ [] → s.m.count = -1
  writers_blocked : s.m.writeWaiters ≠ [] → s.m.count ≠ 0
  mem_readWaiters : ∀ th, th ∈ s.m.readWaiters ↔ s.waiting th = some .read
  mem_writeWaiters : ∀ th, th ∈ s.m.writeWaiters ↔ s.waiting th = some .write
  nodup_readWaiters : s.m.readWaiters.Nodup
  nodup_writeWaiters : s.m.writeWaiters.Nodup

variable {s t : RwState τ} {th : τ} {mode : LockMode} {woken : List τ}
  {m : RwMutex τ}

attribute [simp] RwState.lock RwState.wake

theorem RwInv.init (h : (rwSystem τ).init s) : RwInv s := by
  obtain ⟨hm, hheld, hwait⟩ := h
  refine ⟨.inr ?_, ?_, ?_, ?_, ?_, ?_, ?_, ?_⟩ <;>
    simp [hm, hheld, hwait, rwmutexInit]

omit [DecidableEq τ] in
theorem RwInv.acquireRead (hinv : RwInv s) (th : τ)
    (hfree : 0 ≤ s.m.count) :
    RwInv { s with
      m := { s.m with count := s.m.count + 1 }
      held := s.held ++ [(th, .read)] } := by
  have hnone : s.m.readWaiters = [] := by
    by_contra hne
    have := hinv.readers_blocked hne
    omega
  obtain ⟨hw, -⟩ | ⟨hcount, hread⟩ := hinv.holders
  · omega
  exact
    { holders := by
        right
        refine ⟨by simp [hcount], fun e he => ?_⟩
        obtain he | he := List.mem_append.mp he
        · exact hread e he
        · rw [List.mem_singleton.mp he]
      counted := hinv.counted
      readers_blocked := fun hne => absurd hnone hne
      writers_blocked := fun _ => by
        change s.m.count + 1 ≠ 0
        omega
      mem_readWaiters := hinv.mem_readWaiters
      mem_writeWaiters := hinv.mem_writeWaiters
      nodup_readWaiters := hinv.nodup_readWaiters
      nodup_writeWaiters := hinv.nodup_writeWaiters }

omit [DecidableEq τ] in
theorem RwInv.acquireWrite (hinv : RwInv s) (th : τ)
    (hfree : s.m.count = 0) :
    RwInv { s with
      m := { s.m with count := -1 }
      held := s.held ++ [(th, .write)] } := by
  have hnil : s.held = [] := by
    obtain ⟨hw, -⟩ | ⟨hcount, -⟩ := hinv.holders
    · omega
    · exact List.eq_nil_of_length_eq_zero (by omega)
  exact
    { holders := .inl ⟨rfl, th, by simp [hnil]⟩
      counted := hinv.counted
      readers_blocked := fun _ => rfl
      writers_blocked := fun _ => by
        change (-1 : Int) ≠ 0
        decide
      mem_readWaiters := hinv.mem_readWaiters
      mem_writeWaiters := hinv.mem_writeWaiters
      nodup_readWaiters := hinv.nodup_readWaiters
      nodup_writeWaiters := hinv.nodup_writeWaiters }

theorem RwInv.park (hinv : RwInv s) (hth : s.waiting th = none)
    (hcount : m.count = s.m.count)
    (hcounted : m.readWaiterCount = m.readWaiters.length)
    (hread : m.readWaiters =
      s.m.readWaiters ++ if mode = .read then [th] else [])
    (hwrite : m.writeWaiters =
      s.m.writeWaiters ++ if mode = .write then [th] else [])
    (hblocked : m.readWaiters ≠ [] → s.m.count = -1)
    (hblocked' : m.writeWaiters ≠ [] → s.m.count ≠ 0) :
    RwInv (s.lock th mode (m, false)) := by
  have hnotRead : th ∉ s.m.readWaiters := by
    simp [hinv.mem_readWaiters, hth]
  have hnotWrite : th ∉ s.m.writeWaiters := by
    simp [hinv.mem_writeWaiters, hth]
  exact
    { holders := by
        change (m.count = -1 ∧ _) ∨ (m.count = _ ∧ _)
        rw [hcount]
        exact hinv.holders
      counted := hcounted
      readers_blocked := fun hne => hcount.trans (hblocked hne)
      writers_blocked := fun hne => hcount.trans_ne (hblocked' hne)
      mem_readWaiters := fun x => by
        obtain rfl | hx := eq_or_ne x th
        · cases mode <;> simp [hread, hnotRead]
        · cases mode <;>
            simp [hread, hx, hinv.mem_readWaiters]
      mem_writeWaiters := fun x => by
        obtain rfl | hx := eq_or_ne x th
        · cases mode <;> simp [hwrite, hnotWrite]
        · cases mode <;>
            simp [hwrite, hx, hinv.mem_writeWaiters]
      nodup_readWaiters := by
        cases mode <;>
          simp [hread, hinv.nodup_readWaiters, List.nodup_append]
        rintro a ha rfl
        exact hnotRead ha
      nodup_writeWaiters := by
        cases mode <;>
          simp [hwrite, hinv.nodup_writeWaiters, List.nodup_append]
        rintro a ha rfl
        exact hnotWrite ha }

theorem RwInv.released (hinv : RwInv s) (hheld : (th, mode) ∈ s.held) :
    s.m.released = (s.held.erase (th, mode)).length ∧
      ∀ e ∈ s.held.erase (th, mode), e.2 = .read := by
  have hlen := List.length_erase_of_mem hheld
  have hpos := List.length_pos_of_mem hheld
  obtain ⟨hcount, w, hw⟩ | ⟨hcount, hread⟩ := hinv.holders
  · rw [hw, List.mem_singleton] at hheld
    simp [hw, hheld, RwMutex.released, hcount]
  · refine ⟨?_, fun e he => hread e (List.mem_of_mem_erase he)⟩
    rw [RwMutex.released, if_neg (by omega)]
    omega

omit [DecidableEq τ] in
theorem RwInv.count_ne_zero (hinv : RwInv s) (hheld : (th, mode) ∈ s.held) :
    s.m.count ≠ 0 := by
  have hpos := List.length_pos_of_mem hheld
  obtain ⟨hcount, -⟩ | ⟨hcount, -⟩ := hinv.holders <;> omega

theorem RwState.wake_held (hasked : ∀ w ∈ woken, s.waiting w = some mode) :
    (s.wake woken).held = s.held ++ woken.map fun w => (w, mode) := by
  have hmap : ∀ l : List τ, (∀ w ∈ l, s.waiting w = some mode) →
      (l.filterMap fun w => (s.waiting w).map fun m => (w, m)) =
        l.map fun w => (w, mode) := by
    intro l
    induction l with
    | nil => intro _; rfl
    | cons w rest ih =>
      intro hl
      have hw := hl w List.mem_cons_self
      have hrest := ih fun x hx => hl x (List.mem_cons_of_mem w hx)
      simp [hw, hrest]
  exact congrArg (s.held ++ ·) (hmap woken hasked)

/-- The unlocking thread passes the lock to `woken`, who are exactly the
threads entitled to it, and nobody else is affected. -/
structure Handoff (s : RwState τ) (th : τ) (mode : LockMode) (woken : List τ)
    (t : RwState τ) : Prop where
  chosen :
    woken =
      if s.held.erase (th, mode) ≠ [] then []
      else if s.m.readWaiters ≠ [] then s.m.readWaiters
      else s.m.writeWaiters.take 1
  granted :
    ∃ asked : τ → LockMode,
      (∀ w ∈ woken, s.waiting w = some (asked w)) ∧
      t.held = s.held.erase (th, mode) ++ woken.map fun w => (w, asked w)
  returned : ∀ w ∈ woken, t.waiting w = none
  others : ∀ x, x ∉ woken → t.waiting x = s.waiting x
  readWaiters : t.m.readWaiters = s.m.readWaiters.filter fun x => x ∉ woken
  writeWaiters : t.m.writeWaiters = s.m.writeWaiters.filter fun x => x ∉ woken

theorem RwInv.handoff (hinv : RwInv s) {held : List (τ × LockMode)}
    (hasked : ∀ w ∈ woken, s.waiting w = some mode)
    (hholders : (m.count = -1 ∧
        ∃ w, held ++ woken.map (fun w => (w, mode)) = [(w, .write)]) ∨
      (m.count = (held ++ woken.map fun w => (w, mode)).length ∧
        ∀ e ∈ held ++ woken.map (fun w => (w, mode)), e.2 = .read))
    (hcounted : m.readWaiterCount = m.readWaiters.length)
    (hblocked : m.readWaiters ≠ [] → m.count = -1)
    (hblocked' : m.writeWaiters ≠ [] → m.count ≠ 0)
    (hread : m.readWaiters = s.m.readWaiters.filter fun x => x ∉ woken)
    (hwrite : m.writeWaiters = s.m.writeWaiters.filter fun x => x ∉ woken) :
    RwInv ({ s with m := m, held := held }.wake woken) where
  holders := by
    have hwake :=
      RwState.wake_held (s := { s with m := m, held := held }) hasked
    rw [hwake]
    exact hholders
  counted := hcounted
  readers_blocked := hblocked
  writers_blocked := hblocked'
  mem_readWaiters x := by
    by_cases hx : x ∈ woken <;>
      simp [hread, hx, hinv.mem_readWaiters]
  mem_writeWaiters x := by
    by_cases hx : x ∈ woken <;>
      simp [hwrite, hx, hinv.mem_writeWaiters]
  nodup_readWaiters := by
    change m.readWaiters.Nodup
    rw [hread]
    exact hinv.nodup_readWaiters.filter _
  nodup_writeWaiters := by
    change m.writeWaiters.Nodup
    rw [hwrite]
    exact hinv.nodup_writeWaiters.filter _

theorem Handoff.of_wake {asked : LockMode}
    (hchosen : woken = if s.held.erase (th, mode) ≠ [] then []
        else if s.m.readWaiters ≠ [] then s.m.readWaiters
        else s.m.writeWaiters.take 1)
    (hasked : ∀ w ∈ woken, s.waiting w = some asked)
    (hread : m.readWaiters = s.m.readWaiters.filter fun x => x ∉ woken)
    (hwrite : m.writeWaiters = s.m.writeWaiters.filter fun x => x ∉ woken) :
    Handoff s th mode woken
      ({ s with m := m, held := s.held.erase (th, mode) }.wake woken) where
  chosen := hchosen
  granted := ⟨fun _ => asked, hasked, RwState.wake_held hasked⟩
  returned w hw := by simp [hw]
  others x hx := by simp [hx]
  readWaiters := hread
  writeWaiters := hwrite

/-- `rwmutex_unlock` by a holder. The cases are those of
`rwmutexUnlock_cases`; only in the first is a reader waiting, since readers
wait for a writer alone. -/
theorem RwInv.unlock (hinv : RwInv s)
    (hheld : (th, mode) ∈ s.held)
    (hunlock : rwmutexUnlock s.m = some (m, woken)) :
    RwInv ({ s with m := m, held := s.held.erase (th, mode) }.wake woken) ∧
      Handoff s th mode woken
        ({ s with m := m, held := s.held.erase (th, mode) }.wake woken) := by
  obtain ⟨hreleased, hrest⟩ := hinv.released hheld
  have hcounted := hinv.counted
  -- the last holder has left exactly when the count has come down to zero
  have hfree : s.m.released = 0 → s.held.erase (th, mode) = [] := fun h =>
    List.eq_nil_of_length_eq_zero (by omega)
  have hnoReader : ¬ 0 < s.m.readWaiterCount → s.m.readWaiters = [] :=
    fun h => List.eq_nil_of_length_eq_zero (by omega)
  have hasked₀ : ∀ w ∈ ([] : List τ), s.waiting w = some .read := by simp
  obtain ⟨hzero, hpos, rfl, rfl⟩ | ⟨hzero, hpos, hnil, rfl, rfl⟩ |
    ⟨w, rest, hzero, hpos, hcons, rfl, rfl⟩ | ⟨hsome, rfl, rfl⟩ :=
    rwmutexUnlock_cases hunlock
  · -- all waiting readers
    have hne : s.m.readWaiters ≠ [] := by
      intro h
      simp [h] at hcounted
      omega
    have hasked : ∀ w ∈ s.m.readWaiters, s.waiting w = some .read :=
      fun w hw => (hinv.mem_readWaiters w).mp hw
    have hread : ([] : List τ) =
        s.m.readWaiters.filter fun x => x ∉ s.m.readWaiters := by simp
    have hwrite : s.m.writeWaiters =
        s.m.writeWaiters.filter fun x => x ∉ s.m.readWaiters := by
      refine (List.filter_eq_self.mpr fun x hx => ?_).symm
      simp [hinv.mem_readWaiters, (hinv.mem_writeWaiters x).mp hx]
    constructor
    · refine hinv.handoff hasked (.inr ?_) rfl (absurd rfl) ?_ hread hwrite
      · rw [hfree hzero]
        simp [hcounted]
      · intro _
        exact hpos.ne'
    · exact .of_wake (by simp [hfree hzero, hne]) hasked hread hwrite
  · -- nobody waits
    have hnone := hnoReader hpos
    constructor
    · refine hinv.handoff hasked₀ (.inr ?_) hcounted
        (absurd hnone) (absurd hnil) (by simp) (by simp)
      simp [hfree hzero]
    · exact .of_wake (by simp [hfree hzero, hnone, hnil]) hasked₀
        (by simp) (by simp)
  · -- the writer that has waited longest
    have hnone := hnoReader hpos
    have hasked : ∀ x ∈ [w], s.waiting x = some .write := by
      intro x hx
      apply (hinv.mem_writeWaiters x).mp
      simp [hcons, List.mem_singleton.mp hx]
    have hnodup := hinv.nodup_writeWaiters
    rw [hcons, List.nodup_cons] at hnodup
    have hwrite : rest = s.m.writeWaiters.filter fun x => x ∉ [w] := by
      rw [hcons]
      simp only [List.mem_singleton, List.filter_cons, not_true, decide_false,
        Bool.false_eq_true, if_false]
      refine (List.filter_eq_self.mpr fun x hx => ?_).symm
      simp only [decide_eq_true_eq]
      rintro rfl
      exact hnodup.1 hx
    constructor
    · exact hinv.handoff hasked (.inl ⟨rfl, w, by simp [hfree hzero]⟩)
        hcounted (fun _ => rfl) (fun _ => by simp) (by simp [hnone]) hwrite
    · exact .of_wake (by simp [hfree hzero, hnone, hcons]) hasked
        (by simp [hnone]) hwrite
  · -- other readers still hold it
    have hheld' : s.held.erase (th, mode) ≠ [] := by
      intro h
      simp [h] at hreleased
      exact hsome hreleased
    have hnone : s.m.readWaiters = [] := by
      by_contra hne
      have := hinv.readers_blocked hne
      exact hsome (by simp [RwMutex.released, this])
    constructor
    · refine hinv.handoff hasked₀ (.inr ?_) hcounted
        (absurd hnone) (fun _ => hsome) (by simp) (by simp)
      rw [List.map_nil, List.append_nil]
      exact ⟨hreleased, hrest⟩
    · exact .of_wake (by simp [hheld']) hasked₀ (by simp) (by simp)

theorem RwInv.next {a : RwAct τ} (hinv : RwInv s)
    (hnext : rwNext s a = some t) : RwInv t := by
  cases a with
  | rdlock th =>
    obtain ⟨hth, rfl⟩ := guarded hnext
    unfold rwmutexRdlock
    split
    · rename_i hfree
      exact hinv.acquireRead th hfree
    · rename_i hbusy
      have hwriter : s.m.count = -1 := by
        obtain ⟨h, -⟩ | ⟨h, -⟩ := hinv.holders <;> omega
      apply hinv.park hth
      · rfl
      · simp [hinv.counted]
      · simp
      · simp
      · exact fun _ => hwriter
      · exact hinv.writers_blocked
  | tryRdlock th =>
    obtain ⟨-, rfl⟩ := guarded hnext
    unfold rwmutexTryRdlock
    split
    · rename_i hfree
      exact hinv.acquireRead th hfree
    · exact hinv
  | wrlock th =>
    obtain ⟨hth, rfl⟩ := guarded hnext
    unfold rwmutexWrlock
    split
    · rename_i hfree
      exact hinv.acquireWrite th hfree
    · rename_i hbusy
      apply hinv.park hth
      · rfl
      · exact hinv.counted
      · simp
      · simp
      · exact hinv.readers_blocked
      · exact fun _ => hbusy
  | tryWrlock th =>
    obtain ⟨-, rfl⟩ := guarded hnext
    unfold rwmutexTryWrlock
    split
    · rename_i hfree
      exact hinv.acquireWrite th hfree
    · exact hinv
  | unlock th mode =>
    simp only [rwNext, Option.ite_none_right_eq_some, Option.map_eq_some_iff]
      at hnext
    obtain ⟨⟨-, hheld⟩, ⟨m, woken⟩, hunlock, rfl⟩ := hnext
    exact (hinv.unlock hheld hunlock).1

theorem rwSystem_inv (hs : (rwSystem τ).Reach anyStep s) : RwInv s :=
  hs.invariant (fun _ => RwInv.init) fun _ _ _ hinv _ hnext => hinv.next hnext

def RwState.readers (s : RwState τ) : List τ :=
  (s.held.filter fun e => e.2 = .read).map Prod.fst

def RwState.writers (s : RwState τ) : List τ :=
  (s.held.filter fun e => e.2 = .write).map Prod.fst

section

omit [DecidableEq τ]

theorem RwState.writers_eq_nil (hread : ∀ e ∈ s.held, e.2 = .read) :
    s.writers = [] := by
  simp only [RwState.writers, List.map_eq_nil_iff, List.filter_eq_nil_iff]
  intro e he
  simp [hread e he]

theorem RwState.readers_length (hread : ∀ e ∈ s.held, e.2 = .read) :
    s.readers.length = s.held.length := by
  rw [RwState.readers, List.length_map, List.filter_eq_self.mpr]
  intro e he
  simp [hread e he]

theorem RwInv.writing (hinv : RwInv s) :
    s.m.count = -1 ↔ (∃ w, s.writers = [w]) ∧ s.readers = [] := by
  obtain ⟨hcount, w, hw⟩ | ⟨hcount, hread⟩ := hinv.holders
  · simp [RwState.writers, RwState.readers, hcount, hw]
  · simp only [RwState.writers_eq_nil hread, List.nil_eq, List.cons_ne_self,
      exists_false, false_and, iff_false]
    omega

theorem RwInv.reading (hinv : RwInv s) (n : ℕ) :
    s.m.count = n ↔ s.readers.length = n ∧ s.writers = [] := by
  obtain ⟨hcount, w, hw⟩ | ⟨hcount, hread⟩ := hinv.holders
  · simp only [RwState.writers, hw, hcount]
    constructor
    · intro h
      omega
    · simp
  · simp only [RwState.writers_eq_nil hread, RwState.readers_length hread,
      and_true]
    omega

end

/-- In every state of every run the counter says who holds the lock, exactly
the parked threads are on the lists and only for a reason, and a holder's
`rwmutex_unlock` succeeds and passes the lock on: to all waiting readers,
otherwise to the writer that has waited longest, each of whom then holds the
lock it asked for. -/
theorem rwmutex_excludes_and_hands_off {s : RwState τ}
    (hs : (rwSystem τ).Reach anyStep s) :
    (s.m.count = -1 ↔ (∃ w, s.writers = [w]) ∧ s.readers = []) ∧
    (∀ n : ℕ, s.m.count = n ↔ s.readers.length = n ∧ s.writers = []) ∧
    s.m.readWaiterCount = s.m.readWaiters.length ∧
    (s.m.count ≠ -1 → s.m.readWaiters = []) ∧
    (s.m.count = 0 → s.m.readWaiters = [] ∧ s.m.writeWaiters = []) ∧
    (∀ th, s.waiting th = some .read ↔ th ∈ s.m.readWaiters) ∧
    (∀ th, s.waiting th = some .write ↔ th ∈ s.m.writeWaiters) ∧
    ∀ th mode, s.waiting th = none → (th, mode) ∈ s.held →
      ∃ t woken, rwNext s (.unlock th mode) = some t ∧
        Handoff s th mode woken t := by
  have hinv := rwSystem_inv hs
  have hread : s.m.count ≠ -1 → s.m.readWaiters = [] := fun h =>
    by_contra fun hne => h (hinv.readers_blocked hne)
  refine ⟨hinv.writing, hinv.reading, hinv.counted, hread, fun h => ⟨?_, ?_⟩,
    fun th => (hinv.mem_readWaiters th).symm,
    fun th => (hinv.mem_writeWaiters th).symm, fun th mode hth hheld => ?_⟩
  · apply hread
    omega
  · exact by_contra fun hne => hinv.writers_blocked hne h
  · have hsome : (rwmutexUnlock s.m).isSome := by
      unfold rwmutexUnlock
      rw [if_neg (hinv.count_ne_zero hheld)]
      repeat' split
      all_goals rfl
    obtain ⟨⟨m, woken⟩, hunlock⟩ := Option.isSome_iff_exists.mp hsome
    refine ⟨_, woken, ?_, (hinv.unlock hheld hunlock).2⟩
    simp [rwNext, hth, hheld, hunlock]

/-- Thread 0 writes while 1 and 2 wait, to read and to write. -/
def rwContendedRun : List (RwAct Nat) :=
  [.wrlock 0, .wrlock 2, .rdlock 1, .tryRdlock 0]

def rwFree : RwState Nat := ⟨rwmutexInit, [], fun _ => none⟩

theorem rwContendedRun_isSome :
    ((rwSystem Nat).exec rwFree rwContendedRun).isSome = true := by
  decide

def rwContended : RwState Nat :=
  ((rwSystem Nat).exec rwFree rwContendedRun).get rwContendedRun_isSome

theorem rwContended_reach : (rwSystem Nat).Reach anyStep rwContended :=
  System.Reach.exec (.init ⟨rfl, rfl, fun _ => rfl⟩) rwContendedRun
    (Option.some_get rwContendedRun_isSome).symm

theorem rwmutex_excludes_and_hands_off_contended :
    rwContended.m.count = -1 ∧
      ∃ t woken, rwNext rwContended (.unlock 0 .write) = some t ∧
        Handoff rwContended 0 .write woken t :=
  have h := rwmutex_excludes_and_hands_off rwContended_reach
  ⟨rfl, h.2.2.2.2.2.2.2 0 .write rfl (by decide)⟩

end Libut.Runtime
