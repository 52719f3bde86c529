import Mathlib.Data.List.Nodup
import Mathlib.Tactic
import Libut.Machine.System

/-!
Mutexes and condition variables (`runtime/sync.c`). Unlocking a mutex somebody
waits for does not free it: `held` stays set and the thread taken off the list
returns from `mutex_lock` as its holder. `condvar_wait` releases the mutex
before it is on the list of the condition variable, with nothing but the
variable's spinlock to keep a signal out in between.

The mutex calls, `condvar_signal` and `condvar_broadcast` are one step each
under their spinlock; `condvar_wait` takes one step to take the spinlock and
then one each to unlock the mutex, to enter the list, to park and, once ready
again, to lock the mutex. There are any number of mutexes `μ` and condition
variables `ν`, used together in any way.
-/

namespace Libut.Runtime

open Function Machine

/-- `mutex_t`; the list is in order of arrival. -/
structure Mutex (τ : Type) where
  held : Bool
  waiters : List τ
  deriving DecidableEq, Repr

/-- `condvar_t`, with the thread that has its spinlock between two steps. -/
structure Condvar (τ : Type) where
  waiterLock : Option τ
  waiters : List τ
  deriving DecidableEq, Repr

section Calls

variable {τ : Type}

def mutexInit : Mutex τ := ⟨false, []⟩

def mutexTryLock (m : Mutex τ) : Mutex τ × Bool :=
  if m.held then (m, false) else ({ m with held := true }, true)

/-- `mutex_lock`; false means that the caller parks. -/
def mutexLock (m : Mutex τ) (myth : τ) : Mutex τ × Bool :=
  if m.held then ({ m with waiters := m.waiters ++ [myth] }, false)
  else ({ m with held := true }, true)

/-- `mutex_unlock` and the thread it makes ready. -/
def mutexUnlock (m : Mutex τ) : Mutex τ × Option τ :=
  match m.waiters with
  | [] => ({ m with held := false }, none)
  | waketh :: rest => ({ m with waiters := rest }, some waketh)

def condvarInit : Condvar τ := ⟨none, []⟩

/-- `condvar_signal` and the threads it makes ready. -/
def condvarSignal (cv : Condvar τ) : Condvar τ × List τ :=
  match cv.waiters with
  | [] => (cv, [])
  | waketh :: rest => ({ cv with waiters := rest }, [waketh])

/-- `condvar_broadcast` and the threads it makes ready, in order. -/
def condvarBroadcast (cv : Condvar τ) : Condvar τ × List τ :=
  ({ cv with waiters := [] }, cv.waiters)

end Calls

/-- Where a thread is. The last five are in `condvar_wait`. -/
inductive CvPc (μ ν : Type)
  | running
  | locking (m : μ)
  | waitLocked (cv : ν) (m : μ)
  | waitReleased (cv : ν) (m : μ)
  | waitQueued (cv : ν) (m : μ)
  | waitParked (cv : ν) (m : μ)
  | waitReady (cv : ν) (m : μ)
  deriving DecidableEq, Repr

/-- The last five fields are history: the threads that mutex calls have
returned to as holders, and the threads that entered and left each list. -/
structure CvState (τ μ ν : Type) where
  mutex : μ → Mutex τ
  cv : ν → Condvar τ
  pc : τ → CvPc μ ν
  owners : μ → List τ
  queued : μ → List τ
  granted : μ → List τ
  cvQueued : ν → List τ
  readied : ν → List τ

inductive CvAct (τ μ ν : Type)
  | tryLock (th : τ) (m : μ)
  | lock (th : τ) (m : μ)
  | unlock (th : τ) (m : μ)
  | wait (th : τ) (cv : ν) (m : μ)
  | proceed (th : τ)
  | signal (th : τ) (cv : ν)
  | broadcast (th : τ) (cv : ν)
  deriving DecidableEq, Repr

variable {τ μ ν : Type} [DecidableEq τ] [DecidableEq μ] [DecidableEq ν]

def CvState.goto (s : CvState τ μ ν) (th : τ) (p : CvPc μ ν) : CvState τ μ ν :=
  { s with pc := update s.pc th p }

/-- `th` returns from a mutex call as the holder. -/
def CvState.acquire (s : CvState τ μ ν) (th : τ) (m : μ) (r : Mutex τ) :
    CvState τ μ ν :=
  { s.goto th .running with
    mutex := update s.mutex m r
    owners := update s.owners m (s.owners m ++ [th]) }

def CvState.lock (s : CvState τ μ ν) (th : τ) (m : μ) :
    Mutex τ × Bool → CvState τ μ ν
  | (r, true) => s.acquire th m r
  | (r, false) =>
    { s.goto th (.locking m) with
      mutex := update s.mutex m r
      queued := update s.queued m (s.queued m ++ [th]) }

/-- `th` has unlocked `m`; the thread made ready returns as its holder. -/
def CvState.unlock (s : CvState τ μ ν) (th : τ) (m : μ) :
    Mutex τ × Option τ → CvState τ μ ν
  | (r, none) =>
    { s with
      mutex := update s.mutex m r
      owners := update s.owners m ((s.owners m).erase th) }
  | (r, some w) =>
    { s.goto w .running with
      mutex := update s.mutex m r
      owners := update s.owners m ((s.owners m).erase th ++ [w])
      granted := update s.granted m (s.granted m ++ [w]) }

def CvPc.ready : CvPc μ ν → CvPc μ ν
  | .waitParked cv m => .waitReady cv m
  | p => p

/-- Threads taken off the list of `cv` are made ready. -/
def CvState.wake (s : CvState τ μ ν) (cv : ν) (r : Condvar τ × List τ) :
    CvState τ μ ν :=
  { s with
    cv := update s.cv cv r.1
    pc := fun th => if th ∈ r.2 then (s.pc th).ready else s.pc th
    readied := update s.readied cv (s.readied cv ++ r.2) }

/-- The next step of a thread inside `condvar_wait`; one that is parked has
none. -/
def cvProceed (s : CvState τ μ ν) (th : τ) : Option (CvState τ μ ν) :=
  match s.pc th with
  | .waitLocked cv m =>
    some ((s.unlock th m (mutexUnlock (s.mutex m))).goto th
      (.waitReleased cv m))
  | .waitReleased cv m =>
    some
      { s.goto th (.waitQueued cv m) with
        cv := update s.cv cv
          { s.cv cv with waiters := (s.cv cv).waiters ++ [th] }
        cvQueued := update s.cvQueued cv (s.cvQueued cv ++ [th]) }
  | .waitQueued cv m =>
    some
      { s.goto th (.waitParked cv m) with
        cv := update s.cv cv { s.cv cv with waiterLock := none } }
  | .waitReady _ m => some (s.lock th m (mutexLock (s.mutex m) th))
  | _ => none

def cvNext (s : CvState τ μ ν) : CvAct τ μ ν → Option (CvState τ μ ν)
  | .tryLock th m =>
    if s.pc th = .running then
      match mutexTryLock (s.mutex m) with
      | (r, true) => some (s.acquire th m r)
      | (_, false) => some s
    else none
  | .lock th m =>
    if s.pc th = .running then
      some (s.lock th m (mutexLock (s.mutex m) th))
    else none
  | .unlock th m =>
    if s.pc th = .running ∧ th ∈ s.owners m then
      some ((s.unlock th m (mutexUnlock (s.mutex m))).goto th .running)
    else none
  | .wait th cv m =>
    if s.pc th = .running ∧ th ∈ s.owners m ∧
        (s.cv cv).waiterLock = none then
      some
        { s.goto th (.waitLocked cv m) with
          cv := update s.cv cv
            { s.cv cv with waiterLock := some th } }
    else none
  | .proceed th => cvProceed s th
  | .signal th cv =>
    if s.pc th = .running ∧ (s.cv cv).waiterLock = none then
      some (s.wake cv (condvarSignal (s.cv cv)))
    else none
  | .broadcast th cv =>
    if s.pc th = .running ∧ (s.cv cv).waiterLock = none then
      some (s.wake cv (condvarBroadcast (s.cv cv)))
    else none

def cvSystem (τ μ ν : Type) [DecidableEq τ] [DecidableEq μ] [DecidableEq ν] :
    System (CvState τ μ ν) (CvAct τ μ ν) where
  init s :=
    (∀ m, s.mutex m = mutexInit ∧ s.owners m = [] ∧ s.queued m = [] ∧
      s.granted m = []) ∧
    (∀ cv, s.cv cv = condvarInit ∧ s.cvQueued cv = [] ∧ s.readied cv = []) ∧
    ∀ th, s.pc th = .running
  next := cvNext

def CvPc.holdsLock (cv : ν) : CvPc μ ν → Bool
  | .waitLocked c _ => c = cv
  | .waitReleased c _ => c = cv
  | .waitQueued c _ => c = cv
  | _ => false

def CvPc.onList (cv : ν) : CvPc μ ν → Bool
  | .waitQueued c _ => c = cv
  | .waitParked c _ => c = cv
  | _ => false

/-- The thread has released `m` in `condvar_wait` and is not ready yet. -/
def CvPc.asleep (cv : ν) (m : μ) : CvPc μ ν → Bool
  | .waitReleased c m' => c = cv ∧ m' = m
  | .waitQueued c m' => c = cv ∧ m' = m
  | .waitParked c m' => c = cv ∧ m' = m
  | _ => false

def CvPc.onMutex (m : μ) : CvPc μ ν → Bool
  | .locking m' => m' = m
  | _ => false

def CvPc.releasing (m : μ) : CvPc μ ν → Bool
  | .waitLocked _ m' => m' = m
  | _ => false

/-- One mutex: it is held by nobody, and then nobody waits, or by one thread. -/
structure MutexOk (s : CvState τ μ ν) (m : μ) : Prop where
  owned :
    ((s.mutex m).held = false ∧ s.owners m = [] ∧ (s.mutex m).waiters = []) ∨
    ((s.mutex m).held = true ∧ ∃ x, s.owners m = [x])
  mem : ∀ th, th ∈ (s.mutex m).waiters ↔ (s.pc th).onMutex m = true
  nodup : (s.mutex m).waiters.Nodup
  fifo : s.queued m = s.granted m ++ (s.mutex m).waiters
  releasing : ∀ th, (s.pc th).releasing m = true → th ∈ s.owners m

/-- One condition variable: its spinlock is with the thread that is between
taking it and parking, and its list is the threads that have entered it. -/
structure CondvarOk (s : CvState τ μ ν) (cv : ν) : Prop where
  lock : ∀ th, (s.cv cv).waiterLock = some th ↔ (s.pc th).holdsLock cv = true
  mem : ∀ th, th ∈ (s.cv cv).waiters ↔ (s.pc th).onList cv = true
  nodup : (s.cv cv).waiters.Nodup
  fifo : s.cvQueued cv = s.readied cv ++ (s.cv cv).waiters

structure CvInv (s : CvState τ μ ν) : Prop where
  mutexes : ∀ m, MutexOk s m
  condvars : ∀ cv, CondvarOk s cv

variable {s t : CvState τ μ ν} {th w : τ} {m : μ} {cv : ν} {p : CvPc μ ν}

attribute [simp] CvState.goto CvState.acquire CvState.lock CvState.unlock
  CvState.wake

theorem CvInv.init (h : (cvSystem τ μ ν).init s) : CvInv s := by
  obtain ⟨hmutex, hcv, hpc⟩ := h
  refine ⟨fun m => ?_, fun cv => ?_⟩
  · obtain ⟨hm, howners, hqueued, hgranted⟩ := hmutex m
    constructor <;>
      simp [hm, howners, hqueued, hgranted, hpc, mutexInit, CvPc.onMutex,
        CvPc.releasing]
  · obtain ⟨hc, hqueued, hreadied⟩ := hcv cv
    constructor <;>
      simp [hc, hqueued, hreadied, hpc, condvarInit, CvPc.holdsLock,
        CvPc.onList]

omit [DecidableEq τ] [DecidableEq ν] in
theorem MutexOk.frame (h : MutexOk s m) (hmutex : t.mutex m = s.mutex m)
    (howners : t.owners m = s.owners m) (hqueued : t.queued m = s.queued m)
    (hgranted : t.granted m = s.granted m)
    (hon : ∀ th, (t.pc th).onMutex m = (s.pc th).onMutex m)
    (hreleasing : ∀ th, (t.pc th).releasing m = true → th ∈ s.owners m) :
    MutexOk t m where
  owned := by
    rw [hmutex, howners]
    exact h.owned
  mem th := by
    rw [hmutex, hon]
    exact h.mem th
  nodup := by
    rw [hmutex]
    exact h.nodup
  fifo := by
    rw [hmutex, hqueued, hgranted]
    exact h.fifo
  releasing th hth := by
    rw [howners]
    exact hreleasing th hth

omit [DecidableEq τ] [DecidableEq μ] in
theorem CondvarOk.frame (h : CondvarOk s cv) (hcv : t.cv cv = s.cv cv)
    (hqueued : t.cvQueued cv = s.cvQueued cv)
    (hreadied : t.readied cv = s.readied cv)
    (hlock : ∀ th, (t.pc th).holdsLock cv = (s.pc th).holdsLock cv)
    (hon : ∀ th, (t.pc th).onList cv = (s.pc th).onList cv) :
    CondvarOk t cv where
  lock th := by
    rw [hcv, hlock]
    exact h.lock th
  mem th := by
    rw [hcv, hon]
    exact h.mem th
  nodup := by
    rw [hcv]
    exact h.nodup
  fifo := by
    rw [hcv, hqueued, hreadied]
    exact h.fifo

omit [DecidableEq μ] [DecidableEq ν] in
theorem update_pc_congr {β : Type} (f : CvPc μ ν → β) {pc : τ → CvPc μ ν}
    (hp : f p = f (pc th)) (x : τ) : f (update pc th p x) = f (pc x) := by
  obtain rfl | hx := eq_or_ne x th
  · rw [update_self, hp]
  · rw [update_of_ne hx]

omit [DecidableEq ν] in
theorem MutexOk.move (h : MutexOk s m) (hpc : t.pc = update s.pc th p)
    (hmutex : t.mutex m = s.mutex m) (howners : t.owners m = s.owners m)
    (hqueued : t.queued m = s.queued m) (hgranted : t.granted m = s.granted m)
    (hon : p.onMutex m = (s.pc th).onMutex m)
    (hreleasing : p.releasing m = (s.pc th).releasing m) : MutexOk t m := by
  apply h.frame hmutex howners hqueued hgranted
  · intro x
    rw [hpc]
    exact update_pc_congr (CvPc.onMutex m) hon x
  · intro x hx
    rw [hpc, update_pc_congr (CvPc.releasing m) hreleasing x] at hx
    exact h.releasing x hx

omit [DecidableEq μ] in
theorem CondvarOk.move (h : CondvarOk s cv) (hpc : t.pc = update s.pc th p)
    (hcv : t.cv cv = s.cv cv) (hqueued : t.cvQueued cv = s.cvQueued cv)
    (hreadied : t.readied cv = s.readied cv)
    (hlock : p.holdsLock cv = (s.pc th).holdsLock cv)
    (hon : p.onList cv = (s.pc th).onList cv) : CondvarOk t cv := by
  apply h.frame hcv hqueued hreadied
  · intro x
    rw [hpc]
    exact update_pc_congr (CvPc.holdsLock cv) hlock x
  · intro x
    rw [hpc]
    exact update_pc_congr (CvPc.onList cv) hon x

def CvPc.Away (p : CvPc μ ν) : Prop :=
  p = .running ∨ ∃ cv m, p = .waitReady cv m

omit [DecidableEq ν] in
theorem CvPc.Away.onMutex (h : p.Away) (m : μ) : p.onMutex m = false := by
  obtain rfl | ⟨cv, m', rfl⟩ := h <;> rfl

omit [DecidableEq ν] in
theorem CvPc.Away.releasing (h : p.Away) (m : μ) : p.releasing m = false := by
  obtain rfl | ⟨cv, m', rfl⟩ := h <;> rfl

omit [DecidableEq μ] in
theorem CvPc.Away.holdsLock (h : p.Away) (cv : ν) : p.holdsLock cv = false := by
  obtain rfl | ⟨cv', m', rfl⟩ := h <;> rfl

omit [DecidableEq μ] in
theorem CvPc.Away.onList (h : p.Away) (cv : ν) : p.onList cv = false := by
  obtain rfl | ⟨cv', m', rfl⟩ := h <;> rfl

omit [DecidableEq μ] in
theorem CondvarOk.ofAway (h : CondvarOk s cv) (hpc : t.pc = update s.pc th p)
    (hcv : t.cv = s.cv) (hqueued : t.cvQueued = s.cvQueued)
    (hreadied : t.readied = s.readied) (haway : (s.pc th).Away)
    (hlock : p.holdsLock cv = false) (hon : p.onList cv = false) :
    CondvarOk t cv := by
  apply h.move hpc (congrFun hcv cv) (congrFun hqueued cv)
    (congrFun hreadied cv)
  · rw [hlock, haway.holdsLock]
  · rw [hon, haway.onList]

theorem CvInv.acquire (hinv : CvInv s)
    (haway : (s.pc th).Away) (hfree : (s.mutex m).held = false) :
    CvInv (s.acquire th m { s.mutex m with held := true }) := by
  refine ⟨fun m' => ?_, fun cv =>
    (hinv.condvars cv).ofAway rfl rfl rfl rfl haway rfl rfl⟩
  obtain hne | rfl := ne_or_eq m' m
  · apply (hinv.mutexes m').move rfl
    · exact update_of_ne hne _ _
    · exact update_of_ne hne _ _
    · rfl
    · rfl
    · exact (haway.onMutex m').symm
    · exact (haway.releasing m').symm
  have hm := hinv.mutexes m'
  obtain ⟨-, hnone, hnil⟩ | ⟨hheld, -⟩ := hm.owned
  · have hon : ∀ x, CvPc.onMutex m' (update s.pc th .running x) =
        (s.pc x).onMutex m' := update_pc_congr _ (haway.onMutex m').symm
    have hrel : ∀ x, CvPc.releasing m' (update s.pc th .running x) =
        (s.pc x).releasing m' := update_pc_congr _ (haway.releasing m').symm
    exact
      { owned := .inr (by simp [hnone])
        mem := fun x => by
          simpa [hon x] using hm.mem x
        nodup := by simpa using hm.nodup
        fifo := by simpa using hm.fifo
        releasing := fun x hx => by
          have hx' := hm.releasing x ((hrel x).symm.trans hx)
          simp [hnone] at hx' }
  · rw [hfree] at hheld
    cases hheld

theorem CvInv.park (hinv : CvInv s)
    (haway : (s.pc th).Away) (hheld : (s.mutex m).held = true) :
    CvInv (s.lock th m
      ({ s.mutex m with waiters := (s.mutex m).waiters ++ [th] }, false)) := by
  refine ⟨fun m' => ?_, fun cv =>
    (hinv.condvars cv).ofAway rfl rfl rfl rfl haway rfl rfl⟩
  obtain hne | rfl := ne_or_eq m' m
  · apply (hinv.mutexes m').move rfl
    · exact update_of_ne hne _ _
    · rfl
    · exact update_of_ne hne _ _
    · rfl
    · rw [haway.onMutex m']
      simp [CvPc.onMutex, hne.symm]
    · exact (haway.releasing m').symm
  have hm := hinv.mutexes m'
  have hnot : th ∉ (s.mutex m').waiters := by
    simp [hm.mem, haway.onMutex m']
  have hrel : ∀ x,
      CvPc.releasing m' (update s.pc th (.locking m') x) =
        (s.pc x).releasing m' := update_pc_congr _ (haway.releasing m').symm
  exact
    { owned := by
        obtain ⟨hfree, -⟩ | ⟨-, howner⟩ := hm.owned
        · rw [hheld] at hfree
          cases hfree
        · exact .inr ⟨by simpa using hheld, howner⟩
      mem := fun x => by
        obtain rfl | hx := eq_or_ne x th
        · simp [CvPc.onMutex]
        · simp [hx, hm.mem]
      nodup := by
        simpa using List.Nodup.concat hnot hm.nodup
      fifo := by simp [hm.fifo]
      releasing := fun x hx => hm.releasing x ((hrel x).symm.trans hx) }

theorem CvInv.lock (hinv : CvInv s) (m : μ) (haway : (s.pc th).Away) :
    CvInv (s.lock th m (mutexLock (s.mutex m) th)) := by
  unfold mutexLock
  split
  · rename_i hheld
    exact hinv.park haway hheld
  · rename_i hfree
    exact hinv.acquire haway (by simpa using hfree)

omit [DecidableEq τ] [DecidableEq ν] in
theorem MutexOk.unlock_cases (h : MutexOk s m) (hown : th ∈ s.owners m) :
    (s.mutex m).held = true ∧ s.owners m = [th] ∧
      (((s.mutex m).waiters = [] ∧
          mutexUnlock (s.mutex m) = (⟨false, []⟩, none)) ∨
        ∃ w rest, (s.mutex m).waiters = w :: rest ∧
          mutexUnlock (s.mutex m) = (⟨true, rest⟩, some w)) := by
  obtain ⟨-, hnone, -⟩ | ⟨hheld, x, hx⟩ := h.owned
  · simp [hnone] at hown
  rw [hx, List.mem_singleton] at hown
  refine ⟨hheld, hown ▸ hx, ?_⟩
  unfold mutexUnlock
  split
  · rename_i hnil
    exact .inl ⟨hnil, by rw [hnil]⟩
  · rename_i w rest hcons
    exact .inr ⟨w, rest, hcons, by rw [hheld]⟩

omit [DecidableEq ν] in
theorem CvPc.onMutex_iff : p.onMutex m = true ↔ p = .locking m := by
  cases p <;> simp [CvPc.onMutex]

omit [DecidableEq ν] in
theorem MutexOk.unlock_congr (h : MutexOk s m) (hown : th ∈ s.owners m)
    (hth : s.pc th ≠ .locking m) {β : Type} (f : CvPc μ ν → β)
    (hp : f p = f (s.pc th)) (hw : f .running = f (.locking m)) (x : τ) :
    f (((s.unlock th m (mutexUnlock (s.mutex m))).goto th p).pc x) =
      f (s.pc x) := by
  obtain ⟨-, -, ⟨-, hunlock⟩ | ⟨w, rest, hcons, hunlock⟩⟩ :=
    h.unlock_cases hown
  · rw [hunlock]
    exact update_pc_congr f hp x
  · rw [hunlock]
    have hpcw : s.pc w = .locking m := by
      rw [← CvPc.onMutex_iff, ← h.mem, hcons]
      exact List.mem_cons_self
    have hne : th ≠ w := fun heq => hth (heq ▸ hpcw)
    calc
      f (update (update s.pc w .running) th p x)
        = f (update s.pc w .running x) := by
            apply update_pc_congr
            rw [update_of_ne hne, hp]
      _ = f (s.pc x) := by
            apply update_pc_congr
            rw [hw, hpcw]

omit [DecidableEq ν] in
theorem MutexOk.unlock (h : MutexOk s m) (hown : th ∈ s.owners m)
    (hth : s.pc th ≠ .locking m) (hon : p.onMutex m = false)
    (hreleasing : p.releasing m = false) :
    MutexOk ((s.unlock th m (mutexUnlock (s.mutex m))).goto th p) m := by
  obtain ⟨-, howner, ⟨hnil, hunlock⟩ | ⟨w, rest, hcons, hunlock⟩⟩ :=
    h.unlock_cases hown
  -- nobody else is about to release what only `th` holds
  all_goals
    have hrel : ∀ x, x ≠ th → (s.pc x).releasing m ≠ true := fun x hx hr =>
      hx (List.mem_singleton.mp (howner ▸ h.releasing x hr))
    rw [hunlock]
  · exact
      { owned := .inl (by simp [howner])
        mem := fun x => by
          obtain rfl | hx := eq_or_ne x th
          · simp [hon]
          · simp [hx, ← h.mem, hnil]
        nodup := by simp
        fifo := by simp [h.fifo, hnil]
        releasing := fun x hx => by
          obtain rfl | hne := eq_or_ne x th
          · simp [hreleasing] at hx
          · simp [hne, hrel x hne] at hx }
  · have hpcw : s.pc w = .locking m := by
      rw [← CvPc.onMutex_iff, ← h.mem, hcons]
      exact List.mem_cons_self
    have hnodup := h.nodup
    rw [hcons, List.nodup_cons] at hnodup
    exact
      { owned := .inr (by simp [howner])
        mem := fun x => by
          obtain rfl | hx := eq_or_ne x th
          · have hnot : x ∉ rest := fun hmem => hth (by
              rw [← CvPc.onMutex_iff, ← h.mem, hcons]
              exact List.mem_cons_of_mem w hmem)
            simp [hon, hnot]
          obtain rfl | hxw := eq_or_ne x w
          · simp [hx, CvPc.onMutex, hnodup.1]
          · simp [hx, hxw, ← h.mem, hcons]
        nodup := by simpa using hnodup.2
        fifo := by simp [h.fifo, hcons]
        releasing := fun x hx => by
          obtain rfl | hne := eq_or_ne x th
          · simp [hreleasing] at hx
          obtain rfl | hxw := eq_or_ne x w
          · simp [howner]
          · simp [hne, hxw, hrel x hne] at hx }

theorem CvInv.unlock (hinv : CvInv s) (hown : th ∈ s.owners m)
    (hpc : (s.pc th = .running ∧ p = .running) ∨
      ∃ cv, s.pc th = .waitLocked cv m ∧ p = .waitReleased cv m) :
    CvInv ((s.unlock th m (mutexUnlock (s.mutex m))).goto th p) := by
  have hm := hinv.mutexes m
  have hth : s.pc th ≠ .locking m := by
    obtain ⟨h, -⟩ | ⟨cv, h, -⟩ := hpc <;> simp [h]
  have hcongr : ∀ {β : Type} (f : CvPc μ ν → β), f p = f (s.pc th) →
      f .running = f (.locking m) → ∀ x,
      f (((s.unlock th m (mutexUnlock (s.mutex m))).goto th p).pc x) =
        f (s.pc x) := fun f => hm.unlock_congr hown hth f
  have hcases := hm.unlock_cases hown
  refine ⟨fun m' => ?_, fun cv => ?_⟩
  · obtain hne | rfl := ne_or_eq m' m
    · have hon := hcongr (CvPc.onMutex m')
        (by obtain ⟨h, rfl⟩ | ⟨cv, h, rfl⟩ := hpc <;> simp [h, CvPc.onMutex])
        (by simp [CvPc.onMutex, hne.symm])
      have hrel := hcongr (CvPc.releasing m')
        (by
          obtain ⟨h, rfl⟩ | ⟨cv, h, rfl⟩ := hpc <;>
            simp [h, CvPc.releasing, hne.symm]) rfl
      obtain ⟨-, -, ⟨-, hunlock⟩ | ⟨w, rest, -, hunlock⟩⟩ := hcases
      all_goals
        rw [hunlock] at hon hrel ⊢
        exact (hinv.mutexes m').frame (update_of_ne hne _ _)
          (update_of_ne hne _ _) rfl
          (by simp [hne]) hon
          fun x hx => (hinv.mutexes m').releasing x ((hrel x).symm.trans hx)
    · have hp : p.onMutex m' = false ∧ p.releasing m' = false := by
        obtain ⟨-, rfl⟩ | ⟨cv, -, rfl⟩ := hpc <;> exact ⟨rfl, rfl⟩
      exact hm.unlock hown hth hp.1 hp.2
  · have hlock := hcongr (CvPc.holdsLock cv)
      (by obtain ⟨h, rfl⟩ | ⟨cv', h, rfl⟩ := hpc <;> simp [h, CvPc.holdsLock])
      rfl
    have hon := hcongr (CvPc.onList cv)
      (by obtain ⟨h, rfl⟩ | ⟨cv', h, rfl⟩ := hpc <;> simp [h, CvPc.onList])
      rfl
    obtain ⟨-, -, ⟨-, hunlock⟩ | ⟨w, rest, -, hunlock⟩⟩ := hcases
    all_goals
      rw [hunlock] at hlock hon ⊢
      exact (hinv.condvars cv).frame rfl rfl rfl hlock hon

/-- A thread has taken or dropped the spinlock of `cv`, on the way to a point
with the same place on the lists. -/
theorem CvInv.relocked (hinv : CvInv s) {l : Option τ}
    (hon : ∀ cv', p.onList cv' = (s.pc th).onList cv')
    (hheld : ∀ cv', cv' ≠ cv → p.holdsLock cv' = (s.pc th).holdsLock cv')
    (hlock : ∀ x, l = some x ↔ (update s.pc th p x).holdsLock cv = true)
    (cv' : ν) :
    CondvarOk { s.goto th p with
      cv := update s.cv cv { s.cv cv with waiterLock := l } } cv' := by
  have hcv := hinv.condvars cv'
  obtain hne | rfl := ne_or_eq cv' cv
  · exact hcv.move rfl (update_of_ne hne _ _) rfl rfl (hheld cv' hne) (hon cv')
  have hon' := update_pc_congr (CvPc.onList cv') (hon cv')
  exact
    { lock := by simpa using hlock
      mem := fun x => by simpa [hon' x] using hcv.mem x
      nodup := by simpa using hcv.nodup
      fifo := by simpa using hcv.fifo }

theorem CvInv.wait (hinv : CvInv s)
    (hrun : s.pc th = .running) (hown : th ∈ s.owners m)
    (hlock : (s.cv cv).waiterLock = none) :
    CvInv { s.goto th (.waitLocked cv m) with
      cv := update s.cv cv
        { s.cv cv with waiterLock := some th } } := by
  refine ⟨fun m' => ?_, hinv.relocked (fun cv' => ?_) (fun cv' hne => ?_)
    fun x => ?_⟩
  · refine (hinv.mutexes m').frame rfl rfl rfl rfl ?_ ?_
    · apply update_pc_congr
      simp [hrun, CvPc.onMutex]
    · intro x hx
      obtain rfl | hne := eq_or_ne x th
      · have hm : m = m' := by simpa [CvPc.releasing] using hx
        exact hm ▸ hown
      · apply (hinv.mutexes m').releasing x
        simpa [hne] using hx
  · simp [hrun, CvPc.onList]
  · simp [hrun, CvPc.holdsLock, hne.symm]
  · have hnone : (s.pc x).holdsLock cv = false := by
      rw [← Bool.not_eq_true, ← (hinv.condvars cv).lock, hlock]
      exact nofun
    obtain rfl | hx := eq_or_ne x th
    · simp [CvPc.holdsLock]
    · simp [hx, hx.symm, hnone]

theorem CvInv.mutexes_of_waiting (hinv : CvInv s)
    (hpc : t.pc = update s.pc th p) (hmutex : t.mutex = s.mutex)
    (howners : t.owners = s.owners) (hqueued : t.queued = s.queued)
    (hgranted : t.granted = s.granted)
    (hon : ∀ m, p.onMutex m = (s.pc th).onMutex m)
    (hreleasing : ∀ m, p.releasing m = (s.pc th).releasing m) (m : μ) :
    MutexOk t m :=
  (hinv.mutexes m).move hpc (congrFun hmutex m) (congrFun howners m)
    (congrFun hqueued m) (congrFun hgranted m) (hon m) (hreleasing m)

theorem CvInv.enqueue (hinv : CvInv s)
    (hpc : s.pc th = .waitReleased cv m) :
    CvInv { s.goto th (.waitQueued cv m) with
      cv := update s.cv cv
        { s.cv cv with waiters := (s.cv cv).waiters ++ [th] }
      cvQueued := update s.cvQueued cv (s.cvQueued cv ++ [th]) } := by
  refine ⟨hinv.mutexes_of_waiting rfl rfl rfl rfl rfl
    (fun m' => by rw [hpc]; rfl) (fun m' => by rw [hpc]; rfl), fun cv' => ?_⟩
  obtain hne | rfl := ne_or_eq cv' cv
  · refine (hinv.condvars cv').move rfl (update_of_ne hne _ _)
      (update_of_ne hne _ _) rfl ?_ ?_
    · simp [hpc, CvPc.holdsLock]
    · simp [hpc, CvPc.onList, hne.symm]
  have hcv := hinv.condvars cv'
  have hnot : th ∉ (s.cv cv').waiters := by simp [hcv.mem, hpc, CvPc.onList]
  have hlock : ∀ x, CvPc.holdsLock cv'
      (update s.pc th (.waitQueued cv' m) x) =
      (s.pc x).holdsLock cv' := by
    apply update_pc_congr
    simp [hpc, CvPc.holdsLock]
  exact
    { lock := fun x => by simpa [hlock x] using hcv.lock x
      mem := fun x => by
        obtain rfl | hx := eq_or_ne x th
        · simp [CvPc.onList]
        · simp [hx, hcv.mem]
      nodup := by simpa using List.Nodup.concat hnot hcv.nodup
      fifo := by simp [hcv.fifo] }

theorem CvInv.parkQueued (hinv : CvInv s)
    (hpc : s.pc th = .waitQueued cv m) :
    CvInv { s.goto th (.waitParked cv m) with
      cv := update s.cv cv
        { s.cv cv with waiterLock := none } } := by
  refine ⟨hinv.mutexes_of_waiting rfl rfl rfl rfl rfl
    (fun m' => by rw [hpc]; rfl) (fun m' => by rw [hpc]; rfl),
    hinv.relocked (fun cv' => ?_) (fun cv' hne => ?_) fun x => ?_⟩
  · simp [hpc, CvPc.onList]
  · simp [hpc, CvPc.holdsLock, hne.symm]
  · have hth : (s.cv cv).waiterLock = some th := by
      rw [(hinv.condvars cv).lock, hpc]
      simp [CvPc.holdsLock]
    obtain rfl | hx := eq_or_ne x th
    · simp [CvPc.holdsLock]
    · simp [hx, ← (hinv.condvars cv).lock, hth, hx.symm]

section Ready

variable (p : CvPc μ ν)

omit [DecidableEq ν] in
@[simp] theorem CvPc.ready_onMutex (m : μ) :
    p.ready.onMutex m = p.onMutex m := by
  cases p <;> rfl

omit [DecidableEq ν] in
@[simp] theorem CvPc.ready_releasing (m : μ) :
    p.ready.releasing m = p.releasing m := by
  cases p <;> rfl

omit [DecidableEq μ] in
@[simp] theorem CvPc.ready_holdsLock (cv : ν) :
    p.ready.holdsLock cv = p.holdsLock cv := by
  cases p <;> rfl

end Ready

omit [DecidableEq τ] [DecidableEq μ] in
theorem CondvarOk.parked (h : CondvarOk s cv)
    (hlock : (s.cv cv).waiterLock = none) {x : τ} (hx : x ∈ (s.cv cv).waiters) :
    ∃ m, s.pc x = .waitParked cv m := by
  have hon := (h.mem x).mp hx
  have hnot : (s.pc x).holdsLock cv ≠ true := by
    rw [Ne, ← h.lock, hlock]
    exact nofun
  cases hpc : s.pc x with
  | waitQueued c m =>
    rw [hpc] at hon hnot
    exact absurd hon hnot
  | waitParked c m =>
    have hc : c = cv := by simpa [hpc, CvPc.onList] using hon
    exact ⟨m, by rw [hc]⟩
  | running | locking | waitLocked | waitReleased | waitReady =>
    simp [hpc, CvPc.onList] at hon

theorem CvInv.wake (hinv : CvInv s)
    (hlock : (s.cv cv).waiterLock = none) {woken rest : List τ}
    (hsplit : (s.cv cv).waiters = woken ++ rest) :
    CvInv (s.wake cv ({ s.cv cv with waiters := rest }, woken)) := by
  have hcv := hinv.condvars cv
  have hparked : ∀ x ∈ woken, ∃ m, s.pc x = .waitParked cv m := fun x hx =>
    hcv.parked hlock (hsplit ▸ List.mem_append_left rest hx)
  have hholds : ∀ cv' x,
      CvPc.holdsLock cv' (if x ∈ woken then (s.pc x).ready else s.pc x) =
        (s.pc x).holdsLock cv' := by
    intro cv' x
    split <;> simp
  refine ⟨fun m => ?_, fun cv' => ?_⟩
  · refine (hinv.mutexes m).frame rfl rfl rfl rfl ?_ ?_
    · intro x
      simp only [CvState.wake]
      split <;> simp
    · intro x hx
      apply (hinv.mutexes m).releasing x
      simp only [CvState.wake] at hx
      split at hx <;> simpa using hx
  obtain hne | rfl := ne_or_eq cv' cv
  · refine (hinv.condvars cv').frame (update_of_ne hne _ _) rfl
      (update_of_ne hne _ _) (hholds cv') ?_
    intro x
    simp only [CvState.wake]
    split
    · rename_i hx
      obtain ⟨m, hm⟩ := hparked x hx
      simp [hm, CvPc.ready, CvPc.onList, hne.symm]
    · rfl
  have hnodup := hcv.nodup
  rw [hsplit, List.nodup_append'] at hnodup
  obtain ⟨-, hrest, hdisjoint⟩ := hnodup
  exact
    { lock := fun x => by
        simpa [hholds cv' x] using hcv.lock x
      mem := fun x => by
        by_cases hx : x ∈ woken
        · obtain ⟨m, hm⟩ := hparked x hx
          simp [hx, hm, CvPc.ready, CvPc.onList,
            List.disjoint_left.mp hdisjoint hx]
        · simp [hx, ← hcv.mem, hsplit]
      nodup := by simpa using hrest
      fifo := by simp [hcv.fifo, hsplit] }

theorem CvInv.signal (hinv : CvInv s) (hlock : (s.cv cv).waiterLock = none) :
    CvInv (s.wake cv (condvarSignal (s.cv cv))) := by
  unfold condvarSignal
  split
  · have hsplit : (s.cv cv).waiters = [] ++ (s.cv cv).waiters := rfl
    exact hinv.wake hlock hsplit
  · rename_i w rest hcons
    exact hinv.wake hlock (by simp [hcons])

theorem CvInv.next {a : CvAct τ μ ν} (hinv : CvInv s)
    (hnext : cvNext s a = some t) : CvInv t := by
  cases a with
  | tryLock th m =>
    simp only [cvNext, mutexTryLock] at hnext
    split at hnext
    · rename_i hrun
      by_cases hheld : (s.mutex m).held = true
      · simp only [hheld, if_true, Option.some.injEq] at hnext
        exact hnext ▸ hinv
      · simp only [hheld] at hnext
        cases hnext
        exact hinv.acquire (.inl hrun) (by simpa using hheld)
    · cases hnext
  | lock th m =>
    obtain ⟨hrun, rfl⟩ := guarded hnext
    exact hinv.lock m (.inl hrun)
  | unlock th m =>
    obtain ⟨⟨hrun, hown⟩, rfl⟩ := guarded hnext
    exact hinv.unlock hown (.inl ⟨hrun, rfl⟩)
  | wait th cv m =>
    obtain ⟨⟨hrun, hown, hlock⟩, rfl⟩ := guarded hnext
    exact hinv.wait hrun hown hlock
  | proceed th =>
    simp only [cvNext, cvProceed] at hnext
    split at hnext
    · rename_i cv m hpc
      cases hnext
      have hown := (hinv.mutexes m).releasing th (by simp [hpc, CvPc.releasing])
      exact hinv.unlock hown (.inr ⟨cv, hpc, rfl⟩)
    · rename_i cv m hpc
      cases hnext
      exact hinv.enqueue hpc
    · rename_i cv m hpc
      cases hnext
      exact hinv.parkQueued hpc
    · rename_i cv m hpc
      cases hnext
      exact hinv.lock m (.inr ⟨cv, m, hpc⟩)
    · cases hnext
  | signal th cv =>
    obtain ⟨⟨-, hlock⟩, rfl⟩ := guarded hnext
    exact hinv.signal hlock
  | broadcast th cv =>
    obtain ⟨⟨-, hlock⟩, rfl⟩ := guarded hnext
    exact hinv.wake hlock (List.append_nil _).symm

theorem cvSystem_inv (hs : (cvSystem τ μ ν).Reach anyStep s) : CvInv s :=
  hs.invariant (fun _ => CvInv.init) fun _ _ _ hinv _ hnext => hinv.next hnext

omit [DecidableEq τ] in
/-- A thread that has released the mutex in `condvar_wait` and is not ready is
on the list as soon as the spinlock is free. -/
theorem CondvarOk.asleep_mem (h : CondvarOk s cv)
    (hlock : (s.cv cv).waiterLock = none) (hw : (s.pc w).asleep cv m = true) :
    w ∈ (s.cv cv).waiters ∧ s.pc w = .waitParked cv m := by
  have hnot : (s.pc w).holdsLock cv ≠ true := by
    rw [Ne, ← h.lock, hlock]
    exact nofun
  rw [h.mem]
  cases hpc : s.pc w with
  | waitReleased c m' | waitQueued c m' =>
    simp [hpc, CvPc.asleep] at hw
    simp [hpc, CvPc.holdsLock, hw.1] at hnot
  | waitParked c m' =>
    simp [hpc, CvPc.asleep] at hw
    simp [CvPc.onList, hw.1, hw.2]
  | running | locking | waitLocked | waitReady =>
    simp [hpc, CvPc.asleep] at hw

/-- `n` steps of `w` bring the thread to drop the spinlock of `cv`. -/
def CvState.DropsIn (s : CvState τ μ ν) (w : τ) (cv : ν) (n : ℕ) : Prop :=
  ∃ t, (cvSystem τ μ ν).exec s (List.replicate n (.proceed w)) = some t ∧
    (t.cv cv).waiterLock = none

theorem CvState.DropsIn.succ {u : CvState τ μ ν} {n : ℕ}
    (hstep : cvProceed s w = some u) (h : u.DropsIn w cv n) :
    s.DropsIn w cv (n + 1) := by
  obtain ⟨t, hexec, hlock⟩ := h
  exact ⟨t, System.exec_cons.mpr ⟨u, hstep, hexec⟩, hlock⟩

theorem CvState.dropsIn_queued (hpc : s.pc w = .waitQueued cv m) :
    s.DropsIn w cv 1 := by
  obtain ⟨u, hstep, hlock⟩ :
      ∃ u, cvProceed s w = some u ∧ (u.cv cv).waiterLock = none := by
    simp [cvProceed, hpc]
  exact .succ hstep ⟨u, rfl, hlock⟩

theorem CvState.dropsIn_released (hpc : s.pc w = .waitReleased cv m) :
    s.DropsIn w cv 2 := by
  obtain ⟨u, hstep, hu⟩ :
      ∃ u, cvProceed s w = some u ∧ u.pc w = .waitQueued cv m := by
    simp [cvProceed, hpc]
  exact .succ hstep (dropsIn_queued hu)

theorem CvState.dropsIn_locked (hpc : s.pc w = .waitLocked cv m) :
    s.DropsIn w cv 3 := by
  obtain ⟨u, hstep, hu⟩ :
      ∃ u, cvProceed s w = some u ∧ u.pc w = .waitReleased cv m := by
    simp [cvProceed, hpc]
  exact .succ hstep (dropsIn_released hu)

/-- The thread with the spinlock drops it after at most three steps of its
own, so a call that finds the spinlock taken gets it. -/
theorem CvInv.spinlock_dropped (hinv : CvInv s)
    (hlock : (s.cv cv).waiterLock = some w) : ∃ n ≤ 3, s.DropsIn w cv n := by
  have hholds := ((hinv.condvars cv).lock w).mp hlock
  cases hpc : s.pc w with
  | waitLocked c m =>
    have hc : c = cv := by simpa [hpc, CvPc.holdsLock] using hholds
    exact ⟨3, le_rfl, CvState.dropsIn_locked (hc ▸ hpc)⟩
  | waitReleased c m =>
    have hc : c = cv := by simpa [hpc, CvPc.holdsLock] using hholds
    exact ⟨2, by decide, CvState.dropsIn_released (hc ▸ hpc)⟩
  | waitQueued c m =>
    have hc : c = cv := by simpa [hpc, CvPc.holdsLock] using hholds
    exact ⟨1, by decide, CvState.dropsIn_queued (hc ▸ hpc)⟩
  | running | locking | waitParked | waitReady =>
    simp [hpc, CvPc.holdsLock] at hholds

theorem CvInv.signal_readies (hinv : CvInv s) (hw : (s.pc w).asleep cv m = true)
    (hnext : cvNext s (.signal th cv) = some t) :
    ∃ x m', (s.cv cv).waiters.head? = some x ∧ s.pc x = .waitParked cv m' ∧
      t.pc x = .waitReady cv m' ∧ t.readied cv = s.readied cv ++ [x] := by
  obtain ⟨⟨-, hlock⟩, rfl⟩ := guarded hnext
  have hcv := hinv.condvars cv
  have hmem := (hcv.asleep_mem hlock hw).1
  cases hwaiters : (s.cv cv).waiters with
  | nil => simp [hwaiters] at hmem
  | cons x rest =>
    obtain ⟨m', hx⟩ := hcv.parked hlock
      (hwaiters ▸ List.mem_cons_self : x ∈ (s.cv cv).waiters)
    refine ⟨x, m', rfl, hx, ?_, ?_⟩ <;>
      simp [condvarSignal, hwaiters, hx, CvPc.ready]

theorem CvInv.broadcast_readies (hinv : CvInv s)
    (hnext : cvNext s (.broadcast th cv) = some t) :
    (∀ w m, (s.pc w).asleep cv m = true → t.pc w = .waitReady cv m) ∧
      t.readied cv = s.readied cv ++ (s.cv cv).waiters := by
  obtain ⟨⟨-, hlock⟩, rfl⟩ := guarded hnext
  refine ⟨fun w m hw => ?_, by simp [condvarBroadcast]⟩
  obtain ⟨hmem, hpc⟩ := (hinv.condvars cv).asleep_mem hlock hw
  simp [condvarBroadcast, hmem, hpc, CvPc.ready]

/-- `th` has called `mutex_lock`: it holds `m`, or it is the last who waits. -/
structure CvState.Asked (s : CvState τ μ ν) (th : τ) (m : μ)
    (t : CvState τ μ ν) : Prop where
  free : (s.mutex m).held = false → t.owners m = [th] ∧ t.pc th = .running
  taken : (s.mutex m).held = true →
    t.owners m = s.owners m ∧ t.pc th = .locking m ∧
    (t.mutex m).waiters = (s.mutex m).waiters ++ [th]

/-- The holder of `m` has called `mutex_unlock`: the first waiter holds it and
runs, or nobody does. -/
structure CvState.HandedOver (s : CvState τ μ ν) (m : μ)
    (t : CvState τ μ ν) : Prop where
  nobody : (s.mutex m).waiters = [] →
    (t.mutex m).held = false ∧ t.owners m = []
  first : ∀ w rest, (s.mutex m).waiters = w :: rest →
    t.mutex m = ⟨true, rest⟩ ∧ t.owners m = [w] ∧ t.pc w = .running ∧
    t.granted m = s.granted m ++ [w]

theorem CvInv.asked (hinv : CvInv s) :
    s.Asked th m (s.lock th m (mutexLock (s.mutex m) th)) := by
  constructor
  · intro hfree
    obtain ⟨-, hnone, -⟩ | ⟨hheld, -⟩ := (hinv.mutexes m).owned
    · simp [mutexLock, hfree, hnone]
    · rw [hfree] at hheld
      cases hheld
  · intro hheld
    simp [mutexLock, hheld]

theorem CvInv.tries (hinv : CvInv s) (hpc : s.pc th = .running) :
    ∃ t, cvNext s (.tryLock th m) = some t ∧
      ((s.mutex m).held = true ∧ t = s ∨
        (s.mutex m).held = false ∧ t.owners m = [th]) := by
  obtain ⟨hfree, hnone, -⟩ | ⟨hheld, -⟩ := (hinv.mutexes m).owned
  · simp [cvNext, mutexTryLock, hpc, hfree, hnone]
  · simp [cvNext, mutexTryLock, hpc, hheld]

omit [DecidableEq ν] in
theorem MutexOk.handed_over (h : MutexOk s m) (hown : th ∈ s.owners m)
    (hth : s.pc th ≠ .locking m) (p : CvPc μ ν) :
    s.HandedOver m
      ((s.unlock th m (mutexUnlock (s.mutex m))).goto th p) := by
  obtain ⟨-, howner, ⟨hnil, hunlock⟩ | ⟨w, rest, hcons, hunlock⟩⟩ :=
    h.unlock_cases hown
  · rw [hunlock]
    refine ⟨fun _ => by simp [howner], fun w rest hcons => ?_⟩
    rw [hnil] at hcons
    cases hcons
  · have hne : w ≠ th := by
      rintro rfl
      apply hth
      rw [← CvPc.onMutex_iff, ← h.mem, hcons]
      exact List.mem_cons_self
    rw [hunlock]
    refine ⟨fun hnil => ?_, fun w' rest' hcons' => ?_⟩
    · rw [hcons] at hnil
      cases hnil
    · rw [hcons] at hcons'
      cases hcons'
      simp [howner, hne]

/-- In every state of every run a mutex is held by one thread, or by nobody and
then has no waiters. A thread that locks it becomes the holder or the last of
the waiters, and unlocking makes the first of them the holder. Mutexes and
condition variables serve their waiters in order of arrival, each arrival once.
A thread that has released the mutex in `condvar_wait` is found by the next
`condvar_signal`, which readies the first waiter, and by `condvar_broadcast`,
which readies them all; neither is kept out for more than three steps of the
thread with the spinlock. -/
theorem condvar_loses_no_wakeup {s : CvState τ μ ν}
    (hs : (cvSystem τ μ ν).Reach anyStep s) :
    (∀ m, (s.owners m).length ≤ 1) ∧
    (∀ m, (s.mutex m).held = false → ∀ th, s.pc th ≠ .locking m) ∧
    (∀ m, s.queued m = s.granted m ++ (s.mutex m).waiters ∧
      ∀ th, th ∈ (s.mutex m).waiters ↔ s.pc th = .locking m) ∧
    (∀ cv, s.cvQueued cv = s.readied cv ++ (s.cv cv).waiters) ∧
    (∀ cv th, (s.cvQueued cv).count th =
      (s.readied cv).count th + if (s.pc th).onList cv then 1 else 0) ∧
    (∀ cv m w th t, (s.pc w).asleep cv m = true →
      cvNext s (.signal th cv) = some t →
      ∃ x m', (s.cv cv).waiters.head? = some x ∧ s.pc x = .waitParked cv m' ∧
        t.pc x = .waitReady cv m' ∧ t.readied cv = s.readied cv ++ [x]) ∧
    (∀ cv th t, cvNext s (.broadcast th cv) = some t →
      (∀ w m, (s.pc w).asleep cv m = true → t.pc w = .waitReady cv m) ∧
      t.readied cv = s.readied cv ++ (s.cv cv).waiters) ∧
    (∀ cv w, (s.cv cv).waiterLock = some w → ∃ n ≤ 3, s.DropsIn w cv n) ∧
    (∀ m, (s.mutex m).held = false ∧ s.owners m = [] ∨
      (s.mutex m).held = true ∧ ∃ x, s.owners m = [x]) ∧
    (∀ th m, s.pc th = .running → ∃ t, cvNext s (.lock th m) = some t ∧
      s.Asked th m t) ∧
    (∀ th cv m, s.pc th = .waitReady cv m →
      ∃ t, cvNext s (.proceed th) = some t ∧ s.Asked th m t) ∧
    (∀ th m, s.pc th = .running → th ∈ s.owners m →
      ∃ t, cvNext s (.unlock th m) = some t ∧ s.HandedOver m t) ∧
    (∀ th cv m, s.pc th = .waitLocked cv m →
      ∃ t, cvNext s (.proceed th) = some t ∧ s.HandedOver m t) ∧
    (∀ th m, s.pc th = .running →
      ∃ t, cvNext s (.tryLock th m) = some t ∧
        ((s.mutex m).held = true ∧ t = s ∨
          (s.mutex m).held = false ∧ t.owners m = [th])) ∧
    ∀ th cv, s.pc th = .running → (s.cv cv).waiterLock = none →
      (cvNext s (.signal th cv)).isSome ∧
        (cvNext s (.broadcast th cv)).isSome := by
  have hinv := cvSystem_inv hs
  refine ⟨fun m => ?_, fun m hfree th hth => ?_, fun m => ⟨?_, fun th => ?_⟩,
    fun cv => (hinv.condvars cv).fifo, fun cv th => ?_,
    fun cv m w th t hw hnext => hinv.signal_readies hw hnext,
    fun cv th t hnext => hinv.broadcast_readies hnext,
    fun cv w hlock => hinv.spinlock_dropped hlock, fun m => ?_,
    fun th m hpc => ⟨_, if_pos hpc, hinv.asked⟩, fun th cv m hpc => ?_,
    fun th m hpc hown => ?_, fun th cv m hpc => ?_,
    fun th m hpc => hinv.tries hpc, fun th cv hpc hlock => ?_⟩
  · obtain ⟨-, h, -⟩ | ⟨-, x, h⟩ := (hinv.mutexes m).owned <;> simp [h]
  · obtain ⟨-, -, hnil⟩ | ⟨hheld, -⟩ := (hinv.mutexes m).owned
    · rw [← CvPc.onMutex_iff, ← (hinv.mutexes m).mem, hnil] at hth
      cases hth
    · rw [hfree] at hheld
      cases hheld
  · exact (hinv.mutexes m).fifo
  · rw [(hinv.mutexes m).mem, CvPc.onMutex_iff]
  · have hcv := hinv.condvars cv
    rw [hcv.fifo, List.count_append, hcv.nodup.count, if_congr (hcv.mem th)]
    · rfl
    · rfl
  · exact (hinv.mutexes m).owned.imp_left fun h => ⟨h.1, h.2.1⟩
  · refine ⟨_, ?_, hinv.asked⟩
    simp only [cvNext, cvProceed, hpc]
  · refine ⟨_, if_pos ⟨hpc, hown⟩, (hinv.mutexes m).handed_over hown ?_ _⟩
    simp [hpc]
  · have hown : th ∈ s.owners m :=
      (hinv.mutexes m).releasing th (by simp [hpc, CvPc.releasing])
    refine ⟨_, ?_, (hinv.mutexes m).handed_over hown ?_ (.waitReleased cv m)⟩
    · simp only [cvNext, cvProceed, hpc]
    · simp [hpc]
  · simp [cvNext, hpc, hlock]

/-- Thread 0 waits on the condition variable and thread 1 has the mutex. -/
def cvWaitingRun : List (CvAct Nat Unit Unit) :=
  [.lock 0 (), .lock 1 (), .wait 0 () (), .proceed 0, .proceed 0, .proceed 0]

def cvStart : CvState Nat Unit Unit where
  mutex _ := mutexInit
  cv _ := condvarInit
  pc _ := .running
  owners _ := []
  queued _ := []
  granted _ := []
  cvQueued _ := []
  readied _ := []

theorem cvWaitingRun_isSome :
    ((cvSystem Nat Unit Unit).exec cvStart cvWaitingRun).isSome = true := by
  decide

def cvWaiting : CvState Nat Unit Unit :=
  ((cvSystem Nat Unit Unit).exec cvStart cvWaitingRun).get
    cvWaitingRun_isSome

theorem cvWaiting_reach :
    (cvSystem Nat Unit Unit).Reach anyStep cvWaiting :=
  System.Reach.exec
    (.init ⟨fun _ => ⟨rfl, rfl, rfl, rfl⟩, fun _ => ⟨rfl, rfl, rfl⟩,
      fun _ => rfl⟩)
    cvWaitingRun (Option.some_get cvWaitingRun_isSome).symm

theorem condvar_loses_no_wakeup_waiting :
    (cvNext cvWaiting (.signal 1 ())).isSome = true ∧
      ∀ t, cvNext cvWaiting (.signal 1 ()) = some t →
        ∃ x m', (cvWaiting.cv ()).waiters.head? = some x ∧
          cvWaiting.pc x = .waitParked () m' ∧ t.pc x = .waitReady () m' ∧
          t.readied () = cvWaiting.readied () ++ [x] :=
  have h := condvar_loses_no_wakeup cvWaiting_reach
  ⟨by decide, fun t => h.2.2.2.2.2.1 () () 0 1 t (by decide)⟩

end Libut.Runtime
