import Libut.Machine.System
import Libut.Runtime.WaitList

/-!
Wait groups (`runtime/sync.c`). The call of `waitgroup_add` that brings the
count to 0 takes all waiters off the list of the group while it has the lock,
and wakes them after it has dropped it; in the meantime the count may be raised
again and new threads may wait.

`waitgroup_add` is one step under the lock and then one for each round of its
waking loop. `waitgroup_wait` takes a step to begin and one under the lock; it
then keeps the lock until it has parked. For the statements the model keeps the
values that `cnt` has had, the sum of what was added, where in these values
each `waitgroup_wait` began, and for each `waitgroup_add` (numbered by the value
it stored) the threads it took and those it has made ready.
-/

namespace Libut.Runtime

open Function Machine Base

inductive WgPc
  | idle
  /-- In `waitgroup_wait`, before the lock. -/
  | entering
  /-- On the list and about to park, with the lock. -/
  | parking
  | parked
  | ready
  /-- In the loop of the `waitgroup_add` that stored value number `z`. -/
  | waking (z : Nat)
  deriving DecidableEq, Repr

def WgPc.waits : WgPc → Bool
  | .entering => true
  | .parking => true
  | .parked => true
  | .ready => true
  | _ => false

def WgPc.queued : WgPc → Bool
  | .parking => true
  | .parked => true
  | _ => false

structure WaitGroupState (τ : Type) where
  cnt : BitVec 32
  lock : Option τ
  links : Links (SyncNode τ)
  pc : τ → WgPc
  sum : Int
  hist : List (BitVec 32)
  since : τ → Nat
  waiting : List τ
  due : Nat → List τ
  woken : Nat → List τ

inductive WgAct (τ : Type)
  /-- `waitgroup_add` up to the unlock. -/
  | add (th : τ) (cnt : BitVec 32)
  /-- A round of its waking loop; the last one returns. -/
  | wake (th : τ)
  /-- `waitgroup_wait` is called. -/
  | wait (th : τ)
  /-- It takes the lock and returns, or enters the list. -/
  | enter (th : τ)
  /-- `thread_park_and_unlock_np`. -/
  | park (th : τ)
  /-- A thread that was made ready runs and returns. -/
  | run (th : τ)
  /-- The link of a thread that is not waiting is written to. -/
  | relink (th : τ) (next prev : SyncNode τ)

def waitgroupDone {τ : Type} (th : τ) : WgAct τ := .add th (-1)

variable {τ : Type} [DecidableEq τ]

def waitgroupInit (links : Links (SyncNode τ)) : WaitGroupState τ where
  cnt := 0
  lock := none
  links := listHeadInit links .waiters
  pc _ := .idle
  sum := 0
  hist := [0]
  since _ := 0
  waiting := []
  due _ := []
  woken _ := []

def waitgroupNext (s : WaitGroupState τ) : WgAct τ → Option (WaitGroupState τ)
  | .add th cnt =>
    if s.pc th = .idle ∧ s.lock = none then
      let z := s.hist.length
      let s := { s with
        cnt := s.cnt + cnt
        sum := s.sum + cnt.toInt
        hist := s.hist ++ [s.cnt + cnt]
        pc := update s.pc th (.waking z) }
      -- `BUG_ON`
      if s.cnt.slt 0 then none
      else if s.cnt = 0 then
        some { s with
          links := takeWaiters s.links th
          waiting := []
          due := update s.due z s.waiting }
      else some { s with links := listHeadInit s.links (.tmp th) }
    else none
  | .wake th =>
    match s.pc th with
    | .waking z =>
      let popped := listPop s.links (.tmp th)
      match popped.2 with
      | none =>
        some { s with
          links := popped.1
          pc := update s.pc th .idle }
      | some (.link u) =>
        -- `thread_ready` insists on a thread that sleeps
        if s.pc u = .parked then
          some { s with
            links := popped.1
            pc := update s.pc u .ready
            woken := update s.woken z (s.woken z ++ [u]) }
        else none
      | some _ => none
    | _ => none
  | .wait th =>
    if s.pc th = .idle then
      some { s with
        pc := update s.pc th .entering
        since := update s.since th (s.hist.length - 1) }
    else none
  | .enter th =>
    if s.pc th = .entering ∧ s.lock = none then
      if s.cnt = 0 then some { s with pc := update s.pc th .idle }
      else
        some { s with
          lock := some th
          links := listAddTail s.links .waiters (.link th)
          waiting := s.waiting ++ [th]
          pc := update s.pc th .parking }
    else none
  | .park th =>
    if s.pc th = .parking then
      some { s with
        lock := none
        pc := update s.pc th .parked }
    else none
  | .run th =>
    if s.pc th = .ready then
      some { s with pc := update s.pc th .idle }
    else none
  | .relink th next prev =>
    if (s.pc th).queued then none
    else
      some { s with
        links := storePrev (storeNext s.links (.link th) next) (.link th)
          prev }

def waitgroupSystem (τ : Type) [DecidableEq τ] :
    System (WaitGroupState τ) (WgAct τ) where
  init s := ∃ links, s = waitgroupInit links
  next := waitgroupNext

/-- The sum of what is added stays between 0 and `INT_MAX`. -/
def wgOk (s : WaitGroupState τ) : WgAct τ → Prop
  | .add _ cnt => 0 ≤ s.sum + cnt.toInt ∧ s.sum + cnt.toInt < 2 ^ 31
  | _ => True

instance (s : WaitGroupState τ) (a : WgAct τ) : Decidable (wgOk s a) :=
  match a with
  | .add _ _ => inferInstanceAs (Decidable (_ ∧ _))
  | .wake _ => inferInstanceAs (Decidable True)
  | .wait _ => inferInstanceAs (Decidable True)
  | .enter _ => inferInstanceAs (Decidable True)
  | .park _ => inferInstanceAs (Decidable True)
  | .run _ => inferInstanceAs (Decidable True)
  | .relink _ _ _ => inferInstanceAs (Decidable True)

def WaitGroupState.tmp (s : WaitGroupState τ) (r : τ) : Option (List τ) :=
  match s.pc r with
  | .waking z => some ((s.due z).drop (s.woken z).length)
  | _ => none

structure WgInv (s : WaitGroupState τ) : Prop where
  cnt : s.cnt.toInt = s.sum
  sum_nonneg : 0 ≤ s.sum
  last : s.hist.getLast? = some s.cnt
  zero : s.cnt = 0 → s.waiting = []
  queues : WaitQueues s.links s.waiting s.tmp
  lock : ∀ th, s.pc th = .parking → s.lock = some th
  since : ∀ th, (s.pc th).waits = true → s.since th < s.hist.length
  ready : ∀ th, s.pc th = .ready →
    ∃ k, s.since th ≤ k ∧ s.hist[k]? = some 0
  waiting : ∀ th ∈ s.waiting, (s.pc th).queued = true
  listed : ∀ th, (s.pc th).queued = true →
    th ∈ s.waiting ∨ ∃ r rest, s.tmp r = some rest ∧ th ∈ rest
  taken : ∀ r z, s.pc r = .waking z →
    ∀ th ∈ (s.due z).drop (s.woken z).length,
      s.pc th = .parked ∧ s.since th ≤ z
  woken : ∀ z, s.woken z <+: s.due z
  distinct : ∀ z, (s.due z).Nodup
  due_zero : ∀ z, s.due z ≠ [] → s.hist[z]? = some 0
  fresh : ∀ z, s.hist.length ≤ z → s.due z = []
  caller : ∀ r z, s.pc r = .waking z → z < s.hist.length ∧
    ∀ r', s.pc r' = .waking z → r' = r
  finished : ∀ z, (∃ r, s.pc r = .waking z) ∨ s.woken z = s.due z

section Steps

variable {s t : WaitGroupState τ} {a : WgAct τ} {th r u : τ}

inductive WgStep (s : WaitGroupState τ) : WgAct τ → WaitGroupState τ → Prop
  | zero {th : τ} {cnt : BitVec 32} : s.pc th = .idle → s.lock = none →
      s.cnt + cnt = 0 →
      WgStep s (.add th cnt) { s with
        cnt := s.cnt + cnt
        sum := s.sum + cnt.toInt
        hist := s.hist ++ [s.cnt + cnt]
        pc := update s.pc th (.waking s.hist.length)
        links := takeWaiters s.links th
        waiting := []
        due := update s.due s.hist.length s.waiting }
  | adds {th : τ} {cnt : BitVec 32} : s.pc th = .idle → s.lock = none →
      s.cnt + cnt ≠ 0 →
      WgStep s (.add th cnt) { s with
        cnt := s.cnt + cnt
        sum := s.sum + cnt.toInt
        hist := s.hist ++ [s.cnt + cnt]
        pc := update s.pc th (.waking s.hist.length)
        links := listHeadInit s.links (.tmp th) }
  | returns {th : τ} {z : Nat} : s.pc th = .waking z →
      (listPop s.links (.tmp th)).2 = none →
      WgStep s (.wake th) { s with
        links := (listPop s.links (.tmp th)).1
        pc := update s.pc th .idle }
  | wakes {th u : τ} {z : Nat} : s.pc th = .waking z →
      (listPop s.links (.tmp th)).2 = some (.link u) → s.pc u = .parked →
      WgStep s (.wake th) { s with
        links := (listPop s.links (.tmp th)).1
        pc := update s.pc u .ready
        woken := update s.woken z (s.woken z ++ [u]) }
  | waits {th : τ} : s.pc th = .idle →
      WgStep s (.wait th) { s with
        pc := update s.pc th .entering
        since := update s.since th (s.hist.length - 1) }
  | passes {th : τ} : s.pc th = .entering → s.cnt = 0 →
      WgStep s (.enter th) { s with pc := update s.pc th .idle }
  | enlists {th : τ} : s.pc th = .entering → s.lock = none → s.cnt ≠ 0 →
      WgStep s (.enter th) { s with
        lock := some th
        links := listAddTail s.links .waiters (.link th)
        waiting := s.waiting ++ [th]
        pc := update s.pc th .parking }
  | parks {th : τ} : s.pc th = .parking →
      WgStep s (.park th) { s with
        lock := none
        pc := update s.pc th .parked }
  | runs {th : τ} : s.pc th = .ready →
      WgStep s (.run th) { s with pc := update s.pc th .idle }
  | relinks {th : τ} {next prev : SyncNode τ} : (s.pc th).queued = false →
      WgStep s (.relink th next prev) { s with
        links := storePrev (storeNext s.links (.link th) next) (.link th)
          prev }

theorem waitgroupNext_step (hnext : waitgroupNext s a = some t) :
    WgStep s a t := by
  cases a with
  | add th cnt =>
    simp only [waitgroupNext] at hnext
    split_ifs at hnext with hguard hbug hzero
    · cases hnext
      exact .zero hguard.1 hguard.2 hzero
    · cases hnext
      exact .adds hguard.1 hguard.2 hzero
  | wake th =>
    cases hpc : s.pc th with
    | waking z =>
      cases hpop : (listPop s.links (.tmp th)).2 with
      | none =>
        simp only [waitgroupNext, hpc, hpop] at hnext
        cases hnext
        exact .returns hpc hpop
      | some node =>
        cases node with
        | link u =>
          simp only [waitgroupNext, hpc, hpop] at hnext
          split_ifs at hnext with hu
          cases hnext
          exact .wakes hpc hpop hu
        | waiters | tmp u =>
          simp only [waitgroupNext, hpc, hpop] at hnext
          cases hnext
    | idle | entering | parking | parked | ready =>
      simp only [waitgroupNext, hpc] at hnext
      cases hnext
  | wait th =>
    obtain ⟨hpc, rfl⟩ := guarded hnext
    exact .waits hpc
  | enter th =>
    simp only [waitgroupNext] at hnext
    split_ifs at hnext with hguard hzero
    · cases hnext
      exact .passes hguard.1 hzero
    · cases hnext
      exact .enlists hguard.1 hguard.2 hzero
  | park th =>
    obtain ⟨hpc, rfl⟩ := guarded hnext
    exact .parks hpc
  | run th =>
    obtain ⟨hpc, rfl⟩ := guarded hnext
    exact .runs hpc
  | relink th next prev =>
    simp only [waitgroupNext] at hnext
    split_ifs at hnext with hqueued
    cases hnext
    exact .relinks (Bool.not_eq_true _ ▸ hqueued)

section

omit [DecidableEq τ]

theorem WaitGroupState.tmp_waking {z : Nat} (hpc : s.pc r = .waking z) :
    s.tmp r = some ((s.due z).drop (s.woken z).length) := by
  rw [WaitGroupState.tmp, hpc]

theorem WaitGroupState.tmp_eq_none (hpc : ∀ z, s.pc r ≠ .waking z) :
    s.tmp r = none := by
  unfold WaitGroupState.tmp
  cases hwaking : s.pc r with
  | waking z => exact absurd hwaking (hpc z)
  | idle | entering | parking | parked | ready => rfl

theorem WaitGroupState.tmp_eq_some {rest : List τ} (hrest : s.tmp r = some rest) :
    ∃ z, s.pc r = .waking z ∧ rest = (s.due z).drop (s.woken z).length := by
  unfold WaitGroupState.tmp at hrest
  cases hpc : s.pc r with
  | waking z =>
    rw [hpc] at hrest
    exact ⟨z, rfl, (Option.some.inj hrest).symm⟩
  | idle | entering | parking | parked | ready =>
    rw [hpc] at hrest
    cases hrest

theorem WaitGroupState.tmp_congr (hpc : t.pc r = s.pc r)
    (hrest : ∀ z, s.pc r = .waking z →
      t.due z = s.due z ∧ t.woken z = s.woken z) : t.tmp r = s.tmp r := by
  unfold WaitGroupState.tmp
  rw [hpc]
  cases hwaking : s.pc r with
  | waking z =>
    obtain ⟨hdue, hwoken⟩ := hrest z hwaking
    simp only [hdue, hwoken]
  | idle | entering | parking | parked | ready => rfl

theorem WgInv.off (h : WgInv s) (hpc : (s.pc th).queued = false) :
    OffQueues s.waiting s.tmp th := by
  constructor
  · intro hmem
    rw [h.waiting th hmem] at hpc
    cases hpc
  · intro r rest hr hmem
    obtain ⟨z, hwaking, rfl⟩ := WaitGroupState.tmp_eq_some hr
    rw [(h.taken r z hwaking th hmem).1] at hpc
    cases hpc

end

theorem update_waking {pc : WgPc} {z : Nat} (hold : ∀ z, s.pc th ≠ .waking z)
    (hnew : ∀ z, pc ≠ .waking z) :
    update s.pc th pc r = .waking z ↔ s.pc r = .waking z := by
  rcases eq_or_ne r th with rfl | hne
  · rw [update_self]
    exact iff_of_false (hnew z) (hold z)
  · rw [update_of_ne hne]

theorem WaitGroupState.tmp_update {pc : WgPc} (hpc : t.pc = update s.pc th pc)
    (hold : ∀ z, s.pc th ≠ .waking z) (hnew : ∀ z, pc ≠ .waking z)
    (hdue : t.due = s.due) (hwoken : t.woken = s.woken) (r : τ) :
    t.tmp r = s.tmp r := by
  rcases eq_or_ne r th with rfl | hne
  · rw [tmp_eq_none hold, tmp_eq_none]
    rw [hpc, update_self]
    exact hnew
  · exact tmp_congr (by rw [hpc, update_of_ne hne])
      fun z _ => ⟨by rw [hdue], by rw [hwoken]⟩

theorem WgInv.move (h : WgInv s) {pc : WgPc} {lock : Option τ}
    {since : τ → Nat} (hold : ∀ z, s.pc th ≠ .waking z)
    (hnew : ∀ z, pc ≠ .waking z) (hqueued : pc.queued = (s.pc th).queued)
    (hasleep : s.pc th ≠ .parked) (hparking : pc ≠ .parking)
    (hready : pc ≠ .ready)
    (hlock : ∀ th', th' ≠ th → s.lock = some th' → lock = some th')
    (hsince : ∀ th', th' ≠ th → since th' = s.since th')
    (hself : pc.waits = true → since th < s.hist.length) :
    WgInv { s with pc := update s.pc th pc, lock := lock, since := since } := by
  have hqueues : ∀ th', (update s.pc th pc th').queued = (s.pc th').queued := by
    intro th'
    rcases eq_or_ne th' th with rfl | hne
    · rw [update_self, hqueued]
    · rw [update_of_ne hne]
  have hwaking : ∀ r z, update s.pc th pc r = .waking z ↔ s.pc r = .waking z :=
    fun r z => update_waking hold hnew
  have htmp := WaitGroupState.tmp_update (t := { s with
    pc := update s.pc th pc, lock := lock, since := since }) rfl hold hnew
    rfl rfl
  refine { h with
    queues := h.queues.congr rfl htmp
    lock := ?lock
    since := ?since
    ready := ?ready
    waiting := fun th' hth' => (hqueues th').trans (h.waiting th' hth')
    listed := ?listed
    taken := ?taken
    caller := ?caller
    finished := ?finished }
  case lock =>
    intro th' hth'
    obtain ⟨hne, hold⟩ := update_back rfl (· = WgPc.parking) hparking hth'
    exact hlock th' hne (h.lock th' hold)
  case since =>
    intro th' hth'
    rcases eq_or_ne th' th with rfl | hne
    · simp only [update_self] at hth'
      exact hself hth'
    · simp only [update_of_ne hne] at hth'
      exact (hsince th' hne).trans_lt (h.since th' hth')
  case ready =>
    intro th' hth'
    obtain ⟨hne, hold⟩ := update_back rfl (· = WgPc.ready) hready hth'
    simp only [hsince th' hne]
    exact h.ready th' hold
  case listed =>
    intro th' hth'
    simp only [htmp]
    exact h.listed th' ((hqueues th').symm.trans hth')
  case taken =>
    intro r z hr th' hth'
    obtain ⟨hparked, hle⟩ := h.taken r z ((hwaking r z).mp hr) th' hth'
    obtain ⟨hne, hkept⟩ := update_keeps rfl (· = WgPc.parked) hasleep hparked
    exact ⟨hkept, (hsince th' hne).trans_le hle⟩
  case caller =>
    simp only [hwaking]
    exact h.caller
  case finished =>
    simp only [hwaking]
    exact h.finished

theorem WgInv.relinks (h : WgInv s) (hpc : (s.pc th).queued = false)
    (next prev : SyncNode τ) :
    WgInv { s with
      links := storePrev (storeNext s.links (.link th) next) (.link th)
        prev } :=
  { h with queues := h.queues.scribble (h.off hpc) next prev }

theorem WgInv.enlists (h : WgInv s) (hpc : s.pc th = .entering)
    (hlock : s.lock = none) (hcnt : s.cnt ≠ 0) :
    WgInv { s with
      lock := some th
      links := listAddTail s.links .waiters (.link th)
      waiting := s.waiting ++ [th]
      pc := update s.pc th .parking } := by
  have hoff : OffQueues s.waiting s.tmp th := h.off (by rw [hpc]; rfl)
  have hold : ∀ z, s.pc th ≠ .waking z := by simp [hpc]
  have hwaking : ∀ r z, update s.pc th WgPc.parking r = .waking z ↔
      s.pc r = .waking z :=
    fun r z => update_waking hold (by simp)
  have htmp := WaitGroupState.tmp_update (t := { s with
    lock := some th
    links := listAddTail s.links .waiters (.link th)
    waiting := s.waiting ++ [th]
    pc := update s.pc th .parking }) rfl hold (by simp) rfl rfl
  refine { h with
    zero := fun hzero => absurd hzero hcnt
    queues := (h.queues.enqueue hoff).congr rfl htmp
    lock := ?lock
    since := ?since
    ready := fun th' hth' =>
      h.ready th' (update_back rfl (· = WgPc.ready) (by simp) hth').2
    waiting := ?waiting
    listed := ?listed
    taken := ?taken
    caller := ?caller
    finished := ?finished }
  case lock =>
    intro th' hth'
    rcases eq_or_ne th' th with rfl | hne
    · rfl
    · have hheld := h.lock th' ((update_of_ne hne ..).symm.trans hth')
      rw [hlock] at hheld
      cases hheld
  case since =>
    intro th' hth'
    apply h.since th'
    rcases eq_or_ne th' th with rfl | hne
    · rw [hpc]
      rfl
    · simpa only [update_of_ne hne] using hth'
  case waiting =>
    intro th' hth'
    rcases eq_or_ne th' th with rfl | hne
    · simp only [update_self]
      rfl
    · simp only [update_of_ne hne]
      rcases List.mem_append.mp hth' with hmem | hmem
      · exact h.waiting th' hmem
      · exact absurd (List.mem_singleton.mp hmem) hne
  case listed =>
    intro th' hth'
    rcases eq_or_ne th' th with rfl | hne
    · exact .inl (List.mem_append_right _ List.mem_cons_self)
    · simp only [update_of_ne hne] at hth'
      simp only [htmp]
      apply (h.listed th' hth').imp_left
      exact fun hmem => List.mem_append_left _ hmem
  case taken =>
    intro r z hr th' hth'
    obtain ⟨hparked, hle⟩ := h.taken r z ((hwaking r z).mp hr) th' hth'
    exact ⟨(update_keeps rfl (· = WgPc.parked) (by simp [hpc]) hparked).2, hle⟩
  case caller =>
    simp only [hwaking]
    exact h.caller
  case finished =>
    simp only [hwaking]
    exact h.finished

omit [DecidableEq τ] in
theorem cnt_add {x y : BitVec 32} (hnonneg : 0 ≤ x.toInt + y.toInt)
    (hlt : x.toInt + y.toInt < 2 ^ 31) : (x + y).toInt = x.toInt + y.toInt := by
  rw [BitVec.toInt_add]
  apply Int.bmod_eq_of_le
  · omega
  · omega

omit [DecidableEq τ] in
theorem WgInv.parked_of_queued (h : WgInv s) (hlock : s.lock = none)
    (hqueued : (s.pc th).queued = true) : s.pc th = .parked := by
  cases hpc : s.pc th with
  | parked => rfl
  | parking =>
    have hheld := h.lock th hpc
    rw [hlock] at hheld
    cases hheld
  | idle | entering | ready | waking z =>
    rw [hpc] at hqueued
    cases hqueued

omit [DecidableEq τ] in
theorem WgInv.unwoken (h : WgInv s) : s.woken s.hist.length = [] := by
  have hsub := h.woken s.hist.length
  rw [h.fresh _ (Nat.le_refl _)] at hsub
  exact List.prefix_nil.mp hsub

/-- `waitgroup_add` takes all waiters, if the count is 0 now, or nobody. -/
theorem WgInv.added (h : WgInv s) {cnt : BitVec 32} {taken left : List τ}
    {links : Links (SyncNode τ)} (hok : wgOk s (.add th cnt))
    (hidle : s.pc th = .idle) (hlock : s.lock = none)
    (htaken : s.cnt + cnt = 0 ∧ taken = s.waiting ∧ left = [] ∨
      s.cnt + cnt ≠ 0 ∧ taken = [] ∧ left = s.waiting)
    (hqueues : WaitQueues links left (update s.tmp th (some taken))) :
    WgInv { s with
      cnt := s.cnt + cnt
      sum := s.sum + cnt.toInt
      hist := s.hist ++ [s.cnt + cnt]
      pc := update s.pc th (.waking s.hist.length)
      links := links
      waiting := left
      due := update s.due s.hist.length taken } := by
  have hother : ∀ r z, s.pc r = .waking z → z ≠ s.hist.length :=
    fun r z hr => (h.caller r z hr).1.ne
  have hown : update s.pc th (.waking s.hist.length) th =
      .waking s.hist.length := update_self ..
  have hearlier : ∀ r z, r ≠ th →
      update s.pc th (.waking s.hist.length) r = .waking z →
      s.pc r = .waking z ∧ z ≠ s.hist.length := by
    intro r z hne hr
    rw [update_of_ne hne] at hr
    exact ⟨hr, hother r z hr⟩
  have hkept : ∀ (k : Nat) (x : BitVec 32), s.hist[k]? = some x →
      (s.hist ++ [s.cnt + cnt])[k]? = some x := by
    intro k x hk
    rw [List.getElem?_append_left (List.getElem?_eq_some_iff.mp hk).1, hk]
  have htmp : ∀ r, WaitGroupState.tmp { s with
      cnt := s.cnt + cnt
      sum := s.sum + cnt.toInt
      hist := s.hist ++ [s.cnt + cnt]
      pc := update s.pc th (.waking s.hist.length)
      links := links
      waiting := left
      due := update s.due s.hist.length taken } r =
        update s.tmp th (some taken) r := by
    intro r
    rcases eq_or_ne r th with rfl | hne
    · rw [update_self, WaitGroupState.tmp_waking hown]
      simp only [update_self, h.unwoken, List.length_nil, List.drop_zero]
    · rw [update_of_ne hne]
      apply WaitGroupState.tmp_congr (update_of_ne hne ..)
      exact fun z hz => ⟨update_of_ne (hother r z hz) .., rfl⟩
  constructor
  case cnt =>
    have hcount := h.cnt
    simp only
    rw [cnt_add, hcount]
    · rw [hcount]
      exact hok.1
    · rw [hcount]
      exact hok.2
  case sum_nonneg => exact hok.1
  case last => exact List.getLast?_concat ..
  case zero =>
    intro hzero
    rcases htaken with ⟨_, _, hempty⟩ | ⟨hne, _⟩
    · exact hempty
    · exact absurd hzero hne
  case queues => exact hqueues.congr rfl htmp
  case lock =>
    intro th' hth'
    exact h.lock th' (update_back rfl (· = WgPc.parking) (by simp) hth').2
  case since =>
    intro th' hth'
    have hold :=
      (update_back rfl (WgPc.waits · = true) (by simp [WgPc.waits]) hth').2
    simp only [List.length_append, List.length_singleton]
    exact Nat.lt_succ_of_lt (h.since th' hold)
  case ready =>
    intro th' hth'
    have hold := (update_back rfl (· = WgPc.ready) (by simp) hth').2
    obtain ⟨k, hle, hk⟩ := h.ready th' hold
    exact ⟨k, hle, hkept k 0 hk⟩
  case waiting =>
    intro th' hth'
    have hmem : th' ∈ s.waiting := by
      rcases htaken with ⟨_, _, rfl⟩ | ⟨_, _, rfl⟩
      · exact absurd hth' List.not_mem_nil
      · exact hth'
    exact (update_keeps rfl (WgPc.queued · = true)
      (by simp [hidle, WgPc.queued]) (h.waiting th' hmem)).2
  case listed =>
    intro th' hth'
    have hold :=
      (update_back rfl (WgPc.queued · = true) (by simp [WgPc.queued]) hth').2
    simp only [htmp]
    rcases h.listed th' hold with hw | ⟨r, rest, hr, hin⟩
    · rcases htaken with ⟨_, rfl, _⟩ | ⟨_, _, rfl⟩
      · exact .inr ⟨th, _, update_self .., hw⟩
      · exact .inl hw
    · have hrth : r ≠ th := by
        rintro rfl
        rw [WaitGroupState.tmp_eq_none (by simp [hidle])] at hr
        cases hr
      exact .inr ⟨r, rest, (update_of_ne hrth ..).trans hr, hin⟩
  case taken =>
    intro r z hr th' hth'
    have hparked : s.pc th' = .parked ∧ s.since th' ≤ z := by
      rcases eq_or_ne r th with rfl | hne
      · simp only [update_self] at hr
        cases hr
        simp only [update_self, h.unwoken, List.length_nil,
          List.drop_zero] at hth'
        have hmem : th' ∈ s.waiting := by
          rcases htaken with ⟨_, rfl, _⟩ | ⟨_, rfl, _⟩
          · exact hth'
          · exact absurd hth' List.not_mem_nil
        have hpark := h.parked_of_queued hlock (h.waiting th' hmem)
        exact ⟨hpark, (h.since th' (by rw [hpark]; rfl)).le⟩
      · obtain ⟨hr', hz⟩ := hearlier r z hne hr
        simp only [update_of_ne hz] at hth'
        exact h.taken r z hr' th' hth'
    refine ⟨?_, hparked.2⟩
    exact (update_keeps rfl (· = WgPc.parked) (by simp [hidle]) hparked.1).2
  case woken =>
    intro z
    rcases eq_or_ne z s.hist.length with rfl | hne
    · simp only [h.unwoken]
      exact List.nil_prefix
    · simp only [update_of_ne hne]
      exact h.woken z
  case distinct =>
    intro z
    rcases eq_or_ne z s.hist.length with rfl | hne
    · simp only [update_self]
      rcases htaken with ⟨_, rfl, _⟩ | ⟨_, rfl, _⟩
      · exact h.queues.nodup
      · exact List.nodup_nil
    · simp only [update_of_ne hne]
      exact h.distinct z
  case due_zero =>
    intro z hz
    rcases eq_or_ne z s.hist.length with rfl | hne
    · simp only [update_self] at hz
      rcases htaken with ⟨hzero, _⟩ | ⟨_, rfl, _⟩
      · simp only [hzero, List.getElem?_concat_length]
      · exact absurd rfl hz
    · simp only [update_of_ne hne] at hz
      exact hkept z 0 (h.due_zero z hz)
  case fresh =>
    intro z hz
    rw [List.length_append, List.length_singleton] at hz
    simp only [update_of_ne (Nat.ne_of_gt hz)]
    exact h.fresh z (by omega)
  case caller =>
    intro r z hr
    rw [List.length_append, List.length_singleton]
    rcases eq_or_ne r th with rfl | hne
    · simp only [update_self] at hr
      cases hr
      refine ⟨by omega, fun r' hr' => ?_⟩
      by_contra hne'
      exact (hearlier r' _ hne' hr').2 rfl
    · obtain ⟨hr', hz⟩ := hearlier r z hne hr
      obtain ⟨hlt, hunique⟩ := h.caller r z hr'
      refine ⟨by omega, fun r' hr'' => ?_⟩
      have hne' : r' ≠ th := by
        rintro rfl
        simp only [update_self] at hr''
        cases hr''
        exact hz rfl
      exact hunique r' (hearlier r' z hne' hr'').1
  case finished =>
    intro z
    rcases eq_or_ne z s.hist.length with rfl | hne
    · exact .inl ⟨th, hown⟩
    · simp only [update_of_ne hne]
      apply (h.finished z).imp_left
      rintro ⟨r, hr⟩
      exact ⟨r, (update_keeps rfl (· = WgPc.waking z) (by simp [hidle]) hr).2⟩

theorem WgInv.returns (h : WgInv s) {z : Nat} (hth : s.pc th = .waking z)
    (hpop : (listPop s.links (.tmp th)).2 = none) :
    WgInv { s with
      links := (listPop s.links (.tmp th)).1
      pc := update s.pc th .idle } := by
  have hback : ∀ th' pc, pc ≠ .idle → update s.pc th .idle th' = pc →
      s.pc th' = pc :=
    fun _ pc hne hth' => (update_back rfl (· = pc) hne.symm hth').2
  have htmp := WaitGroupState.tmp_waking hth
  obtain ⟨hdone, hsame⟩ := h.queues.pop_none htmp hpop
  rw [hdone] at htmp
  have hall : s.woken z = s.due z :=
    (h.woken z).eq_of_length_le (List.drop_eq_nil_iff.mp hdone)
  have htmp' : ∀ r, WaitGroupState.tmp { s with
      links := (listPop s.links (.tmp th)).1
      pc := update s.pc th .idle } r = update s.tmp th none r := by
    intro r
    rcases eq_or_ne r th with rfl | hne
    · rw [update_self]
      exact WaitGroupState.tmp_eq_none (by simp)
    · rw [update_of_ne hne]
      exact WaitGroupState.tmp_congr (update_of_ne hne ..)
        fun _ _ => ⟨rfl, rfl⟩
  refine { h with
    queues := ?queues
    lock := fun th' hth' => h.lock th' (hback th' _ (by simp) hth')
    since := ?since
    ready := fun th' hth' => h.ready th' (hback th' _ (by simp) hth')
    waiting := ?waiting
    listed := ?listed
    taken := ?taken
    caller := ?caller
    finished := ?finished }
  case queues =>
    simp only [hsame]
    exact (h.queues.leave th).congr rfl htmp'
  case since =>
    intro th' hth'
    apply h.since th'
    exact (update_back rfl (WgPc.waits · = true) (by simp [WgPc.waits]) hth').2
  case waiting =>
    intro th' hth'
    exact (update_keeps rfl (WgPc.queued · = true)
      (by simp [hth, WgPc.queued]) (h.waiting th' hth')).2
  case listed =>
    intro th' hth'
    have hold :=
      (update_back rfl (WgPc.queued · = true) (by simp [WgPc.queued]) hth').2
    simp only [htmp']
    apply (h.listed th' hold).imp_right
    rintro ⟨r, rest, hr, hin⟩
    have hr' : r ≠ th := by
      rintro rfl
      rw [htmp] at hr
      cases hr
      exact List.not_mem_nil hin
    exact ⟨r, rest, (update_of_ne hr' ..).trans hr, hin⟩
  case taken =>
    intro r z' hr th' hth'
    obtain ⟨hparked, hle⟩ := h.taken r z' (hback r _ (by simp) hr) th' hth'
    exact ⟨(update_keeps rfl (· = WgPc.parked) (by simp [hth]) hparked).2, hle⟩
  case caller =>
    intro r z' hr
    obtain ⟨hlt, hunique⟩ := h.caller r z' (hback r _ (by simp) hr)
    exact ⟨hlt, fun r' hr' => hunique r' (hback r' _ (by simp) hr')⟩
  case finished =>
    intro z'
    rcases h.finished z' with ⟨r, hr⟩ | hfin
    · rcases eq_or_ne r th with rfl | hne
      · rw [hth] at hr
        cases hr
        exact .inr hall
      · exact .inl ⟨r, (update_of_ne hne ..).trans hr⟩
    · exact .inr hfin

omit [DecidableEq τ] in
theorem WgInv.popped (h : WgInv s) {z : Nat} (hth : s.pc th = .waking z)
    {rest : List τ} (hrest : (s.due z).drop (s.woken z).length = u :: rest) :
    s.due z = s.woken z ++ u :: rest ∧ s.pc u = .parked ∧ s.since u ≤ z ∧
      s.hist[z]? = some 0 := by
  have hdue : s.due z = s.woken z ++ u :: rest := by
    obtain ⟨rest', hrest'⟩ := h.woken z
    rw [← hrest, ← hrest', List.drop_left]
  have hmem : u ∈ (s.due z).drop (s.woken z).length :=
    hrest ▸ List.mem_cons_self
  obtain ⟨hparked, hle⟩ := h.taken th z hth u hmem
  refine ⟨hdue, hparked, hle, h.due_zero z ?_⟩
  rw [hdue]
  simp

theorem WgInv.wakes (h : WgInv s) {z : Nat} (hth : s.pc th = .waking z)
    (hpop : (listPop s.links (.tmp th)).2 = some (.link u)) :
    WgInv { s with
      links := (listPop s.links (.tmp th)).1
      pc := update s.pc u .ready
      woken := update s.woken z (s.woken z ++ [u]) } := by
  have htmp := WaitGroupState.tmp_waking hth
  obtain ⟨rest, hcase, hqueues⟩ := h.queues.pop_some htmp hpop
  rw [hcase] at htmp
  obtain ⟨hdueeq, hparked, hle, hzero⟩ := h.popped hth hcase
  have hback : ∀ th' pc, pc ≠ .ready → update s.pc u .ready th' = pc →
      s.pc th' = pc :=
    fun _ pc hne hth' => (update_back rfl (· = pc) hne.symm hth').2
  have hthu : th ≠ u := by
    rintro rfl
    rw [hth] at hparked
    cases hparked
  have hleft : (s.due z).drop (s.woken z ++ [u]).length = rest := by
    rw [hdueeq, List.append_cons _ u rest, List.drop_left]
  have hzother : ∀ r z', r ≠ th → s.pc r = .waking z' → z' ≠ z := by
    rintro r _ hne hr rfl
    exact hne ((h.caller th _ hth).2 r hr)
  have htmp' : ∀ r, WaitGroupState.tmp { s with
      links := (listPop s.links (.tmp th)).1
      pc := update s.pc u .ready
      woken := update s.woken z (s.woken z ++ [u]) } r =
        update s.tmp th (some rest) r := by
    intro r
    rcases eq_or_ne r th with rfl | hne
    · rw [update_self,
        WaitGroupState.tmp_waking ((update_of_ne hthu ..).trans hth)]
      simp only [update_self, hleft]
    · rw [update_of_ne hne]
      rcases eq_or_ne r u with rfl | hru
      · rw [WaitGroupState.tmp_eq_none (by simp),
          WaitGroupState.tmp_eq_none (by simp [hparked])]
      · apply WaitGroupState.tmp_congr (update_of_ne hru ..)
        exact fun z' hz' => ⟨rfl, update_of_ne (hzother r z' hne hz') ..⟩
  have hnot : ∀ r rest', update s.tmp th (some rest) r = some rest' →
      u ∉ rest' := by
    intro r rest' hr hmem
    rcases eq_or_ne r th with rfl | hne
    · rw [update_self] at hr
      cases hr
      exact (List.nodup_cons.mp (h.queues.tmp_nodup htmp)).1 hmem
    · rw [update_of_ne hne] at hr
      exact h.queues.not_mem_tmp hne.symm htmp hr List.mem_cons_self hmem
  refine { h with
    queues := hqueues.congr rfl htmp'
    lock := fun th' hth' => h.lock th' (hback th' _ (by simp) hth')
    since := ?since
    ready := ?ready
    waiting := ?waiting
    listed := ?listed
    taken := ?taken
    woken := ?woken
    caller := ?caller
    finished := ?finished }
  case since =>
    intro th' hth'
    apply h.since th'
    rcases eq_or_ne th' u with rfl | hne
    · rw [hparked]
      rfl
    · simpa only [update_of_ne hne] using hth'
  case ready =>
    intro th' hth'
    rcases eq_or_ne th' u with rfl | hne
    · exact ⟨z, hle, hzero⟩
    · simp only [update_of_ne hne] at hth'
      exact h.ready th' hth'
  case waiting =>
    intro th' hth'
    have hne : th' ≠ u := by
      rintro rfl
      exact h.queues.not_mem_waiters htmp List.mem_cons_self hth'
    simp only [update_of_ne hne]
    exact h.waiting th' hth'
  case listed =>
    intro th' hth'
    obtain ⟨hne, hold⟩ :=
      update_back rfl (WgPc.queued · = true) (by simp [WgPc.queued]) hth'
    simp only [htmp']
    apply (h.listed th' hold).imp_right
    rintro ⟨r, rest', hr, hin⟩
    rcases eq_or_ne r th with rfl | hr'
    · rw [htmp] at hr
      cases hr
      refine ⟨r, rest, update_self .., ?_⟩
      exact (List.mem_cons.mp hin).resolve_left hne
    · exact ⟨r, rest', (update_of_ne hr' ..).trans hr, hin⟩
  case taken =>
    intro r z' hr th' hth'
    have hne : th' ≠ u := by
      rintro rfl
      exact hnot r _ ((htmp' r).symm.trans (WaitGroupState.tmp_waking hr)) hth'
    have hin : th' ∈ (s.due z').drop (s.woken z').length := by
      rcases eq_or_ne z' z with rfl | hz
      · simp only [update_self, hleft] at hth'
        rw [hcase]
        exact List.mem_cons_of_mem _ hth'
      · simpa only [update_of_ne hz] using hth'
    simp only [update_of_ne hne]
    exact h.taken r z' (hback r _ (by simp) hr) th' hin
  case woken =>
    intro z'
    rcases eq_or_ne z' z with rfl | hz
    · simp only [update_self]
      rw [hdueeq, List.append_cons _ u rest]
      exact List.prefix_append ..
    · simp only [update_of_ne hz]
      exact h.woken z'
  case caller =>
    intro r z' hr
    obtain ⟨hlt, hunique⟩ := h.caller r z' (hback r _ (by simp) hr)
    exact ⟨hlt, fun r' hr' => hunique r' (hback r' _ (by simp) hr')⟩
  case finished =>
    intro z'
    rcases eq_or_ne z' z with rfl | hz
    · exact .inl ⟨th, (update_of_ne hthu ..).trans hth⟩
    · simp only [update_of_ne hz]
      apply (h.finished z').imp_left
      rintro ⟨r, hr⟩
      exact ⟨r,
        (update_keeps rfl (· = WgPc.waking z') (by simp [hparked]) hr).2⟩

theorem WgInv.next (h : WgInv s) (hok : wgOk s a)
    (hnext : waitgroupNext s a = some t) : WgInv t := by
  cases waitgroupNext_step hnext with
  | @zero th cnt hidle hlock hzero =>
    have htmp : s.tmp th = none :=
      WaitGroupState.tmp_eq_none (by simp [hidle])
    exact h.added hok hidle hlock (.inl ⟨hzero, rfl, rfl⟩)
      (h.queues.take htmp)
  | @adds th cnt hidle hlock hne =>
    have htmp : s.tmp th = none :=
      WaitGroupState.tmp_eq_none (by simp [hidle])
    have hdue : update s.due s.hist.length [] = s.due :=
      update_eq_self_iff.mpr (h.fresh _ (Nat.le_refl _)).symm
    rw [← hdue]
    exact h.added hok hidle hlock (.inr ⟨hne, rfl, rfl⟩)
      (h.queues.enter htmp)
  | returns hth hpop => exact h.returns hth hpop
  | wakes hth hpop => exact h.wakes hth hpop
  | @waits th hidle =>
    refine h.move (by simp [hidle]) (by simp) (by rw [hidle]; rfl)
      (by simp [hidle]) (by simp) (by simp) (fun _ _ hheld => hheld)
      (fun th' hne => update_of_ne hne ..) (fun _ => ?_)
    have hlen : s.hist ≠ [] := by
      intro hnil
      have hlast := h.last
      rw [hnil] at hlast
      cases hlast
    have hpos := List.length_pos_iff.mpr hlen
    simp only [update_self]
    omega
  | passes hpc _ | runs hpc =>
    exact h.move (by simp [hpc]) (by simp) (by rw [hpc]; rfl)
      (by simp [hpc]) (by simp) (by simp) (fun _ _ hheld => hheld)
      (fun _ _ => rfl) (fun hwaits => Bool.noConfusion hwaits)
  | enlists hpc hlock hne => exact h.enlists hpc hlock hne
  | @parks th hpc =>
    refine h.move (by simp [hpc]) (by simp) (by rw [hpc]; rfl)
      (by simp [hpc]) (by simp) (by simp) (fun th' hne hheld => ?_)
      (fun _ _ => rfl) (fun _ => h.since th (by rw [hpc]; rfl))
    rw [h.lock th hpc] at hheld
    exact absurd (Option.some.inj hheld).symm hne
  | relinks hpc => exact h.relinks hpc _ _

end Steps

section Runs

variable {s t : WaitGroupState τ} {a : WgAct τ} {th : τ}

theorem waitgroupInit_inv (links : Links (SyncNode τ)) :
    WgInv (waitgroupInit links) := by
  constructor
  case cnt =>
    change (0 : BitVec 32).toInt = 0
    decide
  case sum_nonneg => exact Int.le_refl 0
  case last => rfl
  case zero => exact fun _ => rfl
  case queues => exact (WaitQueues.init links).congr rfl fun _ => rfl
  case lock => exact fun _ hpc => WgPc.noConfusion hpc
  case since => exact fun _ hwaits => Bool.noConfusion hwaits
  case ready => exact fun _ hpc => WgPc.noConfusion hpc
  case waiting => exact fun _ hmem => absurd hmem List.not_mem_nil
  case listed => exact fun _ hqueued => Bool.noConfusion hqueued
  case taken => exact fun _ _ hpc => WgPc.noConfusion hpc
  case woken => exact fun _ => List.prefix_rfl
  case distinct => exact fun _ => List.nodup_nil
  case due_zero => exact fun _ hne => absurd rfl hne
  case fresh => exact fun _ _ => rfl
  case caller => exact fun _ _ hpc => WgPc.noConfusion hpc
  case finished => exact fun _ => .inr rfl

theorem waitgroupSystem_inv (hs : (waitgroupSystem τ).Reach wgOk s) :
    WgInv s := by
  apply hs.invariant
  · rintro s ⟨links, rfl⟩
    exact waitgroupInit_inv links
  · exact fun s a t h hok hnext => h.next hok hnext

/-- What the next round of the loop does in which `th` wakes those it took. -/
def WaitGroupState.WakeRound (s : WaitGroupState τ) (th : τ) (z : Nat) : Prop :=
  (s.woken z = s.due z ∧ ∃ L, waitgroupNext s (.wake th) =
    some { s with links := L, pc := update s.pc th .idle }) ∨
  ∃ u rest L, s.due z = s.woken z ++ u :: rest ∧
    waitgroupNext s (.wake th) = some { s with
      links := L
      pc := update s.pc u .ready
      woken := update s.woken z (s.woken z ++ [u]) }

structure WaitGroupSound (s : WaitGroupState τ) : Prop where
  cnt : s.cnt.toInt = s.sum
  empty : s.cnt = 0 → listEmpty s.links .waiters = true
  /-- `BUG_ON` does not fire. -/
  adds : ∀ th cnt, wgOk s (.add th cnt) → s.pc th = .idle → s.lock = none →
    ∃ t, waitgroupNext s (.add th cnt) = some t
  /-- A call of `waitgroup_wait` returns only after the count was 0 at some
  moment since it began. -/
  returns : ∀ th a t, waitgroupNext s a = some t → (s.pc th).waits = true →
    (t.pc th).waits = false → ∃ k, s.since th ≤ k ∧ t.hist[k]? = some 0
  /-- The call that brings the count to 0 takes everybody who waits, except
  those that an earlier one is about to wake. -/
  takes : ∀ th cnt t, waitgroupNext s (.add th cnt) = some t → t.cnt = 0 →
    t.pc th = .waking s.hist.length ∧ t.due s.hist.length = s.waiting ∧
    t.woken s.hist.length = [] ∧
    ∀ th', s.pc th' = .parked ↔ th' ∈ s.waiting ∨
      ∃ r z, s.pc r = .waking z ∧ th' ∈ (s.due z).drop (s.woken z).length
  /-- It makes them ready one after the other, each once, and has done so when
  it returns. -/
  woken : ∀ z, (s.due z).Nodup ∧ s.woken z <+: s.due z ∧
    ((∃ r, s.pc r = .waking z) ∨ s.woken z = s.due z)
  /-- Nobody else makes them ready. -/
  exclusive : ∀ r z, s.pc r = .waking z →
    ∀ th ∈ (s.due z).drop (s.woken z).length, s.pc th = .parked ∧
      th ∉ s.waiting ∧ ∀ r' z', s.pc r' = .waking z' →
        th ∈ (s.due z').drop (s.woken z').length → r' = r
  /-- A round of its waking loop makes the next of them ready, and with nobody
  left the call returns. -/
  wakes : ∀ th z, s.pc th = .waking z → s.WakeRound th z
  /-- So as many rounds as there are threads left, and one more, end it. -/
  ends : ∀ th z, s.pc th = .waking z →
    ∃ t, (waitgroupSystem τ).exec s (.replicate
        ((s.due z).length - (s.woken z).length + 1) (.wake th)) = some t ∧
      t.pc th = .idle ∧ t.woken z = s.due z

omit [DecidableEq τ] in
theorem WgInv.current (h : WgInv s) :
    s.hist[s.hist.length - 1]? = some s.cnt := by
  rw [← List.getLast?_eq_getElem?]
  exact h.last

theorem WgInv.wait_returns (h : WgInv s) (hnext : waitgroupNext s a = some t)
    (hin : (s.pc th).waits = true) (hout : (t.pc th).waits = false) :
    ∃ k, s.since th ≤ k ∧ t.hist[k]? = some 0 := by
  have hmoved : ∀ {th' : τ} {pc : WgPc},
      t.pc = update s.pc th' pc → th = th' := by
    intro th' pc hpc
    by_contra hne
    rw [hpc, update_of_ne hne, hin] at hout
    cases hout
  cases waitgroupNext_step hnext with
  | zero hidle | adds hidle | waits hidle =>
    obtain rfl := hmoved rfl
    rw [hidle] at hin
    cases hin
  | returns hwaking =>
    obtain rfl := hmoved rfl
    rw [hwaking] at hin
    cases hin
  | wakes | enlists | parks =>
    obtain rfl := hmoved rfl
    simp only [update_self] at hout
    cases hout
  | passes _ hzero =>
    obtain rfl := hmoved rfl
    have hsince := h.since th hin
    refine ⟨s.hist.length - 1, by omega, ?_⟩
    exact h.current.trans (congrArg some hzero)
  | runs hready =>
    obtain rfl := hmoved rfl
    exact h.ready th hready
  | relinks =>
    rw [hin] at hout
    cases hout

theorem WgInv.adds_enabled (h : WgInv s) {cnt : BitVec 32}
    (hok : wgOk s (.add th cnt)) (hidle : s.pc th = .idle)
    (hlock : s.lock = none) : ∃ t, waitgroupNext s (.add th cnt) = some t := by
  obtain ⟨hnonneg, hlt⟩ := hok
  rw [← h.cnt] at hnonneg hlt
  have hsum : ¬ (s.cnt + cnt).slt 0 = true := by
    rw [BitVec.slt_iff_toInt_lt, cnt_add hnonneg hlt]
    simpa using hnonneg
  simp only [waitgroupNext, if_pos (And.intro hidle hlock), if_neg hsum]
  split_ifs
  · exact ⟨_, rfl⟩
  · exact ⟨_, rfl⟩

theorem WgInv.wake_round (h : WgInv s) {z : Nat} (hth : s.pc th = .waking z) :
    s.WakeRound th z := by
  have htmp := WaitGroupState.tmp_waking hth
  cases hrest : (s.due z).drop (s.woken z).length with
  | nil =>
    rw [hrest] at htmp
    refine .inl ⟨(h.woken z).eq_of_length_le (List.drop_eq_nil_iff.mp hrest), ?_⟩
    simp only [waitgroupNext, hth, h.queues.pop_nil htmp]
    exact ⟨_, rfl⟩
  | cons u rest =>
    rw [hrest] at htmp
    obtain ⟨L, hpop, _⟩ := h.queues.pop_cons htmp
    obtain ⟨hdue, hparked, _⟩ := h.popped hth hrest
    refine .inr ⟨u, rest, L, hdue, ?_⟩
    simp only [waitgroupNext, hth, hpop, if_pos hparked]

/-- By induction on the number of threads that are left. -/
theorem WgInv.loop_ends (h : WgInv s) {z left : Nat}
    (hth : s.pc th = .waking z)
    (hleft : (s.due z).length = (s.woken z).length + left) :
    ∃ t, (waitgroupSystem τ).exec s (.replicate (left + 1) (.wake th)) =
        some t ∧ t.pc th = .idle ∧ t.woken z = s.due z := by
  induction left generalizing s with
  | zero =>
    rcases h.wake_round hth with ⟨hall, L, hnext⟩ | ⟨u, rest, L, hdue, _⟩
    · exact ⟨_, System.exec_cons.mpr ⟨_, hnext, rfl⟩, update_self .., hall⟩
    · rw [hdue, List.length_append, List.length_cons] at hleft
      omega
  | succ left ih =>
    rcases h.wake_round hth with ⟨hall, L, hnext⟩ | ⟨u, rest, L, hdue, hnext⟩
    · rw [hall] at hleft
      omega
    · have hu : u ∈ (s.due z).drop (s.woken z).length := by
        rw [hdue, List.drop_left]
        exact List.mem_cons_self
      have hne : th ≠ u := by
        rintro rfl
        rw [(h.taken th z hth th hu).1] at hth
        cases hth
      obtain ⟨t, hrun, hidle, hall⟩ := ih (h.next (a := .wake th) trivial hnext)
        ((update_of_ne hne ..).trans hth)
        (by
          simp only [update_self, List.length_append, List.length_singleton]
          omega)
      exact ⟨t, System.exec_cons.mpr ⟨_, hnext, hrun⟩, hidle, hall⟩

omit [DecidableEq τ] in
theorem WgInv.parked_iff (h : WgInv s) (hlock : s.lock = none) :
    s.pc th = .parked ↔ th ∈ s.waiting ∨
      ∃ r z, s.pc r = .waking z ∧
        th ∈ (s.due z).drop (s.woken z).length := by
  constructor
  · intro hparked
    apply (h.listed th (by rw [hparked]; rfl)).imp_right
    rintro ⟨r, rest, hr, hin⟩
    obtain ⟨z, hwaking, rfl⟩ := WaitGroupState.tmp_eq_some hr
    exact ⟨r, z, hwaking, hin⟩
  · rintro (hin | ⟨r, z, hr, hin⟩)
    · exact h.parked_of_queued hlock (h.waiting th hin)
    · exact (h.taken r z hr th hin).1

theorem WgInv.takes (h : WgInv s) {cnt : BitVec 32}
    (hnext : waitgroupNext s (.add th cnt) = some t) (hzero : t.cnt = 0) :
    t.pc th = .waking s.hist.length ∧ t.due s.hist.length = s.waiting ∧
    t.woken s.hist.length = [] ∧ s.lock = none := by
  cases waitgroupNext_step hnext with
  | zero _ hlock =>
    exact ⟨update_self .., update_self .., h.unwoken, hlock⟩
  | adds _ _ hne => exact absurd hzero hne

/-- In every run that keeps the sum of the counts in range. -/
theorem waitgroup_sound (hs : (waitgroupSystem τ).Reach wgOk s) :
    WaitGroupSound s := by
  have h := waitgroupSystem_inv hs
  constructor
  case cnt => exact h.cnt
  case empty =>
    intro hzero
    rw [h.queues.empty_iff]
    exact h.zero hzero
  case adds => exact fun th cnt hok hidle hlock => h.adds_enabled hok hidle hlock
  case returns => exact fun th a t hnext hin hout => h.wait_returns hnext hin hout
  case takes =>
    intro th cnt t hnext hzero
    obtain ⟨hpc, hdue, hwoken, hlock⟩ := h.takes hnext hzero
    exact ⟨hpc, hdue, hwoken, fun th' => h.parked_iff hlock⟩
  case woken => exact fun z => ⟨h.distinct z, h.woken z, h.finished z⟩
  case exclusive =>
    intro r z hr th hth
    have htmp := WaitGroupState.tmp_waking hr
    refine ⟨(h.taken r z hr th hth).1, h.queues.not_mem_waiters htmp hth,
      fun r' z' hr' hth' => ?_⟩
    by_contra hne
    exact h.queues.not_mem_tmp (Ne.symm hne) htmp
      (WaitGroupState.tmp_waking hr') hth hth'
  case wakes => exact fun th z hth => h.wake_round hth
  case ends =>
    intro th z hth
    have hle := (h.woken z).length_le
    exact h.loop_ends hth (by omega)

/-- Thread 1 waits until thread 0 has brought the count to 0; thread 2 raises it
again before thread 1 is woken. -/
def raisedRun : List (WgAct Nat) :=
  [.add 0 1, .wake 0, .wait 1, .enter 1, .park 1, waitgroupDone 0, .add 2 1,
    .wake 2, .wake 0]

theorem raisedRun_isSome :
    (((waitgroupSystem Nat).restrict fun s a => decide (wgOk s a)).exec
      (waitgroupInit ⟨id, id⟩) raisedRun).isSome := by
  decide

def raised : WaitGroupState Nat :=
  (((waitgroupSystem Nat).restrict fun s a => decide (wgOk s a)).exec
    (waitgroupInit ⟨id, id⟩) raisedRun).get raisedRun_isSome

theorem waitgroup_sound_raised :
    raised.cnt = 1 ∧ raised.pc 1 = .ready ∧ raised.hist = [0, 1, 0, 1] ∧
    raised.since 1 = 1 ∧ raised.due 2 = [1] ∧ WaitGroupSound raised := by
  have hinit : (waitgroupSystem Nat).init (waitgroupInit ⟨id, id⟩) :=
    ⟨_, rfl⟩
  have hreach : (waitgroupSystem Nat).Reach wgOk raised :=
    .of_checked hinit (Option.some_get raisedRun_isSome).symm
  exact ⟨by decide, by decide, by decide, by decide, by decide,
    waitgroup_sound hreach⟩

end Runs

end Libut.Runtime
