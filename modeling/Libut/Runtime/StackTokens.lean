import Libut.Runtime.Stack

/-!
The invariant of the stack handshake, and what a step must do to keep it.

Two tokens of each thread are followed through a run. The stack token is with
the kthread that executes on the stack or has still to clear `stack_busy`; the
run token is with the kthread that popped the thread to run it, or with the
queue the thread is in. A kthread that waits for `stack_busy` has the run token
of a thread whose stack token may still be elsewhere. The flag reads false only
when it is not.
-/

namespace Libut.Runtime

open Function Machine

variable {κ τ : Type} {s t : StackState κ τ} {k l : κ} {th : τ}

section Tokens

variable (s : StackState κ τ) (k : κ)

/-- The thread whose `stack_busy` kthread `k` has still to clear after leaving
the stack. -/
def StackState.clears : Option τ :=
  match s.pc k with
  | .directSaved oldth _ => some oldth
  | .schedule => s.self k
  | _ => none

def StackState.holds : Option τ :=
  (s.onStack k).or (s.clears k)

def StackState.claims : Option τ :=
  match s.pc k with
  | .running th | .directWait _ th | .directSaved _ th | .jumpWait th =>
    some th
  | .finishYield => s.self k
  | _ => none

def PcOk : Prop :=
  match s.pc k with
  | .running th =>
    s.self k = some th ∧ s.stackBusy th = false ∧ s.saved th = false ∧
    s.state th = .running
  | .marked myth =>
    s.self k = some myth ∧ s.stackBusy myth = true ∧
    s.saved myth = false ∧ s.state myth = .sleeping ∧
    s.visible myth = false
  | .published myth =>
    s.self k = some myth ∧ s.stackBusy myth = true ∧ s.saved myth = false
  | .directWait oldth newth =>
    s.self k = some newth ∧ s.stackBusy oldth = true ∧
    s.saved oldth = false ∧ s.state newth = .running
  | .directSaved oldth newth =>
    s.self k = some newth ∧ s.stackBusy oldth = true ∧
    s.saved oldth = true ∧ s.state newth = .running ∧
    s.stackBusy newth = false ∧ s.saved newth = true
  | .schedule =>
    ∃ th, s.self k = some th ∧ s.stackBusy th = true ∧ s.saved th = true
  | .scanning | .parked => s.self k = none
  | .jumpWait th => s.self k = some th ∧ s.state th = .running
  | .finishYield =>
    ∃ th, s.self k = some th ∧ s.state th = .running ∧
      s.stackBusy th = false ∧ s.saved th = true
  | .yielded | .yieldParked | .yieldSchedule => ∃ th, s.self k = some th

/-- The thread `PcOk` says has been left and released. -/
def StackState.released : Option τ :=
  match s.pc k with
  | .directSaved _ newth => some newth
  | .finishYield => s.self k
  | _ => none

def StackPc.idle : StackPc τ → Bool
  | .scanning | .parked | .yielded | .yieldParked | .yieldSchedule => true
  | _ => false

end Tokens

structure QueuedOk (queue : Place κ → List τ) (state : τ → ThreadState) :
    Prop where
  runnable : ∀ p, ∀ th ∈ queue p, state th = .runnable
  nodup : ∀ p, (queue p).Nodup
  once : ∀ p q, ∀ th ∈ queue p, th ∈ queue q → p = q

structure StackInv (s : StackState κ τ) : Prop where
  pcOk : ∀ k, PcOk s k
  holds_inj : ∀ k l th, s.holds k = some th → s.holds l = some th → k = l
  claims_inj : ∀ k l th, s.claims k = some th → s.claims l = some th → k = l
  free : ∀ th, (∀ k, s.holds k ≠ some th) →
    s.stackBusy th = false ∧ s.saved th = true
  queued : QueuedOk s.queue s.state

section Queued

variable {queue : Place κ → List τ} {state : τ → ThreadState}

theorem QueuedOk.not_mem (h : QueuedOk queue state) (hth : state th ≠ .runnable)
    (p : Place κ) : th ∉ queue p :=
  fun hmem => hth (h.runnable p th hmem)

variable [DecidableEq τ] {x : ThreadState}

theorem QueuedOk.setState (h : QueuedOk queue state)
    (hth : state th ≠ .runnable) : QueuedOk queue (update state th x) := by
  refine ⟨fun p th' hmem => ?_, h.nodup, h.once⟩
  have hne : th' ≠ th := fun heq => h.not_mem hth p (heq ▸ hmem)
  rw [update_of_ne hne]
  exact h.runnable p th' hmem

variable [DecidableEq κ] {p q : Place κ}

theorem QueuedOk.take (h : QueuedOk queue state) (hmem : th ∈ queue p) :
    QueuedOk (update queue p ((queue p).erase th))
      (update state th x) := by
  have hsub : ∀ q, ∀ th' ∈ update queue p ((queue p).erase th) q,
      th' ∈ queue q ∧ th' ≠ th := by
    intro q th' hth'
    rcases eq_or_ne q p with rfl | hq
    · rw [update_self, (h.nodup q).mem_erase_iff] at hth'
      exact ⟨hth'.2, hth'.1⟩
    · rw [update_of_ne hq] at hth'
      exact ⟨hth', fun heq => hq (h.once q p th (heq ▸ hth') hmem)⟩
  refine ⟨fun q th' hth' => ?_, fun q => ?_, fun q r th' hq hr => ?_⟩
  · obtain ⟨hold, hne⟩ := hsub q th' hth'
    rw [update_of_ne hne]
    exact h.runnable q th' hold
  · rcases eq_or_ne q p with rfl | hq
    · rw [update_self]
      exact (h.nodup q).erase th
    · rw [update_of_ne hq]
      exact h.nodup q
  · exact h.once q r th' (hsub q th' hq).1 (hsub r th' hr).1

theorem QueuedOk.put (h : QueuedOk queue state) (hth : state th ≠ .runnable) :
    QueuedOk (update queue p (queue p ++ [th]))
      (update state th .runnable) := by
  have hsplit : ∀ q, ∀ th' ∈ update queue p (queue p ++ [th]) q,
      th' ∈ queue q ∧ th' ≠ th ∨ th' = th ∧ q = p := by
    intro q th' hth'
    have hne : th' ∈ queue q → th' ≠ th :=
      fun hmem heq => h.not_mem hth q (heq ▸ hmem)
    rcases eq_or_ne q p with rfl | hq
    · rw [update_self, List.mem_append, List.mem_singleton] at hth'
      exact hth'.imp (fun hmem => ⟨hmem, hne hmem⟩) fun heq => ⟨heq, rfl⟩
    · rw [update_of_ne hq] at hth'
      exact .inl ⟨hth', hne hth'⟩
  refine ⟨fun q th' hth' => ?_, fun q => ?_, fun q r th' hq hr => ?_⟩
  · rcases hsplit q th' hth' with ⟨hmem, hne⟩ | ⟨rfl, _⟩
    · rw [update_of_ne hne]
      exact h.runnable q th' hmem
    · exact update_self ..
  · rcases eq_or_ne q p with rfl | hq
    · rw [update_self]
      exact List.nodup_append_comm.mp (by
        simpa using ⟨h.not_mem hth q, h.nodup q⟩)
    · rw [update_of_ne hq]
      exact h.nodup q
  · rcases hsplit q th' hq with ⟨hq, hne⟩ | ⟨heq, rfl⟩
    · rcases hsplit r th' hr with ⟨hr, _⟩ | ⟨heq, _⟩
      · exact h.once q r th' hq hr
      · exact absurd heq hne
    · rcases hsplit r th' hr with ⟨_, hne⟩ | ⟨_, rfl⟩
      · exact absurd heq hne
      · rfl

theorem QueuedOk.move (h : QueuedOk queue state) (hmem : th ∈ queue p) :
    QueuedOk
      (update (update queue p ((queue p).erase th)) q
        (update queue p ((queue p).erase th) q ++ [th]))
      (update state th .runnable) := by
  have htaken := h.take (x := .sleeping) hmem
  have hasleep : update state th .sleeping th ≠ .runnable := by simp
  have hput := htaken.put (p := q) hasleep
  rwa [update_idem] at hput

end Queued

section Facts

theorem holds_of_idle (hk : (s.pc k).idle = true) : s.holds k = none := by
  unfold StackState.holds StackState.onStack StackState.clears
  cases hpc : s.pc k <;> first | rfl | simp [hpc, StackPc.idle] at hk

theorem claims_of_idle (hk : (s.pc k).idle = true) : s.claims k = none := by
  unfold StackState.claims
  cases hpc : s.pc k <;> first | rfl | simp [hpc, StackPc.idle] at hk

theorem PcOk.holds_cases (h : PcOk s k) (hk : s.holds k = some th) :
    s.pc k = .running th ∧ s.saved th = false ∨ s.stackBusy th = true := by
  unfold StackState.holds StackState.onStack StackState.clears at hk
  unfold PcOk at h
  cases hpc : s.pc k with
  | running th' =>
    simp only [hpc, Option.some_or, Option.some.injEq] at hk h
    subst hk
    exact .inl ⟨rfl, h.2.2.1⟩
  | marked th' | published th' | directWait th' newth =>
    simp only [hpc, Option.some_or, Option.some.injEq] at hk h
    subst hk
    exact .inr h.2.1
  | directSaved oldth newth =>
    simp only [hpc, Option.none_or, Option.some.injEq] at hk h
    subst hk
    exact .inr h.2.1
  | schedule =>
    simp only [hpc, Option.none_or] at hk h
    obtain ⟨th', hself, hbusy, _⟩ := h
    rw [hself, Option.some.injEq] at hk
    subst hk
    exact .inr hbusy
  | scanning | parked | jumpWait | finishYield | yielded | yieldParked
    | yieldSchedule => simp [hpc] at hk

theorem PcOk.released (h : PcOk s k) (hk : s.released k = some th) :
    s.claims k = some th ∧ s.stackBusy th = false ∧ s.saved th = true := by
  unfold StackState.released at hk
  unfold PcOk at h
  unfold StackState.claims
  split at hk
  · rename_i oldth newth hpc
    cases hk
    simp only [hpc] at h ⊢
    exact ⟨trivial, h.2.2.2.2⟩
  · rename_i hpc
    simp only [hpc] at h ⊢
    obtain ⟨th', hself, _, hfree⟩ := h
    rw [hself, Option.some.injEq] at hk
    exact ⟨hself.trans (congrArg some hk), hk ▸ hfree⟩
  · cases hk

theorem PcOk.claims_state (h : PcOk s k) (hk : s.claims k = some th) :
    s.state th = .running := by
  unfold StackState.claims at hk
  unfold PcOk at h
  cases hpc : s.pc k <;> simp only [hpc] at h hk <;> grind

/-- What `PcOk` says of a kthread reads only the stack fields of the threads it
holds or found released, and the state of those it claims or is marking. -/
theorem PcOk.frame (h : PcOk s k) (hpc : t.pc k = s.pc k)
    (hself : t.self k = s.self k)
    (hstack : ∀ th, s.holds k = some th ∨ s.released k = some th →
      t.stackBusy th = s.stackBusy th ∧ t.saved th = s.saved th)
    (hstate : ∀ th, s.claims k = some th ∨ s.pc k = .marked th →
      t.state th = s.state th ∧ t.visible th = s.visible th) : PcOk t k := by
  unfold StackState.holds StackState.onStack StackState.clears
    StackState.released at hstack
  unfold StackState.claims at hstate
  unfold PcOk at h ⊢
  rw [hpc, hself]
  cases hp : s.pc k <;> simp only [hp] at h hstack hstate ⊢ <;> grind

end Facts

/-- A kind of token that nobody has twice stays so when one kthread gives its
own away and takes one that was free. -/
theorem token_inj {f g : κ → Option τ}
    (hf : ∀ k l th, f k = some th → f l = some th → k = l)
    (hsame : ∀ l ≠ k, g l = f l)
    (hnew : ∀ th, g k = some th → ∀ l ≠ k, f l ≠ some th) (l m : κ) (th : τ)
    (hl : g l = some th) (hm : g m = some th) : l = m := by
  by_cases hlk : l = k
  · by_cases hmk : m = k
    · exact hlk.trans hmk.symm
    · exact absurd (hsame m hmk ▸ hm) (hnew th (hlk ▸ hl) m hmk)
  · by_cases hmk : m = k
    · exact absurd (hsame l hlk ▸ hl) (hnew th (hmk ▸ hm) l hlk)
    · exact hf l m th (hsame l hlk ▸ hl) (hsame m hmk ▸ hm)

namespace StackInv

section

variable (h : StackInv s)
include h

theorem alone (hk : s.holds k = some th) (hl : l ≠ k) :
    ¬ (s.holds l = some th ∨ s.released l = some th) := by
  rintro (hholds | hreleased)
  · exact hl (h.holds_inj l k th hholds hk)
  · obtain ⟨_, hbusy, hsaved⟩ := (h.pcOk l).released hreleased
    rcases (h.pcOk k).holds_cases hk with ⟨_, hunsaved⟩ | hbusy'
    · exact Bool.noConfusion (hsaved.symm.trans hunsaved)
    · exact Bool.noConfusion (hbusy.symm.trans hbusy')

/-- Why the wait for `stack_busy` is enough: the thread is claimed by the
kthread that waits, so nobody runs it, and whoever else is on its stack or has
left it without saying so keeps the flag set. -/
theorem not_held (hk : s.claims k = some th) (hbusy : s.stackBusy th = false)
    (hwait : s.pc k ≠ .running th) (l : κ) : s.holds l ≠ some th := by
  intro hl
  rcases (h.pcOk l).holds_cases hl with ⟨hrun, _⟩ | hbusy'
  · have hclaims : s.claims l = some th := by rw [StackState.claims, hrun]
    obtain rfl := h.claims_inj k l th hk hclaims
    exact hwait hrun
  · exact Bool.noConfusion (hbusy.symm.trans hbusy')

theorem alone_of_not_held (hk : s.claims k = some th)
    (hfree : ∀ l, s.holds l ≠ some th) (hl : l ≠ k) :
    ¬ (s.holds l = some th ∨ s.released l = some th) := by
  rintro (hholds | hreleased)
  · exact hfree l hholds
  · exact hl (h.claims_inj l k th ((h.pcOk l).released hreleased).1 hk)

/-- A step of kthread `k`. The other kthreads keep their place in the code and
what they know of the threads they handle; `k` arrives at a point where `PcOk`
holds, and the tokens it has there were its own or nobody's. -/
theorem step (k : κ) (hpc : ∀ l ≠ k, t.pc l = s.pc l)
    (hself : ∀ l ≠ k, t.self l = s.self l)
    (hstack : ∀ l ≠ k, ∀ th, s.holds l = some th ∨ s.released l = some th →
      t.stackBusy th = s.stackBusy th ∧ t.saved th = s.saved th)
    (hstate : ∀ l ≠ k, ∀ th, s.claims l = some th ∨ s.pc l = .marked th →
      t.state th = s.state th ∧ t.visible th = s.visible th) (hk : PcOk t k)
    (hholds : ∀ th, t.holds k = some th → ∀ l ≠ k, s.holds l ≠ some th)
    (hclaims : ∀ th, t.claims k = some th → ∀ l ≠ k, s.claims l ≠ some th)
    (hfree : ∀ th, (∀ l ≠ k, s.holds l ≠ some th) → t.holds k ≠ some th →
      t.stackBusy th = false ∧ t.saved th = true)
    (hqueued : QueuedOk t.queue t.state) : StackInv t := by
  have hholdsEq : ∀ l ≠ k, t.holds l = s.holds l := fun l hl => by
    unfold StackState.holds StackState.onStack StackState.clears
    rw [hpc l hl, hself l hl]
  have hclaimsEq : ∀ l ≠ k, t.claims l = s.claims l := fun l hl => by
    unfold StackState.claims
    rw [hpc l hl, hself l hl]
  refine ⟨fun l => ?_, token_inj h.holds_inj hholdsEq hholds,
    token_inj h.claims_inj hclaimsEq hclaims, fun th hth => ?_, hqueued⟩
  · rcases eq_or_ne l k with rfl | hl
    · exact hk
    · exact (h.pcOk l).frame (hpc l hl) (hself l hl) (hstack l hl)
        (hstate l hl)
  · exact hfree th (fun l hl => hholdsEq l hl ▸ hth l) (hth k)

theorem stepKeep (k : κ) (hpc : ∀ l ≠ k, t.pc l = s.pc l)
    (hself : ∀ l ≠ k, t.self l = s.self l) (hbusy : t.stackBusy = s.stackBusy)
    (hsaved : t.saved = s.saved) (hholds : t.holds k = s.holds k)
    (hstate : ∀ l ≠ k, ∀ th, s.claims l = some th ∨ s.pc l = .marked th →
      t.state th = s.state th ∧ t.visible th = s.visible th)
    (hclaims : ∀ th, t.claims k = some th → ∀ l ≠ k, s.claims l ≠ some th)
    (hqueued : QueuedOk t.queue t.state) (hk : PcOk t k) : StackInv t := by
  refine h.step k hpc hself (fun _ _ th _ => by rw [hbusy, hsaved]; simp)
    hstate hk (fun th hth l hl hl' => ?_) hclaims (fun th hothers hth => ?_)
    hqueued
  · exact hl (h.holds_inj l k th hl' (hholds ▸ hth))
  · rw [hbusy, hsaved]
    refine h.free th fun l => ?_
    rcases eq_or_ne l k with rfl | hl
    · exact hholds ▸ hth
    · exact hothers l hl

/-- A step of `k` that changes the stack fields of the one thread whose stack
token it has, and keeps the token or gives it up with the frame saved and the
flag cleared. -/
theorem stepHeld (hheld : s.holds k = some th) (hpc : ∀ l ≠ k, t.pc l = s.pc l)
    (hself : ∀ l ≠ k, t.self l = s.self l) (hother : ∀ th' ≠ th,
      t.stackBusy th' = s.stackBusy th' ∧ t.saved th' = s.saved th')
    (hholds : t.holds k = some th ∨
      t.holds k = none ∧ t.stackBusy th = false ∧ t.saved th = true)
    (hstate : ∀ l ≠ k, ∀ th, s.claims l = some th ∨ s.pc l = .marked th →
      t.state th = s.state th ∧ t.visible th = s.visible th)
    (hclaims : ∀ th, t.claims k = some th → ∀ l ≠ k, s.claims l ≠ some th)
    (hqueued : QueuedOk t.queue t.state) (hk : PcOk t k) : StackInv t := by
  have hsub : ∀ th', t.holds k = some th' → th' = th := by
    intro th' hth'
    rcases hholds with hkeep | ⟨hnone, _⟩
    · exact Option.some.inj (hth'.symm.trans hkeep)
    · exact absurd (hnone.symm.trans hth') (by simp)
  refine h.step k hpc hself (fun l hl th' hth' => hother th' ?_) hstate hk
    (fun th' hth' l hl hl' => ?_) hclaims (fun th' hothers hth' => ?_) hqueued
  · rintro rfl
    exact h.alone hheld hl hth'
  · obtain rfl := hsub th' hth'
    exact hl (h.holds_inj l k th' hl' hheld)
  · rcases eq_or_ne th' th with rfl | hne
    · exact (hholds.resolve_left hth').2
    · rw [(hother th' hne).1, (hother th' hne).2]
      refine h.free th' fun l => ?_
      rcases eq_or_ne l k with rfl | hl
      · rw [hheld]
        exact fun heq => hne (Option.some.inj heq).symm
      · exact hothers l hl

theorem not_claimed (hth : s.state th ≠ .running) (l : κ) :
    s.claims l ≠ some th :=
  fun hl => hth ((h.pcOk l).claims_state hl)

theorem marked_state (hl : s.pc l = .marked th) :
    s.state th = .sleeping ∧ s.visible th = false := by
  have hok := h.pcOk l
  rw [PcOk, hl] at hok
  exact hok.2.2.2

theorem ne_claimed {th' : τ} (hclaims : s.claims k = some th)
    (hstate : s.state th = .running) (hl : l ≠ k)
    (hth' : s.claims l = some th' ∨ s.pc l = .marked th') : th' ≠ th := by
  rintro rfl
  rcases hth' with hth' | hth'
  · exact hl (h.claims_inj l k th' hth' hclaims)
  · exact absurd ((h.marked_state hth').1.symm.trans hstate) (by simp)

theorem not_mentioned (hrun : s.state th ≠ .running)
    (hwakeable : s.state th = .sleeping → s.visible th = true) (l : κ) :
    ¬ (s.claims l = some th ∨ s.pc l = .marked th) := by
  rintro (hl | hl)
  · exact h.not_claimed hrun l hl
  · obtain ⟨hsleeping, hvisible⟩ := h.marked_state hl
    exact Bool.noConfusion (hvisible.symm.trans (hwakeable hsleeping))

theorem claims_kept (hk : s.claims k = some th) (ht : t.claims k = some th) :
    ∀ th', t.claims k = some th' → ∀ l ≠ k, s.claims l ≠ some th' := by
  intro th' hth' l hl hl'
  cases ht.symm.trans hth'
  exact hl (h.claims_inj l k th hl' hk)

theorem claims_taken (hrun : s.state th ≠ .running)
    (ht : t.claims k = some th) :
    ∀ th', t.claims k = some th' → ∀ l ≠ k, s.claims l ≠ some th' := by
  intro th' hth' l _
  cases ht.symm.trans hth'
  exact h.not_claimed hrun l

theorem setPc [DecidableEq κ] {pc : StackPc τ} (hpc : (s.pc k).idle = true)
    (hidle : pc.idle = true) (hok : PcOk (s.setPc k pc) k) :
    StackInv (s.setPc k pc) := by
  have hidle' : ((s.setPc k pc).pc k).idle = true := by simpa using hidle
  refine h.stepKeep k ?_ (by simp) rfl rfl ?_ (by simp) ?_ h.queued hok
  · simp +contextual
  · rw [holds_of_idle hpc, holds_of_idle hidle']
  · rw [claims_of_idle hidle']
    simp

theorem requeue [DecidableEq τ] {queue : Place κ → List τ} {x : ThreadState}
    (hrun : s.state th ≠ .running)
    (hwakeable : s.state th = .sleeping → s.visible th = true)
    (hqueued : QueuedOk queue (update s.state th x)) :
    StackInv { s.setState th x with queue := queue } := by
  refine ⟨fun l => (h.pcOk l).frame rfl rfl (by simp) fun th' hth' => ?_,
    h.holds_inj, h.claims_inj, h.free, hqueued⟩
  have hne : th' ≠ th := by
    rintro rfl
    exact h.not_mentioned hrun hwakeable l hth'
  simp [hne]

end

end StackInv

end Libut.Runtime
