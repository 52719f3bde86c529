import Libut.Machine.System
import Libut.Runtime.DetachRuns

/-!
Where `thread_yield` puts a thread (`runtime/sched.c`). A yielding thread is
thrown at the kthread named in `kthread_wanted`, a field that only
`thread_throw` writes: what a new thread has there is left over from an earlier
owner of its memory. The runtime of `Sched` is extended by that field, by the
calls that read or write it, and by the creation and the end of threads. The
memory that `tcache_alloc` returns is an input of the creating step, and two
runs that differ in this input only go side by side.
-/

namespace Libut.Runtime.Recycled

open Function Machine

/-- `maxks` and `allks`, where an entry may be `NULL`. -/
structure Kthreads (κ : Type) where
  maxks : BitVec 32
  allks : Nat → Option κ

structure State (κ τ ε : Type) where
  sched : SchedState κ τ ε
  /-- `kthread_wanted` of every thread. -/
  wanted : τ → BitVec 32
  live : τ → Bool
  /-- The thread was created in this run, and no call has named a kthread for
  it since. -/
  unnamed : τ → Bool

inductive Act (κ τ ε γ : Type)
  /-- `thread_create` or `thread_create_with_buf`; `contents` is what
  `kthread_wanted` holds in the memory. -/
  | create (th : τ) (contents : γ)
  | throw (k : κ) (th : τ) (kidx : BitVec 32)
  | yield (k : κ)
  | swap (k : κ) (th : τ) (kidx : BitVec 32)
  | exit (k : κ)
  /-- Any other step of the runtime. -/
  | sched (a : SchedAct κ τ ε)

def Act.map {κ τ ε γ δ : Type} (f : γ → δ) : Act κ τ ε γ → Act κ τ ε δ
  | .create th contents => .create th (f contents)
  | .throw k th kidx => .throw k th kidx
  | .yield k => .yield k
  | .swap k th kidx => .swap k th kidx
  | .exit k => .exit k
  | .sched a => .sched a

/-- A step of `Sched` that says itself where a thread is thrown. -/
def namesTarget {κ τ ε : Type} : SchedAct κ τ ε → Bool
  | .throw .. => true
  | _ => false

variable {κ τ ε : Type} [DecidableEq κ] [DecidableEq τ]

/-- `__thread_create`, with what the memory held in `kthread_wanted`. -/
def threadCreate (s : State κ τ ε) (th : τ) (contents : BitVec 32) :
    State κ τ ε where
  sched := s.sched.setState th .sleeping
  wanted := update s.wanted th contents
  live := update s.live th true
  unnamed := update s.unnamed th true

/-- `thread_throw(th, kidx)` on kthread `k`. -/
def threadThrowIdx (K : Kthreads κ) (s : State κ τ ε) (k : κ) (th : τ)
    (kidx : BitVec 32) : State κ τ ε :=
  if kidx = -1 then { s with sched := s.sched.ready k th }
  else
    { s with
      wanted := update s.wanted th kidx
      sched :=
        match K.allks (kidx.toNat % K.maxks.toNat) with
        | some r => threadThrow s.sched k r th
        | none => s.sched.ready k th }

/-- A call of `thread_throw` or `thread_swap` names a kthread for `th`. -/
def State.name (s : State κ τ ε) (th : τ) (kidx : BitVec 32) : State κ τ ε :=
  if kidx = -1 then s
  else { s with unnamed := update s.unnamed th false }

/-- `thread_yield` from `preempt_disable` to `enter_schedule`; the softirqs
that it runs first are steps of their own. -/
def threadYield (K : Kthreads κ) (s : State κ τ ε) (k : κ) (th : τ) :
    State κ τ ε :=
  let s := { s with sched := s.sched.setState th .sleeping }
  let s := threadThrowIdx K s k th (s.wanted th)
  { s with sched := s.sched.setPc k (.leaving th) }

/-- `thread_swap(th, kidx)` on kthread `k`, which runs `myth`. -/
def threadSwap (K : Kthreads κ) (s : State κ τ ε) (k : κ) (myth th : τ)
    (kidx : BitVec 32) : State κ τ ε :=
  let s := { s with sched := s.sched.setState myth .sleeping }
  let s := (threadThrowIdx K s k myth kidx).name myth kidx
  { s with sched := (s.sched.setState th .running).setPc k (.thread th) }

/-- Thread `th` goes to the run queue of kthread `k`, and no other queue
changes. -/
def PlacesHome (s t : State κ τ ε) (k : κ) (th : τ) : Prop :=
  t.sched.kth =
    update s.sched.kth k (threadReady (s.sched.kth k) th)

/-- What `kthread_wanted` holds does not lead away from kthread `k`: it is -1,
or it selects `k` itself, no kthread, or one that cannot be given work. -/
def Home (K : Kthreads κ) (s : State κ τ ε) (k : κ) (th : τ) : Prop :=
  s.wanted th = -1 ∨
    ∀ r, K.allks ((s.wanted th).toNat % K.maxks.toNat) = some r →
      r = k ∨ (s.sched.pc r).unlocked = false ∨
        (s.sched.kth r).detached = true ∨ (s.sched.kth r).parked = true

section Yield

variable {K : Kthreads κ} {s : State κ τ ε} {k : κ} {th : τ}

theorem threadThrowIdx_home (h : Home K s k th) :
    (threadThrowIdx K s k th (s.wanted th)).sched = s.sched.ready k th := by
  unfold threadThrowIdx
  split
  · rfl
  · rename_i hne
    have hstays := h.resolve_left hne
    cases hr : K.allks ((s.wanted th).toNat % K.maxks.toNat) with
    | none => rfl
    | some r =>
      change threadThrow s.sched k r th = _
      unfold threadThrow
      rcases hstays r hr with rfl | hbusy
      · exact if_pos rfl
      · split
        · rfl
        · apply if_neg
          rintro ⟨hlock, hflags⟩
          rcases hbusy with hlocked | hdetached | hparked
          · rw [hlocked] at hlock
            cases hlock
          · exact hflags (.inl hdetached)
          · exact hflags (.inr hparked)

theorem threadThrowIdx_away (h : ¬ Home K s k th) :
    ∃ r, r ≠ k ∧ (threadThrowIdx K s k th (s.wanted th)).sched.kth =
      update s.sched.kth r
        (threadThrowLocked (s.sched.kth r) th) := by
  unfold Home at h
  push Not at h
  obtain ⟨hne, r, hr, hrk, hlock, hdetached, hparked⟩ := h
  refine ⟨r, hrk, ?_⟩
  have hopen : (s.sched.pc r).unlocked ∧
      ¬ ((s.sched.kth r).detached ∨ (s.sched.kth r).parked) := by
    refine ⟨by simpa using hlock, ?_⟩
    rintro (hflag | hflag)
    · exact hdetached hflag
    · exact hparked hflag
  unfold threadThrowIdx
  rw [if_neg hne]
  change (match K.allks ((s.wanted th).toNat % K.maxks.toNat) with
    | some r => threadThrow s.sched k r th
    | none => s.sched.ready k th).kth = _
  rw [hr]
  change (threadThrow s.sched k r th).kth = _
  rw [threadThrow, if_neg (Ne.symm hrk), if_pos hopen]
  rfl

omit [DecidableEq τ] in
theorem threadThrowLocked_ne (r : KThread τ) (th : τ) :
    threadThrowLocked r th ≠ r := by
  unfold threadThrowLocked
  intro heq
  split at heq
  · have hlist := congrArg KThread.rqOverflow heq
    simp at hlist
  · have hhead := congrArg (fun x : KThread τ => x.rrq.head) heq
    have hone : (r.rrq.head + 1 : BitVec 32) = r.rrq.head := hhead
    simp at hone

/-- Exactly what the field holds decides where the thread goes. -/
theorem placesHome_iff :
    PlacesHome s (threadYield K s k th) k th ↔ Home K s k th := by
  have hsame : Home K
      { s with sched := s.sched.setState th .sleeping } k th ↔
      Home K s k th := Iff.rfl
  constructor
  · intro h
    by_contra haway
    obtain ⟨r, hrk, hkth⟩ := threadThrowIdx_away (mt hsame.mp haway)
    have hr := congrFun (hkth.symm.trans h) r
    rw [update_self, update_of_ne hrk] at hr
    exact threadThrowLocked_ne _ _ hr
  · intro h
    have hready := threadThrowIdx_home (hsame.mpr h)
    exact congrArg SchedState.kth hready

end Yield

/-- Two runs that look the same from outside: they differ at most in the fields
of threads that no kthread has been named for. -/
structure Alike (p : State κ τ ε × State κ τ ε) : Prop where
  sched : p.1.sched = p.2.sched
  live : p.1.live = p.2.live
  unnamed : p.1.unnamed = p.2.unnamed
  wanted : ∀ th, p.1.unnamed th = false → p.1.wanted th = p.2.wanted th

section Pairs

variable {K : Kthreads κ} {s t : State κ τ ε}
  {k : κ} {th : τ}

theorem Alike.throw (h : Alike (s, t)) (K : Kthreads κ) (k : κ) (th : τ)
    (kidx : BitVec 32) :
    Alike ((threadThrowIdx K s k th kidx).name th kidx,
      (threadThrowIdx K t k th kidx).name th kidx) := by
  obtain ⟨hsched, hlive, hunnamed, hwanted⟩ := h
  simp only at hsched hlive hunnamed hwanted
  unfold threadThrowIdx State.name
  split
  · exact ⟨congrArg (·.ready k th) hsched, hlive, hunnamed, hwanted⟩
  · constructor
    case sched => simp only [hsched]
    case live => exact hlive
    case unnamed => simp only [hunnamed]
    case wanted =>
      intro th' hth'
      rcases eq_or_ne th' th with rfl | hne
      · simp
      · simp only [update_of_ne hne] at hth' ⊢
        exact hwanted th' hth'

theorem threadThrowIdx_self :
    (threadThrowIdx K s k th (s.wanted th)).wanted = s.wanted ∧
      (threadThrowIdx K s k th (s.wanted th)).live = s.live ∧
      (threadThrowIdx K s k th (s.wanted th)).unnamed = s.unnamed := by
  unfold threadThrowIdx
  split
  · exact ⟨rfl, rfl, rfl⟩
  · exact ⟨update_eq_self th s.wanted, rfl, rfl⟩

theorem threadYield_fields :
    (threadYield K s k th).wanted = s.wanted ∧
      (threadYield K s k th).live = s.live ∧
      (threadYield K s k th).unnamed = s.unnamed :=
  threadThrowIdx_self (s := { s with sched := s.sched.setState th .sleeping })

theorem threadYield_home (h : Home K s k th) :
    (threadYield K s k th).sched =
      ((s.sched.setState th .sleeping).ready k th).setPc k (.leaving th) :=
  congrArg (·.setPc k (.leaving th)) (threadThrowIdx_home
    (s := { s with sched := s.sched.setState th .sleeping }) h)

/-- A yield keeps the runs alike: the field of the thread leads home in both,
or it is the same in both. -/
theorem Alike.yield (h : Alike (s, t))
    (hhome : s.unnamed th = true → Home K s k th ∧ Home K t k th) :
    Alike (threadYield K s k th, threadYield K t k th) := by
  obtain ⟨hsched, hlive, hunnamed, hwanted⟩ := h
  simp only at hsched hlive hunnamed hwanted
  constructor
  case sched =>
    cases hth : s.unnamed th with
    | true =>
      obtain ⟨hs, ht⟩ := hhome hth
      simp only [threadYield_home hs, threadYield_home ht, hsched]
    | false =>
      simp only [threadYield, threadThrowIdx, hsched, hwanted th hth]
      split <;> rfl
  case live => simp only [threadYield_fields.2.1, hlive]
  case unnamed => simp only [threadYield_fields.2.2, hunnamed]
  case wanted =>
    intro th' hth'
    simp only [threadYield_fields.2.2] at hth'
    simp only [threadYield_fields.1]
    exact hwanted th' hth'

end Pairs

variable [DecidableEq ε]

def step (K : Kthreads κ) (s : State κ τ ε) :
    Act κ τ ε (BitVec 32) → Option (State κ τ ε)
  | .create th contents =>
    if s.live th then none else some (threadCreate s th contents)
  | .throw k th kidx =>
    if (s.sched.pc k).inThread then
      some ((threadThrowIdx K s k th kidx).name th kidx)
    else none
  | .yield k =>
    match s.sched.pc k with
    | .thread th => some (threadYield K s k th)
    | _ => none
  | .swap k th kidx =>
    match s.sched.pc k with
    | .thread myth =>
      if s.sched.state th = .sleeping then
        some (threadSwap K s k myth th kidx)
      else none
    | _ => none
  | .exit k =>
    match s.sched.pc k with
    | .thread th => some
        { s with
          sched := s.sched.setPc k .again
          live := update s.live th false }
    | _ => none
  | .sched a =>
    if namesTarget a then none
    else (schedNext s.sched a).map fun sched => { s with sched := sched }

def runtime (K : Kthreads κ) :
    System (State κ τ ε) (Act κ τ ε (BitVec 32)) where
  init s := ∀ th, s.unnamed th = false
  next := step K

/-- Two runs from one state. Only the contents of recycled memory differ. -/
def twoRuns (K : Kthreads κ) :
    System (State κ τ ε × State κ τ ε)
      (Act κ τ ε (BitVec 32 × BitVec 32)) :=
  (runtime K).lockstep (Act.map Prod.fst) (Act.map Prod.snd) fun s t =>
    s = t ∧ ∀ th, s.unnamed th = false

/-- In both runs a thread that yields, and has no kthread named for it, is put
in the run queue of the kthread it yields on. -/
def YieldsHome (p q : State κ τ ε × State κ τ ε) :
    Act κ τ ε (BitVec 32 × BitVec 32) → Prop
  | .yield k => ∀ th, p.1.sched.pc k = .thread th → p.1.unnamed th = true →
      PlacesHome p.1 q.1 k th ∧ PlacesHome p.2 q.2 k th
  | _ => True

def leadsHome (K : Kthreads κ) (p : State κ τ ε × State κ τ ε) :
    Act κ τ ε (BitVec 32 × BitVec 32) → Prop
  | .yield k => ∀ th, p.1.sched.pc k = .thread th → p.1.unnamed th = true →
      Home K p.1 k th ∧ Home K p.2 k th
  | _ => True

section Runs

variable {K : Kthreads κ} {p q : State κ τ ε × State κ τ ε}

theorem alike_step (h : Alike p) {a : Act κ τ ε (BitVec 32 × BitVec 32)}
    (ha : leadsHome K p a) (hq : (twoRuns K).next p a = some q) : Alike q := by
  obtain ⟨h1, h2⟩ := System.lockstep_next.mp hq
  change step K p.1 (a.map Prod.fst) = some q.1 at h1
  change step K p.2 (a.map Prod.snd) = some q.2 at h2
  obtain ⟨⟨sched, wanted, live, unnamed⟩,
    ⟨sched', wanted', live', unnamed'⟩⟩ := p
  obtain ⟨s', t'⟩ := q
  obtain rfl : sched = sched' := h.sched
  obtain rfl : live = live' := h.live
  obtain rfl : unnamed = unnamed' := h.unnamed
  have hwanted : ∀ th, unnamed th = false → wanted th = wanted' th := h.wanted
  cases a with
  | create th contents =>
    simp only [Act.map, step, Option.ite_none_left_eq_some,
      Option.some.injEq] at h1 h2
    obtain ⟨-, rfl⟩ := h1
    obtain ⟨-, rfl⟩ := h2
    refine ⟨rfl, rfl, rfl, ?_⟩
    intro th' hth'
    rcases eq_or_ne th' th with rfl | hne
    · simp [threadCreate] at hth'
    · simp only [threadCreate, update_of_ne hne] at hth' ⊢
      exact hwanted th' hth'
  | throw k th kidx =>
    simp only [Act.map, step, Option.ite_none_right_eq_some,
      Option.some.injEq] at h1 h2
    obtain ⟨-, rfl⟩ := h1
    obtain ⟨-, rfl⟩ := h2
    exact h.throw K k th kidx
  | yield k =>
    cases hpc : sched.pc k with
    | thread th =>
      simp only [Act.map, step, hpc, Option.some.injEq] at h1 h2
      subst h1 h2
      exact h.yield fun hth => ha th hpc hth
    | _ => simp [Act.map, step, hpc] at h1
  | swap k th kidx =>
    cases hpc : sched.pc k with
    | thread myth =>
      simp only [Act.map, step, hpc, Option.ite_none_right_eq_some,
        Option.some.injEq] at h1 h2
      obtain ⟨-, rfl⟩ := h1
      obtain ⟨-, rfl⟩ := h2
      have hslept : Alike
          ((⟨sched.setState myth .sleeping, wanted, live, unnamed⟩ :
            State κ τ ε),
          ⟨sched.setState myth .sleeping, wanted', live, unnamed⟩) :=
        ⟨rfl, rfl, rfl, hwanted⟩
      have hthrown := hslept.throw K k myth kidx
      refine ⟨?_, hthrown.live, hthrown.unnamed, hthrown.wanted⟩
      exact congrArg (fun x => (x.setState th .running).setPc k
        (.thread th)) hthrown.sched
    | _ => simp [Act.map, step, hpc] at h1
  | exit k =>
    cases hpc : sched.pc k with
    | thread th =>
      simp only [Act.map, step, hpc, Option.some.injEq] at h1 h2
      subst h1 h2
      exact ⟨rfl, rfl, rfl, hwanted⟩
    | _ => simp [Act.map, step, hpc] at h1
  | sched a =>
    simp only [Act.map, step, Option.ite_none_left_eq_some,
      Option.map_eq_some_iff] at h1 h2
    obtain ⟨-, next, hnext, rfl⟩ := h1
    obtain ⟨-, next', hnext', rfl⟩ := h2
    obtain rfl : next = next' := Option.some.inj (hnext.symm.trans hnext')
    exact ⟨rfl, rfl, rfl, hwanted⟩

/-- Where a thread is put does not depend on recycled memory, as long as no
field left in that memory leads a yielding thread away; and a step puts it
elsewhere exactly if its field does. -/
theorem recycled_yields_iff (hp : (twoRuns K).Reach (leadsHome K) p) :
    p.1.sched = p.2.sched ∧ p.1.unnamed = p.2.unnamed ∧
      ∀ a q, (twoRuns K).next p a = some q →
        (YieldsHome p q a ↔ leadsHome K p a) := by
  have h : Alike p := by
    apply hp.invariant
    case hinit =>
      intro p hinit
      have heq : p.1 = p.2 := hinit.1
      constructor
      case sched => rw [heq]
      case live => rw [heq]
      case unnamed => rw [heq]
      case wanted => exact fun _ _ => by rw [heq]
    case hstep => exact fun p a q h ha hq => alike_step h ha hq
  refine ⟨h.sched, h.unnamed, ?_⟩
  intro a q hq
  obtain ⟨h1, h2⟩ := System.lockstep_next.mp hq
  cases a with
  | yield k =>
    have hiff : ∀ th, p.1.sched.pc k = .thread th →
        (PlacesHome p.1 q.1 k th ∧ PlacesHome p.2 q.2 k th ↔
          Home K p.1 k th ∧ Home K p.2 k th) := by
      intro th hpc
      have hpc' : p.2.sched.pc k = .thread th := by rwa [← h.sched]
      have hq1 : threadYield K p.1 k th = q.1 := by
        simpa [runtime, step, Act.map, hpc] using h1
      have hq2 : threadYield K p.2 k th = q.2 := by
        simpa [runtime, step, Act.map, hpc'] using h2
      rw [← hq1, ← hq2, placesHome_iff, placesHome_iff]
    exact forall_congr' fun th => forall_congr' fun hpc =>
      imp_congr_right fun _ => hiff th hpc
  | _ => exact Iff.rfl

end Runs

/-- Both kthreads of `twoRunning` by their numbers. -/
def twoKthreads : Kthreads Bool where
  maxks := 2
  allks i := some (i ≠ 0)

def freeMemory : State Bool Nat Nat where
  sched := twoRunning
  wanted _ := -1
  live th := th < 2
  unnamed _ := false

/-- Thread 0 creates thread 2, makes it runnable and goes to sleep; thread 2
runs on the same kthread. -/
def createRun (contents : BitVec 32 × BitVec 32) :
    List (Act Bool Nat Nat (BitVec 32 × BitVec 32)) :=
  [.create 2 contents, .throw false 2 (-1), .sched (.sleep false),
    .sched (.enterSchedule false false false)]

theorem createRun_isSome (contents : BitVec 32 × BitVec 32) :
    ((twoRuns twoKthreads).exec (freeMemory, freeMemory)
      (createRun contents)).isSome := by
  rfl

def created (contents : BitVec 32 × BitVec 32) :
    State Bool Nat Nat × State Bool Nat Nat :=
  ((twoRuns twoKthreads).exec (freeMemory, freeMemory)
    (createRun contents)).get (createRun_isSome contents)

theorem created_reach (contents : BitVec 32 × BitVec 32) :
    (twoRuns twoKthreads).Reach (leadsHome twoKthreads) (created contents) := by
  have hinit : (twoRuns twoKthreads).init (freeMemory, freeMemory) :=
    ⟨rfl, fun _ => rfl⟩
  apply System.Reach.exec_of (.init hinit) (createRun contents)
  case hrun => exact (Option.some_get (createRun_isSome contents)).symm
  case hok =>
    intro p a ha
    simp only [createRun, List.mem_cons, List.not_mem_nil, or_false] at ha
    rcases ha with rfl | rfl | rfl | rfl <;> trivial

theorem created_running (contents : BitVec 32 × BitVec 32) :
    (created contents).1.sched.pc false = .thread 2 ∧
      (created contents).1.unnamed 2 = true :=
  ⟨by with_unfolding_all rfl, by with_unfolding_all rfl⟩

/-- Memory that held 0 or -1 keeps the thread on its kthread. -/
theorem recycled_yields_iff_zero :
    (twoRuns twoKthreads).Reach (leadsHome twoKthreads) (created (0, -1)) ∧
      ∃ q, (twoRuns twoKthreads).next (created (0, -1)) (.yield false) = some q ∧
        PlacesHome (created (0, -1)).1 q.1 false 2 ∧
        PlacesHome (created (0, -1)).2 q.2 false 2 := by
  have hp := created_reach (0, -1)
  have hnext : (twoRuns twoKthreads).next (created (0, -1)) (.yield false) =
      some (threadYield twoKthreads (created (0, -1)).1 false 2,
        threadYield twoKthreads (created (0, -1)).2 false 2) := rfl
  have hhome : leadsHome twoKthreads (created (0, -1)) (.yield false) := by
    intro th hpc _
    obtain rfl : 2 = th := by simpa using
      (created_running (0, -1)).1.symm.trans hpc
    refine ⟨.inr fun r hr => .inl ?_, .inl rfl⟩
    exact (Option.some.inj hr).symm
  have hyields := ((recycled_yields_iff hp).2.2 _ _ hnext).mpr hhome
  exact ⟨hp, _, hnext, hyields 2 (created_running _).1 (created_running _).2⟩

/-- Memory that held 1 sends the thread to the other kthread. -/
theorem recycled_memory_moves_thread :
    ∃ p q : State Bool Nat Nat × State Bool Nat Nat,
      (twoRuns twoKthreads).Reach anyStep p ∧ p.1.sched = p.2.sched ∧
      p.1.unnamed 2 = true ∧
      (twoRuns twoKthreads).next p (.yield false) = some q ∧
      (q.1.sched.kth false).rqWindow = [2] ∧ (q.1.sched.kth true).rrqWindow = [] ∧
      (q.2.sched.kth false).rqWindow = [] ∧ (q.2.sched.kth true).rrqWindow = [2] ∧
      ¬ YieldsHome p q (.yield false) := by
  have hnext : (twoRuns twoKthreads).next (created (0, 1)) (.yield false) =
      some (threadYield twoKthreads (created (0, 1)).1 false 2,
        threadYield twoKthreads (created (0, 1)).2 false 2) := by
    with_unfolding_all rfl
  have hreach := created_reach (0, 1)
  refine ⟨created (0, 1), _, hreach.mono fun _ _ _ => trivial, ?_,
    (created_running _).2, hnext, by with_unfolding_all decide,
    by with_unfolding_all decide, by with_unfolding_all decide,
    by with_unfolding_all decide, ?_⟩
  · with_unfolding_all rfl
  · intro hyields
    have hplaced := (hyields 2 (created_running _).1 (created_running _).2).2
    have haway := placesHome_iff.mp hplaced
    rcases haway with hnone | hstays
    · exact absurd hnone (by with_unfolding_all decide)
    · have hone := hstays true (by with_unfolding_all rfl)
      exact absurd hone (by with_unfolding_all decide)

end Libut.Runtime.Recycled
