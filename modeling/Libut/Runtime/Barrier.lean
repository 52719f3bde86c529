import Libut.Machine.System
import Libut.Runtime.WaitList

/-!
Barriers (`runtime/sync.c`). The thread whose arrival completes a group moves
the others from the list of the barrier to one of its own and wakes them after
it has dropped the lock, so that threads of later groups arrive, and are even
woken, in the meantime.

An arrival is one step under the lock; a thread that has to wait keeps the lock
until it has parked. Each round of the waking loop is a step. Between two steps
any other thread may move, and a thread that is not waiting may use its `link`
for other lists. The order of the arrivals, the threads that each call has made
ready and the values returned are kept for the statements only; the calls are
numbered in the order of arrival.
-/

namespace Libut.Runtime

open Function Machine Base

/-- Where a thread stands, with the number of its call. -/
inductive BarrierPc
  | idle
  | parking (i : Nat)
  | parked (i : Nat)
  | ready (i : Nat)
  | waking (i : Nat)
  deriving DecidableEq, Repr

def BarrierPc.call : BarrierPc → Option Nat
  | .idle => none
  | .parking i => some i
  | .parked i => some i
  | .ready i => some i
  | .waking i => some i

def BarrierPc.linkFree : BarrierPc → Bool
  | .idle => true
  | .ready _ => true
  | .waking _ => true
  | _ => false

structure BarrierState (τ : Type) where
  count : Int
  waiting : Int
  lock : Option τ
  links : Links (SyncNode τ)
  pc : τ → BarrierPc
  arrivals : List τ
  woken : Nat → List τ
  returned : Nat → Option Bool

inductive BarrierAct (τ : Type)
  /-- `barrier_wait` up to the unlock or to the call that parks. -/
  | arrive (th : τ)
  /-- `thread_park_and_unlock_np`. -/
  | park (th : τ)
  /-- A round of the waking loop; the last one returns. -/
  | wake (th : τ)
  /-- A thread that was made ready runs and returns. -/
  | run (th : τ)
  /-- The link of a thread that is not waiting is written to. -/
  | relink (th : τ) (next prev : SyncNode τ)

variable {τ : Type} [DecidableEq τ]

def barrierInit (links : Links (SyncNode τ)) (count : Int) :
    BarrierState τ where
  count := count
  waiting := 0
  lock := none
  links := listHeadInit links .waiters
  pc _ := .idle
  arrivals := []
  woken _ := []
  returned _ := none

def barrierNext (s : BarrierState τ) : BarrierAct τ → Option (BarrierState τ)
  | .arrive th =>
    if s.pc th = .idle ∧ s.lock = none then
      let i := s.arrivals.length
      if s.waiting + 1 ≥ s.count then
        some { s with
          waiting := 0
          links := takeWaiters s.links th
          pc := update s.pc th (.waking i)
          arrivals := s.arrivals ++ [th] }
      else
        some { s with
          waiting := s.waiting + 1
          lock := some th
          links := listAddTail s.links .waiters (.link th)
          pc := update s.pc th (.parking i)
          arrivals := s.arrivals ++ [th] }
    else none
  | .park th =>
    match s.pc th with
    | .parking i =>
      some { s with
        lock := none
        pc := update s.pc th (.parked i) }
    | _ => none
  | .wake th =>
    match s.pc th with
    | .waking i =>
      let popped := listPop s.links (.tmp th)
      match popped.2 with
      | none =>
        some { s with
          links := popped.1
          pc := update s.pc th .idle
          returned := update s.returned i (some true) }
      | some (.link u) =>
        -- `thread_ready` insists on a thread that sleeps
        match s.pc u with
        | .parked j =>
          some { s with
            links := popped.1
            pc := update s.pc u (.ready j)
            woken := update s.woken i (s.woken i ++ [u]) }
        | _ => none
      | some _ => none
    | _ => none
  | .run th =>
    match s.pc th with
    | .ready i =>
      some { s with
        pc := update s.pc th .idle
        returned := update s.returned i (some false) }
    | _ => none
  | .relink th next prev =>
    if (s.pc th).linkFree then
      some { s with
        links := storePrev (storeNext s.links (.link th) next) (.link th)
          prev }
    else none

def barrierSystem (τ : Type) [DecidableEq τ] :
    System (BarrierState τ) (BarrierAct τ) where
  init s := ∃ links count, 1 ≤ count ∧ s = barrierInit links count
  next := barrierNext

section Groups

variable {n g g' k k' c : Nat}

theorem index_split (hn : 0 < n) (i : Nat) : ∃ g k, k < n ∧ i = g * n + k := by
  refine ⟨i / n, i % n, Nat.mod_lt i hn, ?_⟩
  rw [Nat.mul_comm]
  exact (Nat.div_add_mod i n).symm

theorem index_lt_iff (hk : k < n) (hc : c < n) :
    g * n + k < g' * n + c ↔ g < g' ∨ g = g' ∧ k < c := by
  rcases Nat.lt_trichotomy g g' with hlt | rfl | hlt
  · have hle := Nat.mul_le_mul_right n hlt
    rw [Nat.succ_mul] at hle
    omega
  · omega
  · have hle := Nat.mul_le_mul_right n hlt
    rw [Nat.succ_mul] at hle
    omega

theorem index_inj (hk : k < n) (hk' : k' < n) (heq : g * n + k = g' * n + k') :
    g = g' ∧ k = k' := by
  rcases Nat.lt_trichotomy g g' with hlt | rfl | hlt
  · have hless : g * n + k < g' * n + k' :=
      (index_lt_iff hk hk').mpr (.inl hlt)
    omega
  · omega
  · have hless : g' * n + k' < g * n + k :=
      (index_lt_iff hk' hk).mpr (.inl hlt)
    omega

end Groups

def BarrierState.group (n : Nat) (s : BarrierState τ) (g : Nat) : List τ :=
  (s.arrivals.drop (g * n)).take n

/-- The members of the group of call `i` that arrived before it, when `i` is
the last. -/
def BarrierState.others (n : Nat) (s : BarrierState τ) (i : Nat) : List τ :=
  (s.arrivals.drop (i + 1 - n)).take (n - 1)

def BarrierState.tmp (n : Nat) (s : BarrierState τ) (r : τ) :
    Option (List τ) :=
  match s.pc r with
  | .waking i => some ((s.others n i).drop (s.woken i).length)
  | _ => none

/-- The stations of call `k` of group `g`, made by thread `th`, when the first
`G` groups are complete. -/
inductive CallOk (n G : Nat) (s : BarrierState τ) (g k : Nat) (th : τ) : Prop
  | enlisted (hgroup : g = G)
      (hpc : s.pc th = .parking (g * n + k) ∨ s.pc th = .parked (g * n + k))
      (hret : s.returned (g * n + k) = none)
  | releasing (hgroup : g < G) (hlast : k + 1 = n)
      (hpc : s.pc th = .waking (g * n + k))
      (hret : s.returned (g * n + k) = none)
      (hwoken : s.woken (g * n + k) <+: s.others n (g * n + k))
  | released (hgroup : g < G) (hlast : k + 1 = n)
      (hret : s.returned (g * n + k) = some true)
      (hwoken : s.woken (g * n + k) = s.others n (g * n + k))
  | asleep (hgroup : g < G) (hlast : k + 1 < n)
      (hpc : s.pc th = .parked (g * n + k))
      (hret : s.returned (g * n + k) = none)
      (hwoken : (s.woken (g * n + (n - 1))).length ≤ k)
  | awake (hgroup : g < G) (hlast : k + 1 < n)
      (hpc : s.pc th = .ready (g * n + k))
      (hret : s.returned (g * n + k) = none)
      (hwoken : k < (s.woken (g * n + (n - 1))).length)
  | done (hgroup : g < G) (hlast : k + 1 < n)
      (hret : s.returned (g * n + k) = some false)
      (hwoken : k < (s.woken (g * n + (n - 1))).length)

/-- `G` groups of `n` are complete and `c` threads wait for theirs. -/
structure BarrierInv (n G c : Nat) (s : BarrierState τ) : Prop where
  count : s.count = n
  waiting : s.waiting = c
  waiting_lt : c < n
  size : s.arrivals.length = G * n + c
  queues : WaitQueues s.links (s.arrivals.drop (G * n)) (s.tmp n)
  lock : ∀ th i, s.pc th = .parking i → s.lock = some th
  calls : ∀ g k th, k < n → s.arrivals[g * n + k]? = some th →
    CallOk n G s g k th
  own : ∀ th i, (s.pc th).call = some i →
    s.arrivals[i]? = some th ∧ s.returned i = none
  fresh : ∀ i, s.arrivals.length ≤ i → s.woken i = [] ∧ s.returned i = none
  quiet : ∀ g k, k + 1 < n → s.woken (g * n + k) = []
  distinct : ∀ g, (s.group n g).Nodup

section Calls

variable {n G c g k : Nat} {s t : BarrierState τ} {th r : τ}

omit [DecidableEq τ]

variable {i : Nat}

theorem BarrierState.tmp_waking (hpc : s.pc r = .waking i) :
    s.tmp n r = some ((s.others n i).drop (s.woken i).length) := by
  rw [BarrierState.tmp, hpc]

theorem BarrierState.tmp_eq_some {rest : List τ}
    (hrest : s.tmp n r = some rest) :
    ∃ i, s.pc r = .waking i ∧
      rest = (s.others n i).drop (s.woken i).length := by
  unfold BarrierState.tmp at hrest
  cases hpc : s.pc r with
  | waking i =>
    rw [hpc] at hrest
    exact ⟨i, rfl, (Option.some.inj hrest).symm⟩
  | idle | parking i | parked i | ready i =>
    rw [hpc] at hrest
    cases hrest

theorem BarrierState.tmp_congr (hpc : t.pc r = s.pc r)
    (hrest : ∀ i, s.pc r = .waking i →
      t.others n i = s.others n i ∧ t.woken i = s.woken i) :
    t.tmp n r = s.tmp n r := by
  unfold BarrierState.tmp
  rw [hpc]
  cases hwaking : s.pc r with
  | waking i =>
    obtain ⟨hothers, hwoken⟩ := hrest i hwaking
    simp only [hothers, hwoken]
  | idle | parking i | parked i | ready i => rfl

theorem others_getElem? (hk : k + 1 < n) :
    (s.others n (g * n + (n - 1)))[k]? = s.arrivals[g * n + k]? := by
  have hstart : g * n + (n - 1) + 1 - n = g * n := by omega
  rw [BarrierState.others, hstart, List.getElem?_take_of_lt (by omega),
    List.getElem?_drop]

theorem others_append (hn : n ≤ i + 1) (hi : i < s.arrivals.length)
    (harrivals : t.arrivals = s.arrivals ++ [th]) :
    t.others n i = s.others n i := by
  rw [BarrierState.others, BarrierState.others, harrivals,
    List.drop_append_of_le_length (by omega), List.take_append_of_le_length]
  rw [List.length_drop]
  omega

theorem call_of_enlisted (hpc : s.pc th = .parking i ∨ s.pc th = .parked i) :
    (s.pc th).call = some i := by
  rcases hpc with hpc | hpc
  · rw [hpc]
    rfl
  · rw [hpc]
    rfl

theorem CallOk.frame {G' : Nat} (h : CallOk n G s g k th) (hk : k < n)
    (hopen : g = G → G' = G) (hcomplete : G ≤ G')
    (hpc : (s.pc th).call = some (g * n + k) → t.pc th = s.pc th)
    (hret : t.returned (g * n + k) = s.returned (g * n + k)) (hwoken : g < G →
      t.woken (g * n + (n - 1)) = s.woken (g * n + (n - 1)))
    (hothers : g < G → t.others n (g * n + (n - 1)) =
      s.others n (g * n + (n - 1))) : CallOk n G' t g k th := by
  cases h with
  | enlisted hgroup hpc' hret' =>
    have hsame : t.pc th = s.pc th := hpc (call_of_enlisted hpc')
    exact .enlisted (hgroup.trans (hopen hgroup).symm) (hsame ▸ hpc')
      (hret.trans hret')
  | releasing hgroup hlast hpc' hret' hwoken' =>
    obtain rfl : k = n - 1 := by omega
    refine .releasing (by omega) hlast ?_ (hret.trans hret') ?_
    · rw [hpc (by rw [hpc']; rfl), hpc']
    · rwa [hwoken hgroup, hothers hgroup]
  | released hgroup hlast hret' hwoken' =>
    obtain rfl : k = n - 1 := by omega
    refine .released (by omega) hlast (hret.trans hret') ?_
    rw [hwoken hgroup, hothers hgroup, hwoken']
  | asleep hgroup hlast hpc' hret' hwoken' =>
    refine .asleep (by omega) hlast ?_ (hret.trans hret') ?_
    · rw [hpc (by rw [hpc']; rfl), hpc']
    · rwa [hwoken hgroup]
  | awake hgroup hlast hpc' hret' hwoken' =>
    refine .awake (by omega) hlast ?_ (hret.trans hret') ?_
    · rw [hpc (by rw [hpc']; rfl), hpc']
    · rwa [hwoken hgroup]
  | done hgroup hlast hret' hwoken' =>
    refine .done (by omega) hlast (hret.trans hret') ?_
    rwa [hwoken hgroup]

theorem CallOk.woken {rest : List τ} (h : CallOk n G s g k th) (hg : g < G)
    (hk : k < n) (hne : k ≠ (s.woken (g * n + (n - 1))).length)
    (hrest : s.others n (g * n + (n - 1)) =
      s.woken (g * n + (n - 1)) ++ r :: rest)
    (hopen : s.returned (g * n + (n - 1)) = none)
    (hpc : (s.pc th).call = some (g * n + k) → t.pc th = s.pc th)
    (hret : t.returned = s.returned)
    (hwoken : t.woken (g * n + (n - 1)) = s.woken (g * n + (n - 1)) ++ [r])
    (harrivals : t.arrivals = s.arrivals) : CallOk n G t g k th := by
  have hothers : t.others n (g * n + (n - 1)) =
      s.others n (g * n + (n - 1)) := by
    rw [BarrierState.others, BarrierState.others, harrivals]
  have hlength : (t.woken (g * n + (n - 1))).length =
      (s.woken (g * n + (n - 1))).length + 1 := by
    rw [hwoken, List.length_append, List.length_singleton]
  cases h with
  | enlisted hgroup => omega
  | releasing _ hlast hpc' hret' =>
    obtain rfl : k = n - 1 := by omega
    refine .releasing hg hlast ?_ (hret ▸ hret') ?_
    · rw [hpc (by rw [hpc']; rfl), hpc']
    · rw [hwoken, hothers, hrest, List.append_cons _ r rest]
      exact List.prefix_append ..
  | released _ hlast hret' =>
    obtain rfl : k = n - 1 := by omega
    exact absurd (hopen.symm.trans hret') (by simp)
  | asleep _ hlast hpc' hret' hwoken' =>
    refine .asleep hg hlast ?_ (hret ▸ hret') (by omega)
    rw [hpc (by rw [hpc']; rfl), hpc']
  | awake _ hlast hpc' hret' hwoken' =>
    refine .awake hg hlast ?_ (hret ▸ hret') (by omega)
    rw [hpc (by rw [hpc']; rfl), hpc']
  | done _ hlast hret' hwoken' =>
    exact .done hg hlast (hret ▸ hret') (by omega)

section

variable (h : BarrierInv n G c s)
include h

theorem BarrierInv.station (hcall : (s.pc th).call = some i) :
    ∃ g k, k < n ∧ i = g * n + k ∧
      (g = G ∧ (s.pc th = .parking i ∨ s.pc th = .parked i) ∨
        g < G ∧ k + 1 = n ∧ s.pc th = .waking i ∧ s.woken i <+: s.others n i ∨
        g < G ∧ k + 1 < n ∧ s.pc th = .parked i ∨
        g < G ∧ k + 1 < n ∧ s.pc th = .ready i ∧
          k < (s.woken (g * n + (n - 1))).length) := by
  have hn : 0 < n := Nat.lt_of_le_of_lt (Nat.zero_le c) h.waiting_lt
  obtain ⟨g, k, hk, rfl⟩ := index_split hn i
  obtain ⟨hth, hret⟩ := h.own th _ hcall
  refine ⟨g, k, hk, rfl, ?_⟩
  cases h.calls g k th hk hth with
  | enlisted hgroup hpc => exact .inl ⟨hgroup, hpc⟩
  | releasing hgroup hlast hpc _ hwoken =>
    exact .inr (.inl ⟨hgroup, hlast, hpc, hwoken⟩)
  | asleep hgroup hlast hpc => exact .inr (.inr (.inl ⟨hgroup, hlast, hpc⟩))
  | awake hgroup hlast hpc _ hwoken =>
    exact .inr (.inr (.inr ⟨hgroup, hlast, hpc, hwoken⟩))
  | released _ _ hret' | done _ _ hret' =>
    exact absurd (hret.symm.trans hret') (by simp)

theorem BarrierInv.parking_call (hpc : s.pc th = .parking i) :
    ∃ k < n, i = G * n + k := by
  obtain ⟨g, k, hk, hi, hstation⟩ := h.station (i := i) (by rw [hpc]; rfl)
  simp only [hpc, reduceCtorEq, false_and, and_false, or_false] at hstation
  exact ⟨k, hk, hstation.1 ▸ hi⟩

theorem BarrierInv.waking_call (hpc : s.pc th = .waking i) :
    ∃ g, g < G ∧ i = g * n + (n - 1) ∧ s.woken i <+: s.others n i := by
  obtain ⟨g, k, hk, hi, hstation⟩ := h.station (i := i) (by rw [hpc]; rfl)
  simp only [hpc, reduceCtorEq, false_and, and_false, or_false, false_or,
    true_and] at hstation
  obtain ⟨hgroup, hlast, hwoken⟩ := hstation
  obtain rfl : k = n - 1 := by omega
  exact ⟨g, hgroup, hi, hwoken⟩

theorem BarrierInv.ready_call (hpc : s.pc th = .ready i) :
    ∃ g k, g < G ∧ k + 1 < n ∧ i = g * n + k ∧
      k < (s.woken (g * n + (n - 1))).length := by
  obtain ⟨g, k, hk, hi, hstation⟩ := h.station (i := i) (by rw [hpc]; rfl)
  simp only [hpc, reduceCtorEq, false_and, and_false, or_false, false_or,
    true_and] at hstation
  obtain ⟨hgroup, hlast, hwoken⟩ := hstation
  exact ⟨g, k, hgroup, hlast, hi, hwoken⟩

theorem BarrierInv.next_asleep (hg : g < G) (hk : k + 1 < n)
    (hth : s.arrivals[g * n + k]? = some th)
    (hwoken : (s.woken (g * n + (n - 1))).length ≤ k) :
    s.pc th = .parked (g * n + k) := by
  cases h.calls g k th (by omega) hth with
  | enlisted hgroup => omega
  | releasing _ hlast | released _ hlast => omega
  | asleep _ _ hpc => exact hpc
  | awake _ _ _ _ hwoken' | done _ _ _ hwoken' => omega

theorem BarrierInv.mem_tmp {rest : List τ} (hr : s.tmp n r = some rest)
    (hth : th ∈ rest) : ∃ i, s.pc th = .parked i := by
  obtain ⟨i, hpc, rfl⟩ := BarrierState.tmp_eq_some hr
  obtain ⟨g, hg, rfl, _⟩ := h.waking_call hpc
  obtain ⟨j, hj⟩ := List.mem_iff_getElem?.mp hth
  rw [List.getElem?_drop] at hj
  have hlt : (s.woken (g * n + (n - 1))).length + j + 1 < n := by
    have hlen := (List.getElem?_eq_some_iff.mp hj).1
    rw [BarrierState.others, List.length_take] at hlen
    omega
  rw [others_getElem? hlt] at hj
  exact ⟨_, h.next_asleep hg hlt hj (Nat.le_add_right _ _)⟩

theorem BarrierInv.mem_current (hth : th ∈ s.arrivals.drop (G * n)) :
    ∃ i, s.pc th = .parking i ∨ s.pc th = .parked i := by
  obtain ⟨k, hk⟩ := List.mem_iff_getElem?.mp hth
  rw [List.getElem?_drop] at hk
  have hlen := (List.getElem?_eq_some_iff.mp hk).1
  have hwaiting := h.waiting_lt
  rw [h.size] at hlen
  cases h.calls G k th (by omega) hk with
  | enlisted _ hpc => exact ⟨_, hpc⟩
  | releasing hgroup | released hgroup | asleep hgroup | awake hgroup
  | done hgroup => omega

theorem BarrierInv.off (hpc : (s.pc th).linkFree = true) :
    OffQueues (s.arrivals.drop (G * n)) (s.tmp n) th := by
  constructor
  · intro hmem
    obtain ⟨i, hi | hi⟩ := h.mem_current hmem
    · rw [hi] at hpc
      cases hpc
    · rw [hi] at hpc
      cases hpc
  · intro r rest hr hmem
    obtain ⟨i, hi⟩ := h.mem_tmp hr hmem
    rw [hi] at hpc
    cases hpc

end

end Calls

section Steps

variable {n G c : Nat} {s t : BarrierState τ} {th u : τ} {a : BarrierAct τ}

inductive BarrierStep (s : BarrierState τ) :
    BarrierAct τ → BarrierState τ → Prop
  | completes {th : τ} : s.pc th = .idle → s.lock = none →
      s.count ≤ s.waiting + 1 →
      BarrierStep s (.arrive th) { s with
        waiting := 0
        links := takeWaiters s.links th
        pc := update s.pc th (.waking s.arrivals.length)
        arrivals := s.arrivals ++ [th] }
  | enlists {th : τ} : s.pc th = .idle → s.lock = none →
      s.waiting + 1 < s.count →
      BarrierStep s (.arrive th) { s with
        waiting := s.waiting + 1
        lock := some th
        links := listAddTail s.links .waiters (.link th)
        pc := update s.pc th (.parking s.arrivals.length)
        arrivals := s.arrivals ++ [th] }
  | parks {th : τ} {i : Nat} : s.pc th = .parking i →
      BarrierStep s (.park th) { s with
        lock := none
        pc := update s.pc th (.parked i) }
  | returns {th : τ} {i : Nat} : s.pc th = .waking i →
      (listPop s.links (.tmp th)).2 = none →
      BarrierStep s (.wake th) { s with
        links := (listPop s.links (.tmp th)).1
        pc := update s.pc th .idle
        returned := update s.returned i (some true) }
  | wakes {th u : τ} {i j : Nat} : s.pc th = .waking i →
      (listPop s.links (.tmp th)).2 = some (.link u) → s.pc u = .parked j →
      BarrierStep s (.wake th) { s with
        links := (listPop s.links (.tmp th)).1
        pc := update s.pc u (.ready j)
        woken := update s.woken i (s.woken i ++ [u]) }
  | runs {th : τ} {i : Nat} : s.pc th = .ready i →
      BarrierStep s (.run th) { s with
        pc := update s.pc th .idle
        returned := update s.returned i (some false) }
  | relinks {th : τ} {next prev : SyncNode τ} : (s.pc th).linkFree = true →
      BarrierStep s (.relink th next prev) { s with
        links := storePrev (storeNext s.links (.link th) next) (.link th)
          prev }

theorem barrierNext_step (hnext : barrierNext s a = some t) :
    BarrierStep s a t := by
  cases a with
  | arrive th =>
    simp only [barrierNext] at hnext
    split_ifs at hnext with hguard hcomplete
    · cases hnext
      exact .completes hguard.1 hguard.2 hcomplete
    · cases hnext
      exact .enlists hguard.1 hguard.2 (by omega)
  | park th =>
    cases hpc : s.pc th with
    | parking i =>
      simp only [barrierNext, hpc] at hnext
      cases hnext
      exact .parks hpc
    | idle | parked i | ready i | waking i =>
      simp only [barrierNext, hpc] at hnext
      cases hnext
  | wake th =>
    cases hpc : s.pc th with
    | waking i =>
      cases hpop : (listPop s.links (.tmp th)).2 with
      | none =>
        simp only [barrierNext, hpc, hpop] at hnext
        cases hnext
        exact .returns hpc hpop
      | some node =>
        cases node with
        | link u =>
          cases hu : s.pc u with
          | parked j =>
            simp only [barrierNext, hpc, hpop, hu] at hnext
            cases hnext
            exact .wakes hpc hpop hu
          | idle | parking j | ready j | waking j =>
            simp only [barrierNext, hpc, hpop, hu] at hnext
            cases hnext
        | waiters | tmp u =>
          simp only [barrierNext, hpc, hpop] at hnext
          cases hnext
    | idle | parking i | parked i | ready i =>
      simp only [barrierNext, hpc] at hnext
      cases hnext
  | run th =>
    cases hpc : s.pc th with
    | ready i =>
      simp only [barrierNext, hpc] at hnext
      cases hnext
      exact .runs hpc
    | idle | parking i | parked i | waking i =>
      simp only [barrierNext, hpc] at hnext
      cases hnext
  | relink th next prev =>
    obtain ⟨hfree, rfl⟩ := guarded hnext
    exact .relinks hfree

variable {i : Nat} {pc : BarrierPc}

theorem BarrierInv.calls_frame (h : BarrierInv n G c s)
    (hown : (s.pc th).call = some i) (hpc : t.pc = update s.pc th pc)
    (harrivals : t.arrivals = s.arrivals) (hwoken : t.woken = s.woken)
    (hret : ∀ j, j ≠ i → t.returned j = s.returned j)
    (hself : ∀ g k, k < n → i = g * n + k → CallOk n G t g k th) :
    ∀ g k th', k < n → t.arrivals[g * n + k]? = some th' →
      CallOk n G t g k th' := by
  intro g k th' hk hth'
  rw [harrivals] at hth'
  by_cases hi : i = g * n + k
  · have hself' := (h.own th i hown).1
    rw [hi, hth'] at hself'
    cases hself'
    exact hself g k hk hi
  · apply (h.calls g k th' hk hth').frame hk (fun _ => rfl) (Nat.le_refl G)
    · intro hcall
      rw [hpc]
      apply update_of_ne
      rintro rfl
      rw [hown] at hcall
      exact hi (Option.some.inj hcall)
    · exact hret _ fun heq => hi heq.symm
    · exact fun _ => by rw [hwoken]
    · intro _
      rw [BarrierState.others, BarrierState.others, harrivals]

theorem BarrierInv.own_frame (h : BarrierInv n G c s)
    (hown : (s.pc th).call = some i) (hpc : t.pc = update s.pc th pc)
    (harrivals : t.arrivals = s.arrivals)
    (hret : ∀ j, j ≠ i → t.returned j = s.returned j)
    (hself : pc.call = none ∨ pc.call = some i ∧ t.returned i = none) :
    ∀ th' j, (t.pc th').call = some j →
      t.arrivals[j]? = some th' ∧ t.returned j = none := by
  intro th' j hcall
  have hi := (h.own th i hown).1
  rw [hpc] at hcall
  rw [harrivals]
  rcases eq_or_ne th' th with rfl | hne
  · rw [update_self] at hcall
    rcases hself with hnone | ⟨hsome, hnone⟩
    · rw [hnone] at hcall
      cases hcall
    · rw [hsome] at hcall
      cases hcall
      exact ⟨hi, hnone⟩
  · rw [update_of_ne hne] at hcall
    obtain ⟨hj, hnone⟩ := h.own th' j hcall
    refine ⟨hj, ?_⟩
    rw [hret j, hnone]
    rintro rfl
    rw [hi] at hj
    exact hne (Option.some.inj hj).symm

omit [DecidableEq τ] in
theorem BarrierState.tmp_eq_none (hpc : ∀ i, s.pc th ≠ .waking i) :
    s.tmp n th = none := by
  unfold BarrierState.tmp
  cases hwaking : s.pc th with
  | waking i => exact absurd hwaking (hpc i)
  | idle | parking i | parked i | ready i => rfl

theorem BarrierState.tmp_update (hpc : t.pc = update s.pc th pc)
    (hold : ∀ i, s.pc th ≠ .waking i) (hnew : ∀ i, pc ≠ .waking i)
    (hsame : ∀ r i, s.pc r = .waking i →
      t.others n i = s.others n i ∧ t.woken i = s.woken i) (r : τ) :
    t.tmp n r = s.tmp n r := by
  rcases eq_or_ne r th with rfl | hne
  · rw [BarrierState.tmp_eq_none hold, BarrierState.tmp_eq_none]
    rw [hpc, update_self]
    exact hnew
  · apply BarrierState.tmp_congr _ (hsame r)
    rw [hpc, update_of_ne hne]

section

variable (h : BarrierInv n G c s)
include h

theorem BarrierInv.parks (hpc : s.pc th = .parking i) :
    BarrierInv n G c { s with
      lock := none
      pc := update s.pc th (.parked i) } := by
  have hown : (s.pc th).call = some i := by rw [hpc]; rfl
  have hret := (h.own th i hown).2
  obtain ⟨k, hk, rfl⟩ := h.parking_call hpc
  refine { h with
    queues := h.queues.congr rfl (BarrierState.tmp_update rfl (by simp [hpc])
      (by simp) fun _ _ _ => ⟨rfl, rfl⟩)
    lock := fun th' j hj => ?_
    calls := h.calls_frame hown rfl rfl rfl (fun _ _ => rfl)
      fun g k' hk' heq => ?_
    own := h.own_frame hown rfl rfl (fun _ _ => rfl) (.inr ⟨rfl, hret⟩) }
  · obtain ⟨hne, hold⟩ := update_back rfl (· = BarrierPc.parking j) (by simp) hj
    have hlock := h.lock th' j hold
    rw [h.lock th _ hpc] at hlock
    exact absurd (Option.some.inj hlock).symm hne
  · obtain ⟨rfl, rfl⟩ := index_inj hk hk' heq
    exact .enlisted rfl (.inr (update_self ..)) hret

/-- The call of `th` returns. -/
theorem BarrierInv.leaves {b : Bool} {links : Links (SyncNode τ)}
    (hown : (s.pc th).call = some i)
    (hqueues : WaitQueues links (s.arrivals.drop (G * n))
      (update (s.tmp n) th none))
    (hself : ∀ g k, k < n → i = g * n + k →
      CallOk n G { s with
        links := links
        pc := update s.pc th .idle
        returned := update s.returned i (some b) } g k th) :
    BarrierInv n G c { s with
      links := links
      pc := update s.pc th .idle
      returned := update s.returned i (some b) } := by
  have hi := (List.getElem?_eq_some_iff.mp (h.own th i hown).1).1
  have hret : ∀ j, j ≠ i → update s.returned i (some b) j = s.returned j :=
    fun j hj => update_of_ne hj ..
  refine { h with
    queues := hqueues.congr rfl fun r => ?_
    lock := fun th' j hj =>
      h.lock th' j (update_back rfl (· = BarrierPc.parking j) (by simp) hj).2
    calls := h.calls_frame hown rfl rfl rfl hret hself
    own := h.own_frame hown rfl rfl hret (.inl rfl)
    fresh := fun j hj => ⟨(h.fresh j hj).1, ?_⟩ }
  · rcases eq_or_ne r th with rfl | hne
    · rw [update_self]
      exact BarrierState.tmp_eq_none (by simp)
    · rw [update_of_ne hne]
      exact BarrierState.tmp_congr (update_of_ne hne ..)
        fun _ _ => ⟨rfl, rfl⟩
  · exact (hret j (hi.trans_le hj).ne').trans (h.fresh j hj).2

theorem BarrierInv.runs (hpc : s.pc th = .ready i) :
    BarrierInv n G c { s with
      pc := update s.pc th .idle
      returned := update s.returned i (some false) } := by
  obtain ⟨g, k, hg, hk, rfl, hwoken⟩ := h.ready_call hpc
  have hnone : s.tmp n th = none := BarrierState.tmp_eq_none (by simp [hpc])
  apply h.leaves (by rw [hpc]; rfl)
  · rw [← hnone, update_eq_self]
    exact h.queues
  · intro g' k' hk' heq
    obtain ⟨rfl, rfl⟩ := index_inj (by omega) hk' heq
    exact .done hg hk (update_self ..) hwoken

theorem BarrierInv.relinks (hfree : (s.pc th).linkFree = true)
    (next prev : SyncNode τ) :
    BarrierInv n G c { s with
      links := storePrev (storeNext s.links (.link th) next) (.link th)
        prev } := by
  refine { h with
    queues := h.queues.scribble (h.off hfree) next prev
    calls := fun g k th' hk hth' => ?_ }
  exact (h.calls g k th' hk hth').frame hk (fun _ => rfl) (Nat.le_refl G)
    (fun _ => rfl) rfl (fun _ => rfl) fun _ => rfl

theorem BarrierInv.returns (hpc : s.pc th = .waking i)
    (hpop : (listPop s.links (.tmp th)).2 = none) :
    BarrierInv n G c { s with
      links := (listPop s.links (.tmp th)).1
      pc := update s.pc th .idle
      returned := update s.returned i (some true) } := by
  obtain ⟨g, hg, rfl, hwoken⟩ := h.waking_call hpc
  have hn := h.waiting_lt
  -- nothing left on the list: the whole group has been woken
  obtain ⟨hdone, hsame⟩ := h.queues.pop_none (BarrierState.tmp_waking hpc) hpop
  rw [hsame]
  apply h.leaves (by rw [hpc]; rfl) (h.queues.leave th)
  intro g' k' hk' heq
  obtain ⟨rfl, rfl⟩ := index_inj (by omega) hk' heq
  refine .released hg (by omega) (update_self ..) ?_
  exact hwoken.eq_of_length_le (List.drop_eq_nil_iff.mp hdone)

omit [DecidableEq τ] in
theorem BarrierInv.popped (hpc : s.pc th = .waking i) {rest : List τ}
    (hrest : (s.others n i).drop (s.woken i).length = u :: rest) :
    ∃ g m, g < G ∧ m + 1 < n ∧ i = g * n + (n - 1) ∧
      (s.woken i).length = m ∧ s.arrivals[g * n + m]? = some u ∧
      s.pc u = .parked (g * n + m) ∧ s.others n i = s.woken i ++ u :: rest := by
  obtain ⟨g, hg, rfl, hwoken⟩ := h.waking_call hpc
  have hu : (s.others n (g * n + (n - 1)))[
      (s.woken (g * n + (n - 1))).length]? = some u := by
    have hhead := congrArg (fun l => l[0]?) hrest
    simpa using hhead
  have hlt : (s.woken (g * n + (n - 1))).length + 1 < n := by
    have hlen := (List.getElem?_eq_some_iff.mp hu).1
    rw [BarrierState.others, List.length_take] at hlen
    omega
  rw [others_getElem? hlt] at hu
  refine ⟨g, _, hg, hlt, rfl, rfl, hu,
    h.next_asleep hg hlt hu (Nat.le_refl _), ?_⟩
  rw [← hrest]
  obtain ⟨rest', hrest'⟩ := hwoken
  rw [← hrest', List.drop_left]

theorem BarrierInv.wakes {j : Nat}
    (hpc : s.pc th = .waking i)
    (hpop : (listPop s.links (.tmp th)).2 = some (.link u))
    (hu : s.pc u = .parked j) :
    BarrierInv n G c { s with
      links := (listPop s.links (.tmp th)).1
      pc := update s.pc u (.ready j)
      woken := update s.woken i (s.woken i ++ [u]) } := by
  have hown : (s.pc th).call = some i := by rw [hpc]; rfl
  obtain ⟨hith, hireturned⟩ := h.own th i hown
  have hi := (List.getElem?_eq_some_iff.mp hith).1
  have hne : th ≠ u := by
    rintro rfl
    rw [hpc] at hu
    cases hu
  have htmp := BarrierState.tmp_waking (n := n) hpc
  obtain ⟨rest, hrest, hqueues⟩ := h.queues.pop_some htmp hpop
  obtain ⟨g, m, hg, hm, rfl, hlen, hum, hasleep, hothers⟩ :=
    h.popped hpc hrest
  obtain rfl := BarrierPc.parked.inj (hu.symm.trans hasleep)
  have hwokeni : update s.woken (g * n + (n - 1))
      (s.woken (g * n + (n - 1)) ++ [u]) (g * n + (n - 1)) =
      s.woken (g * n + (n - 1)) ++ [u] := update_self ..
  have hwokenother : ∀ j, j ≠ g * n + (n - 1) →
      update s.woken (g * n + (n - 1))
        (s.woken (g * n + (n - 1)) ++ [u]) j = s.woken j :=
    fun j hj => update_of_ne hj ..
  have huown : (s.pc u).call = some (g * n + m) := by rw [hu]; rfl
  refine { h with
    queues := hqueues.congr rfl fun r => ?_
    lock := fun th' j hj =>
      h.lock th' j (update_back rfl (· = BarrierPc.parking j) (by simp) hj).2
    calls := fun g' k th' hk hth' => ?_
    own := h.own_frame huown rfl rfl (fun _ _ => rfl)
      (.inr ⟨rfl, (h.own u _ huown).2⟩)
    fresh := fun j hj => ⟨?_, (h.fresh j hj).2⟩
    quiet := fun g' k hk => ?_ }
  · rcases eq_or_ne r th with rfl | hr
    · rw [update_self, BarrierState.tmp_waking
        ((update_of_ne hne ..).trans hpc)]
      simp only [hwokeni]
      change some ((s.others n _).drop _) = _
      rw [hothers, List.append_cons _ u rest, List.drop_left]
    · rw [update_of_ne hr]
      rcases eq_or_ne r u with rfl | hru
      · rw [BarrierState.tmp_eq_none (by simp),
          BarrierState.tmp_eq_none (by simp [hu])]
      · apply BarrierState.tmp_congr (update_of_ne hru ..)
        intro i' hr'
        refine ⟨rfl, hwokenother i' ?_⟩
        rintro rfl
        have hthere := (h.own r _ (by rw [hr']; rfl)).1
        rw [hith] at hthere
        exact hr (Option.some.inj hthere).symm
  · change s.arrivals[g' * n + k]? = some th' at hth'
    by_cases hself : g' = g ∧ k = m
    · obtain ⟨rfl, rfl⟩ := hself
      rw [hum] at hth'
      cases hth'
      refine .awake hg hm (update_self ..) (h.own u _ huown).2 ?_
      simp only [hwokeni, List.length_append, List.length_singleton]
      omega
    · have hpc' : (s.pc th').call = some (g' * n + k) →
          update s.pc u (.ready (g * n + m)) th' = s.pc th' := by
        intro hcall
        apply update_of_ne
        rintro rfl
        rw [huown] at hcall
        have heq := Option.some.inj hcall
        exact hself (index_inj hk (by omega) heq.symm)
      rcases eq_or_ne g' g with rfl | hgroup
      · exact (h.calls g' k th' hk hth').woken hg hk
          (fun heq => hself ⟨rfl, heq.trans hlen⟩) hothers hireturned hpc'
          rfl hwokeni rfl
      · refine (h.calls g' k th' hk hth').frame hk (fun _ => rfl)
          (Nat.le_refl G) hpc' rfl (fun _ => ?_) fun _ => rfl
        apply hwokenother
        intro heq
        exact hgroup (index_inj (by omega) (by omega) heq).1
  · exact (hwokenother j (hi.trans_le hj).ne').trans (h.fresh j hj).1
  · refine (hwokenother _ fun heq => ?_).trans (h.quiet g' k hk)
    have := (index_inj (by omega) (by omega) heq).2
    omega

end

omit [DecidableEq τ] in
theorem arrivals_append {th' : τ} (harrivals : t.arrivals = s.arrivals ++ [th])
    (hi : t.arrivals[i]? = some th') :
    s.arrivals[i]? = some th' ∨ i = s.arrivals.length ∧ th' = th := by
  rw [harrivals] at hi
  rcases Nat.lt_or_ge i s.arrivals.length with hlt | hge
  · rw [List.getElem?_append_left hlt] at hi
    exact .inl hi
  · have hlen := (List.getElem?_eq_some_iff.mp hi).1
    rw [List.length_append, List.length_singleton] at hlen
    obtain rfl : i = s.arrivals.length := by omega
    rw [List.getElem?_concat_length] at hi
    exact .inr ⟨rfl, (Option.some.inj hi).symm⟩

section

variable (h : BarrierInv n G c s)
include h

theorem BarrierInv.own_arrive (hpc : t.pc = update s.pc th pc)
    (harrivals : t.arrivals = s.arrivals ++ [th])
    (hret : t.returned = s.returned)
    (hself : pc.call = some s.arrivals.length) :
    ∀ th' j, (t.pc th').call = some j →
      t.arrivals[j]? = some th' ∧ t.returned j = none := by
  intro th' j hcall
  rw [hpc] at hcall
  rw [harrivals, hret]
  rcases eq_or_ne th' th with rfl | hne
  · rw [update_self, hself] at hcall
    cases hcall
    exact ⟨List.getElem?_concat_length, (h.fresh _ (Nat.le_refl _)).2⟩
  · rw [update_of_ne hne] at hcall
    obtain ⟨hj, hnone⟩ := h.own th' j hcall
    have hlen := (List.getElem?_eq_some_iff.mp hj).1
    exact ⟨(List.getElem?_append_left hlen).trans hj, hnone⟩

theorem BarrierInv.earlier {G' g k : Nat} {th' : τ} (hk : k < n)
    (hth' : s.arrivals[g * n + k]? = some th') (hopen : g = G → G' = G)
    (hcomplete : G ≤ G') (hidle : s.pc th = .idle)
    (hpc : t.pc = update s.pc th pc)
    (harrivals : t.arrivals = s.arrivals ++ [th])
    (hret : t.returned = s.returned) (hwoken : t.woken = s.woken) :
    CallOk n G' t g k th' := by
  apply (h.calls g k th' hk hth').frame hk hopen hcomplete
  · intro hcall
    rw [hpc]
    apply update_of_ne
    rintro rfl
    rw [hidle] at hcall
    cases hcall
  · rw [hret]
  · exact fun _ => by rw [hwoken]
  · intro hg
    apply others_append _ _ harrivals
    · omega
    · rw [h.size]
      exact (index_lt_iff (by omega) h.waiting_lt).mpr (.inl hg)

omit [DecidableEq τ] in
theorem BarrierInv.tmp_arrive {r : τ} (hpc : t.pc r = s.pc r)
    (harrivals : t.arrivals = s.arrivals ++ [th]) (hwoken : t.woken = s.woken) :
    t.tmp n r = s.tmp n r := by
  apply BarrierState.tmp_congr hpc
  intro i hi
  obtain ⟨g, hg, rfl, _⟩ := h.waking_call hi
  have hlen := (List.getElem?_eq_some_iff.mp (h.own r _ (by rw [hi]; rfl)).1).1
  refine ⟨others_append (by omega) hlen harrivals, by rw [hwoken]⟩

omit [DecidableEq τ] in
theorem BarrierInv.distinct_arrive (hth : th ∉ s.arrivals.drop (G * n))
    (harrivals : t.arrivals = s.arrivals ++ [th]) (g : Nat) :
    (t.group n g).Nodup := by
  have hdistinct := h.distinct g
  have hsize := h.size
  have hlt := h.waiting_lt
  rw [BarrierState.group] at hdistinct ⊢
  rw [harrivals]
  rcases Nat.lt_trichotomy g G with hg | rfl | hg
  · have hle := Nat.mul_le_mul_right n hg
    rw [Nat.succ_mul] at hle
    rwa [List.drop_append_of_le_length (by omega),
      List.take_append_of_le_length]
    rw [List.length_drop]
    omega
  · rw [List.take_of_length_le] at hdistinct
    · rw [List.drop_append_of_le_length (by omega), List.take_of_length_le]
      · apply hdistinct.append (List.nodup_singleton th)
        rwa [List.disjoint_singleton]
      · rw [List.length_append, List.length_drop, List.length_singleton]
        omega
    · rw [List.length_drop]
      omega
  · have hle := Nat.mul_le_mul_right n hg
    rw [Nat.succ_mul] at hle
    rw [List.drop_eq_nil_of_le]
    · simp
    · rw [List.length_append, List.length_singleton]
      omega

theorem BarrierInv.enlists (hidle : s.pc th = .idle)
    (hlock : s.lock = none) (hcount : s.waiting + 1 < s.count) :
    BarrierInv n G (c + 1) { s with
      waiting := s.waiting + 1
      lock := some th
      links := listAddTail s.links .waiters (.link th)
      pc := update s.pc th (.parking s.arrivals.length)
      arrivals := s.arrivals ++ [th] } := by
  have hc : c + 1 < n := by
    have hwaiting := h.waiting
    have hsize := h.count
    omega
  have hoff : OffQueues (s.arrivals.drop (G * n)) (s.tmp n) th :=
    h.off (by rw [hidle]; rfl)
  refine ⟨h.count, ?_, hc, ?_, ?_, ?_, ?_, ?_, ?_, h.quiet,
    h.distinct_arrive hoff.1 rfl⟩
  · simp only [h.waiting]
    omega
  · simp only [List.length_append, List.length_singleton, h.size]
    omega
  · apply (h.queues.enqueue hoff).congr
    · apply List.drop_append_of_le_length
      rw [h.size]
      omega
    · intro r
      rcases eq_or_ne r th with rfl | hne
      · rw [BarrierState.tmp_eq_none (by simp),
          BarrierState.tmp_eq_none (by simp [hidle])]
      · exact h.tmp_arrive (update_of_ne hne ..) rfl rfl
  · intro th' j hj
    rcases eq_or_ne th' th with rfl | hne
    · rfl
    · simp only [update_of_ne hne] at hj
      have hheld := h.lock th' j hj
      rw [hlock] at hheld
      cases hheld
  · intro g k th' hk hth'
    rcases arrivals_append rfl hth' with hold | ⟨hlen, rfl⟩
    · exact h.earlier hk hold (fun _ => rfl) (Nat.le_refl G) hidle rfl rfl rfl
        rfl
    · rw [h.size] at hlen
      obtain ⟨rfl, rfl⟩ := index_inj hk h.waiting_lt hlen
      refine .enlisted rfl (.inl ?_) ?_
      · rw [← h.size]
        exact update_self ..
      · rw [← h.size]
        exact (h.fresh _ (Nat.le_refl _)).2
  · exact h.own_arrive rfl rfl rfl rfl
  · intro i hi
    simp only [List.length_append, List.length_singleton] at hi
    exact h.fresh i (by omega)

theorem BarrierInv.completes (hidle : s.pc th = .idle)
    (hlock : s.lock = none) (hcount : s.count ≤ s.waiting + 1) :
    BarrierInv n (G + 1) 0 { s with
      waiting := 0
      links := takeWaiters s.links th
      pc := update s.pc th (.waking s.arrivals.length)
      arrivals := s.arrivals ++ [th] } := by
  have hc : c + 1 = n := by
    have hwaiting := h.waiting
    have hsize := h.count
    have hlt := h.waiting_lt
    omega
  have hsize := h.size
  have hgroups : (G + 1) * n = G * n + n := Nat.succ_mul G n
  obtain ⟨hwoken, hreturned⟩ := h.fresh _ (Nat.le_refl s.arrivals.length)
  have htaken := h.queues.take (r := th)
    (BarrierState.tmp_eq_none (by simp [hidle]))
  have hoff : OffQueues (s.arrivals.drop (G * n)) (s.tmp n) th :=
    h.off (by rw [hidle]; rfl)
  refine ⟨h.count, rfl, by omega, ?_, ?_, ?_, ?_, ?_, ?_, h.quiet,
    h.distinct_arrive hoff.1 rfl⟩
  · simp only [List.length_append, List.length_singleton]
    omega
  · apply htaken.congr
    · apply List.drop_eq_nil_of_le
      simp only [List.length_append, List.length_singleton]
      omega
    · intro r
      rcases eq_or_ne r th with rfl | hne
      · rw [update_self, BarrierState.tmp_waking (update_self ..)]
        simp only [BarrierState.others, hwoken, List.length_nil, List.drop_zero]
        have hstart : s.arrivals.length + 1 - n = G * n := by omega
        rw [hstart, List.drop_append_of_le_length (by omega),
          List.take_append_of_le_length, List.take_of_length_le]
        · rw [List.length_drop]
          omega
        · rw [List.length_drop]
          omega
      · rw [update_of_ne hne]
        exact h.tmp_arrive (update_of_ne hne ..) rfl rfl
  · intro th' j hj
    have hold := (update_back rfl (· = BarrierPc.parking j) (by simp) hj).2
    have hheld := h.lock th' j hold
    rw [hlock] at hheld
    cases hheld
  · intro g k th' hk hth'
    rcases arrivals_append rfl hth' with hold | ⟨hlen, rfl⟩
    · rcases Nat.lt_or_ge g G with hlt | hge
      · exact h.earlier hk hold (fun heq => absurd heq hlt.ne)
          (Nat.le_succ G) hidle rfl rfl rfl rfl
      · -- the group that has just been completed
        have hbound := (List.getElem?_eq_some_iff.mp hold).1
        rw [hsize, index_lt_iff hk h.waiting_lt] at hbound
        cases h.calls g k th' hk hold with
        | enlisted hgroup hpc hret =>
          rcases hpc with hpc | hpc
          · have hheld := h.lock th' _ hpc
            rw [hlock] at hheld
            cases hheld
          · have hne : th' ≠ th := by
              rintro rfl
              rw [hidle] at hpc
              cases hpc
            refine .asleep (by omega) (by omega) ?_ hret ?_
            · exact (update_of_ne hne ..).trans hpc
            · have hlast : g * n + (n - 1) = s.arrivals.length := by
                rw [hgroup, hsize]
                omega
              simp only [hlast, hwoken, List.length_nil, Nat.zero_le]
        | releasing hgroup | released hgroup | asleep hgroup | awake hgroup
        | done hgroup => omega
    · rw [hsize] at hlen
      obtain ⟨rfl, rfl⟩ := index_inj hk h.waiting_lt hlen
      rw [hsize] at hwoken hreturned
      refine .releasing (Nat.lt_succ_self g) hc ?_ hreturned ?_
      · rw [← hsize]
        exact update_self ..
      · simp only [hwoken]
        exact List.nil_prefix
  · exact h.own_arrive rfl rfl rfl rfl
  · intro i hi
    simp only [List.length_append, List.length_singleton] at hi
    exact h.fresh i (by omega)

theorem BarrierInv.next (hnext : barrierNext s a = some t) :
    ∃ G' c', BarrierInv n G' c' t := by
  cases barrierNext_step hnext with
  | completes hidle hlock hcount =>
    exact ⟨G + 1, 0, h.completes hidle hlock hcount⟩
  | enlists hidle hlock hcount =>
    exact ⟨G, c + 1, h.enlists hidle hlock hcount⟩
  | parks hpc => exact ⟨G, c, h.parks hpc⟩
  | returns hpc hpop => exact ⟨G, c, h.returns hpc hpop⟩
  | wakes hpc hpop hu => exact ⟨G, c, h.wakes hpc hpop hu⟩
  | runs hpc => exact ⟨G, c, h.runs hpc⟩
  | relinks hfree => exact ⟨G, c, h.relinks hfree _ _⟩

end

end Steps

section Runs

variable {s : BarrierState τ} {th : τ}

theorem barrierInit_inv (links : Links (SyncNode τ)) {count : Int}
    (hcount : 1 ≤ count) :
    BarrierInv count.toNat 0 0 (barrierInit links count) := by
  refine ⟨?_, rfl, by omega, ?_, ?_, ?_, ?_, ?_, ?_, ?_, ?_⟩
  · change count = _
    omega
  · simp [barrierInit]
  · exact (WaitQueues.init links).congr (by simp [barrierInit]) fun _ => rfl
  · intro th i hpc
    cases hpc
  · intro g k th _ hth
    simp [barrierInit] at hth
  · intro th i hcall
    cases hcall
  · exact fun _ _ => ⟨rfl, rfl⟩
  · exact fun _ _ _ => rfl
  · exact fun g => by simp [barrierInit, BarrierState.group]

theorem barrierSystem_inv (hs : (barrierSystem τ).Reach anyStep s) :
    ∃ n G c, BarrierInv n G c s := by
  apply hs.invariant
  · rintro s ⟨links, count, hcount, rfl⟩
    exact ⟨_, _, _, barrierInit_inv links hcount⟩
  · rintro s a t ⟨n, G, c, h⟩ _ hnext
    obtain ⟨G', c', ht⟩ := h.next hnext
    exact ⟨n, G', c', ht⟩

/-- What the next round of the loop does in which `th` wakes group `g`. -/
def BarrierState.WakeRound (n : Nat) (s : BarrierState τ) (th : τ) (g : Nat) :
    Prop :=
  let i := g * n + (n - 1)
  (s.woken i = (s.group n g).take (n - 1) ∧
    ∃ L, barrierNext s (.wake th) = some { s with
      links := L
      pc := update s.pc th .idle
      returned := update s.returned i (some true) }) ∨
  ∃ u rest L, (s.group n g).take (n - 1) = s.woken i ++ u :: rest ∧
    s.pc u = .parked (g * n + (s.woken i).length) ∧
    barrierNext s (.wake th) = some { s with
      links := L
      pc := update s.pc u (.ready (g * n + (s.woken i).length))
      woken := update s.woken i (s.woken i ++ [u]) }

/-- The arrivals fall into groups of `n`, each released by its last member and
by nobody else. -/
structure Generations (n : Nat) (s : BarrierState τ) : Prop where
  /-- A thread is at most once in a group. -/
  distinct : ∀ g, (s.group n g).Nodup
  /-- A thread in a call is the one that made this call. -/
  own : ∀ th i, (s.pc th).call = some i → s.arrivals[i]? = some th
  /-- Calls of complete groups return, true for the last arrival and false for
  the others. -/
  returned : ∀ g k b, k < n → s.returned (g * n + k) = some b →
    (s.group n g).length = n ∧ (b = true ↔ k + 1 = n)
  /-- Threads are made ready by the last arrival of a complete group only. -/
  waker : ∀ i, s.woken i ≠ [] →
    ∃ g, i = g * n + (n - 1) ∧ (s.group n g).length = n
  /-- They are the other members of this group, in order of arrival. -/
  members : ∀ g, s.woken (g * n + (n - 1)) <+: (s.group n g).take (n - 1)
  /-- All of them have been made ready when the call returns. -/
  complete : ∀ g, s.returned (g * n + (n - 1)) = some true →
    s.woken (g * n + (n - 1)) = (s.group n g).take (n - 1)
  /-- Who sleeps has not been made ready, -/
  asleep : ∀ g k th, k + 1 < n →
    s.pc th = .parking (g * n + k) ∨ s.pc th = .parked (g * n + k) →
    (s.woken (g * n + (n - 1))).length ≤ k
  /-- and who runs again or has returned false has. -/
  awake : ∀ g k, k + 1 < n →
    (∃ th, s.pc th = .ready (g * n + k)) ∨
      s.returned (g * n + k) = some false →
    k < (s.woken (g * n + (n - 1))).length
  /-- The last arrival of a complete group is in its waking loop or has returned
  true. -/
  last : ∀ g, (s.group n g).length = n →
    ∃ th, s.arrivals[g * n + (n - 1)]? = some th ∧
      (s.pc th = .waking (g * n + (n - 1)) ∨
        s.returned (g * n + (n - 1)) = some true)
  /-- A round of the loop makes the next member ready, and with nobody left the
  call returns true. -/
  wakes : ∀ th i, s.pc th = .waking i →
    ∃ g, i = g * n + (n - 1) ∧ s.WakeRound n th g
  /-- So `n - 1` of these rounds and one more end it. -/
  ends : ∀ th i, s.pc th = .waking i →
    ∃ t, (barrierSystem τ).exec s
        (.replicate (n - (s.woken i).length) (.wake th)) = some t ∧
      t.pc th = .idle ∧ t.returned i = some true

variable {n G c : Nat}

section

omit [DecidableEq τ]

theorem BarrierInv.group_length (h : BarrierInv n G c s) {g : Nat}
    (hg : g < G) : (s.group n g).length = n := by
  have hle := Nat.mul_le_mul_right n hg
  rw [Nat.succ_mul] at hle
  have hsize := h.size
  rw [BarrierState.group, List.length_take, List.length_drop]
  omega

theorem BarrierState.others_eq (hn : 0 < n) (g : Nat) :
    s.others n (g * n + (n - 1)) = (s.group n g).take (n - 1) := by
  have hstart : g * n + (n - 1) + 1 - n = g * n := by omega
  rw [BarrierState.others, hstart, BarrierState.group, List.take_take]
  congr 1
  omega

theorem BarrierInv.call_at (h : BarrierInv n G c s) {g k : Nat} (hk : k < n)
    (htrace : s.woken (g * n + k) ≠ [] ∨ s.returned (g * n + k) ≠ none) :
    ∃ th, CallOk n G s g k th := by
  have hlt : g * n + k < s.arrivals.length := by
    by_contra hge
    obtain ⟨hwoken, hret⟩ := h.fresh _ (Nat.le_of_not_lt hge)
    rcases htrace with htrace | htrace
    · exact htrace hwoken
    · exact htrace hret
  exact ⟨_, h.calls g k _ hk (List.getElem?_eq_getElem hlt)⟩

theorem BarrierInv.members (h : BarrierInv n G c s) (g : Nat) :
    s.woken (g * n + (n - 1)) <+: s.others n (g * n + (n - 1)) ∧
      (s.woken (g * n + (n - 1)) ≠ [] → g < G) := by
  have hn := h.waiting_lt
  by_cases hwoken : s.woken (g * n + (n - 1)) = []
  · rw [hwoken]
    exact ⟨List.nil_prefix, fun hne => absurd rfl hne⟩
  · obtain ⟨th, hcall⟩ := h.call_at (by omega) (.inl hwoken)
    cases hcall with
    | enlisted hgroup hpc =>
      -- the last arrival of a group is never put on the list
      have hlt : g * n + (n - 1) < G * n + c := by
        have hi := (h.own th _ (call_of_enlisted hpc)).1
        rw [← h.size]
        exact (List.getElem?_eq_some_iff.mp hi).1
      rw [index_lt_iff (by omega) hn] at hlt
      omega
    | releasing hgroup _ _ _ hmembers => exact ⟨hmembers, fun _ => hgroup⟩
    | released hgroup _ _ hmembers =>
      rw [hmembers]
      exact ⟨List.prefix_rfl, fun _ => hgroup⟩
    | asleep _ hlast | awake _ hlast | done _ hlast => omega

end

theorem BarrierInv.wake_round (h : BarrierInv n G c s) {g : Nat}
    (hpc : s.pc th = .waking (g * n + (n - 1))) : s.WakeRound n th g := by
  have hn : 0 < n := Nat.lt_of_le_of_lt (Nat.zero_le c) h.waiting_lt
  have htmp := BarrierState.tmp_waking (n := n) hpc
  unfold BarrierState.WakeRound
  rw [← BarrierState.others_eq hn]
  cases hrest : (s.others n (g * n + (n - 1))).drop
      (s.woken (g * n + (n - 1))).length with
  | nil =>
    rw [hrest] at htmp
    refine .inl ⟨(h.members g).1.eq_of_length_le
      (List.drop_eq_nil_iff.mp hrest), ?_⟩
    simp only [barrierNext, hpc, h.queues.pop_nil htmp]
    exact ⟨_, rfl⟩
  | cons u rest =>
    rw [hrest] at htmp
    obtain ⟨L, hpop, _⟩ := h.queues.pop_cons htmp
    obtain ⟨g', m, _, _, heq, hlen, _, hasleep, hothers⟩ :=
      h.popped hpc hrest
    obtain ⟨rfl, -⟩ := index_inj (by omega) (by omega) heq
    subst hlen
    refine .inr ⟨u, rest, L, hothers, hasleep, ?_⟩
    simp only [barrierNext, hpc, hpop, hasleep]

section

omit [DecidableEq τ]

theorem BarrierInv.members_length (h : BarrierInv n G c s) {g : Nat}
    (hpc : s.pc th = .waking (g * n + (n - 1))) :
    ((s.group n g).take (n - 1)).length = n - 1 := by
  have hn := h.waiting_lt
  obtain ⟨g', hg, heq, _⟩ := h.waking_call hpc
  obtain ⟨rfl, -⟩ := index_inj (by omega) (by omega) heq
  rw [List.length_take, h.group_length hg]
  omega

theorem BarrierInv.woken_lt (h : BarrierInv n G c s) (g : Nat) :
    (s.woken (g * n + (n - 1))).length < n := by
  have hn := h.waiting_lt
  have hle := (h.members g).1.length_le
  rw [BarrierState.others, List.length_take] at hle
  omega

theorem BarrierInv.last_call (h : BarrierInv n G c s) {g : Nat}
    (hfull : (s.group n g).length = n) :
    ∃ th, s.arrivals[g * n + (n - 1)]? = some th ∧
      (s.pc th = .waking (g * n + (n - 1)) ∨
        s.returned (g * n + (n - 1)) = some true) := by
  have hn := h.waiting_lt
  have hlast : g * n + (n - 1) < s.arrivals.length := by
    rw [BarrierState.group, List.length_take, List.length_drop] at hfull
    omega
  have hg : g < G := by
    rw [h.size, index_lt_iff (by omega) hn] at hlast
    omega
  refine ⟨_, List.getElem?_eq_getElem hlast, ?_⟩
  cases h.calls g (n - 1) _ (by omega) (List.getElem?_eq_getElem hlast) with
  | enlisted hgroup => omega
  | releasing _ _ hpc => exact .inl hpc
  | released _ _ hret => exact .inr hret
  | asleep _ hlast | awake _ hlast | done _ hlast => omega

end

/-- By induction on the number of members that are left. -/
theorem BarrierInv.loop_ends {g left : Nat} (h : BarrierInv n G c s)
    (hpc : s.pc th = .waking (g * n + (n - 1)))
    (hleft : n = (s.woken (g * n + (n - 1))).length + left) :
    ∃ t, (barrierSystem τ).exec s (.replicate left (.wake th)) = some t ∧
      t.pc th = .idle ∧ t.returned (g * n + (n - 1)) = some true := by
  induction left generalizing s G c with
  | zero =>
    have hlt := h.woken_lt g
    omega
  | succ left ih =>
    rcases h.wake_round hpc with
      ⟨hall, L, hnext⟩ | ⟨u, rest, L, hrest, hu, hnext⟩
    · obtain rfl : left = 0 := by
        rw [hall, h.members_length hpc] at hleft
        omega
      exact ⟨_, System.exec_cons.mpr ⟨_, hnext, rfl⟩, update_self ..,
        update_self ..⟩
    · have hne : th ≠ u := by
        rintro rfl
        rw [hpc] at hu
        cases hu
      obtain ⟨G', c', h'⟩ := h.next hnext
      obtain ⟨t, hrun, hend⟩ := ih h' ((update_of_ne hne ..).trans hpc)
        (by
          simp only [update_self, List.length_append, List.length_singleton]
          omega)
      exact ⟨t, System.exec_cons.mpr ⟨_, hnext, hrun⟩, hend⟩

omit [DecidableEq τ] in
theorem BarrierInv.returned_call (h : BarrierInv n G c s) {g k : Nat} {b : Bool}
    (hk : k < n) (hret : s.returned (g * n + k) = some b) :
    g < G ∧ (b = true ∧ k + 1 = n ∧
        s.woken (g * n + k) = s.others n (g * n + k) ∨
      b = false ∧ k + 1 < n ∧ k < (s.woken (g * n + (n - 1))).length) := by
  obtain ⟨th, hcall⟩ := h.call_at hk (.inr (by rw [hret]; simp))
  cases hcall with
  | enlisted _ _ hnone | releasing _ _ _ hnone | asleep _ _ _ hnone
  | awake _ _ _ hnone =>
    rw [hnone] at hret
    cases hret
  | released hgroup hlast htrue hwoken =>
    rw [htrue] at hret
    cases hret
    exact ⟨hgroup, .inl ⟨rfl, hlast, hwoken⟩⟩
  | done hgroup hlast hfalse hwoken =>
    rw [hfalse] at hret
    cases hret
    exact ⟨hgroup, .inr ⟨rfl, hlast, hwoken⟩⟩

omit [DecidableEq τ] in
theorem BarrierInv.asleep_call (h : BarrierInv n G c s) {g k : Nat}
    (hk : k + 1 < n) (hpc : s.pc th = .parking (g * n + k) ∨
      s.pc th = .parked (g * n + k)) :
    (s.woken (g * n + (n - 1))).length ≤ k := by
  obtain ⟨hth, hnone⟩ := h.own th _ (call_of_enlisted hpc)
  cases h.calls g k th (by omega) hth with
  | enlisted hgroup =>
    by_contra hlong
    have hwoken : s.woken (g * n + (n - 1)) ≠ [] :=
      List.ne_nil_of_length_pos (by omega)
    have hlt := (h.members g).2 hwoken
    omega
  | asleep _ _ _ _ hwoken => exact hwoken
  | releasing _ hlast | released _ hlast => omega
  | awake _ _ hready =>
    rw [hready] at hpc
    simp at hpc
  | done _ _ hfalse =>
    rw [hnone] at hfalse
    cases hfalse

theorem BarrierInv.generations (h : BarrierInv n G c s) : Generations n s := by
  have hn : 0 < n := Nat.lt_of_le_of_lt (Nat.zero_le c) h.waiting_lt
  refine ⟨h.distinct, fun th i hcall => (h.own th i hcall).1, ?_, ?_, ?_, ?_,
    fun g k th hk hpc => h.asleep_call hk hpc, ?_, fun g => h.last_call, ?_, ?_⟩
  · intro g k b hk hret
    obtain ⟨hgroup, ⟨rfl, hlast, _⟩ | ⟨rfl, hlast, _⟩⟩ :=
      h.returned_call hk hret
    · exact ⟨h.group_length hgroup, iff_of_true rfl hlast⟩
    · exact ⟨h.group_length hgroup, iff_of_false (by simp) (by omega)⟩
  · intro i hwoken
    obtain ⟨g, k, hk, rfl⟩ := index_split hn i
    by_cases hlast : k + 1 < n
    · exact absurd (h.quiet g k hlast) hwoken
    · obtain rfl : k = n - 1 := by omega
      exact ⟨g, rfl, h.group_length ((h.members g).2 hwoken)⟩
  · intro g
    rw [← BarrierState.others_eq hn]
    exact (h.members g).1
  · intro g hret
    rw [← BarrierState.others_eq hn]
    have hlast : n - 1 < n := by omega
    obtain ⟨_, ⟨_, _, hmembers⟩ | ⟨hfalse, _⟩⟩ := h.returned_call hlast hret
    · exact hmembers
    · cases hfalse
  · intro g k hk hout
    rcases hout with ⟨th, hready⟩ | hfalse
    · obtain ⟨g', k', _, hk', heq, hwoken⟩ := h.ready_call hready
      obtain ⟨rfl, rfl⟩ := index_inj (by omega) (by omega) heq
      exact hwoken
    · have hlt : k < n := by omega
      obtain ⟨_, ⟨htrue, _⟩ | ⟨_, _, hwoken⟩⟩ := h.returned_call hlt hfalse
      · cases htrue
      · exact hwoken
  · intro th i hpc
    obtain ⟨g, _, rfl, _⟩ := h.waking_call hpc
    exact ⟨g, rfl, h.wake_round hpc⟩
  · intro th i hpc
    obtain ⟨g, _, rfl, _⟩ := h.waking_call hpc
    have hlt := h.woken_lt g
    exact h.loop_ends hpc (by omega)

/-- In every run the arrivals fall into groups of `count`. -/
theorem barrier_generations (hs : (barrierSystem τ).Reach anyStep s) :
    ∃ n : Nat, s.count = n ∧ 0 < n ∧ Generations n s := by
  obtain ⟨n, G, c, h⟩ := barrierSystem_inv hs
  have hn : 0 < n := Nat.lt_of_le_of_lt (Nat.zero_le c) h.waiting_lt
  exact ⟨n, h.count, hn, h.generations⟩

/-- A barrier for two threads: thread 0 is back at the barrier before thread 1
has left the loop in which it woke thread 0. -/
def returnRun : List (BarrierAct Nat) :=
  [.arrive 0, .park 0, .arrive 1, .wake 1, .run 0, .arrive 0, .park 0, .wake 1]

def pairBarrier : BarrierState Nat := barrierInit ⟨id, id⟩ 2

theorem returnRun_isSome :
    ((barrierSystem Nat).exec pairBarrier returnRun).isSome := by
  decide

def backAtBarrier : BarrierState Nat :=
  ((barrierSystem Nat).exec pairBarrier returnRun).get returnRun_isSome

theorem barrier_generations_back :
    backAtBarrier.returned 0 = some false ∧
    backAtBarrier.returned 1 = some true ∧ backAtBarrier.woken 1 = [0] ∧
    backAtBarrier.pc 0 = .parked 2 ∧
    ∃ n : Nat, backAtBarrier.count = n ∧ 0 < n ∧
      Generations n backAtBarrier := by
  have hreach : (barrierSystem Nat).Reach anyStep backAtBarrier := by
    have hinit : (barrierSystem Nat).init pairBarrier :=
      ⟨⟨id, id⟩, 2, by decide, rfl⟩
    apply System.Reach.exec (.init hinit) returnRun
    exact (Option.some_get returnRun_isSome).symm
  exact ⟨by decide, by decide, by decide, by decide,
    barrier_generations hreach⟩

end Runs

end Libut.Runtime
