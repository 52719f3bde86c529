import Libut.Machine.SwapRemove
import Libut.Machine.System
import Libut.Machine.Total

/-!
The registry of attached kthreads and the count of running ones
(`runtime/kthread.c`). Attaching and detaching hold `klock` and are one step
each; in `kthread_park` the read of `runningks`, its decrement, the increment
that takes it back and the store to `parked` are steps of their own, and so
are the increments on the way back. A kthread is detached by another one that
holds its lock, which is free only while it sleeps.
-/

namespace Libut.Runtime.Registry

open Function Machine

/-- Where a kthread stands. -/
inductive Pc
  /-- It waits in `kthread_wait_to_attach` for its first core. -/
  | start
  /-- It has attached for the first time; `atomic_inc` is next. -/
  | attached
  | running
  /-- In `kthread_park`, `runningks` was above `spinks`. -/
  | deciding
  /-- The decrement left fewer than `spinks`; `atomic_inc` is next. -/
  | undoing
  /-- The decrement left enough; the store to `parked` is next. -/
  | parking
  /-- It waits for the iokernel. -/
  | asleep
  /-- It is unparked again; `atomic_inc` is next. -/
  | unparked
  /-- It counts again; it may have to attach again. -/
  | rejoining
  deriving DecidableEq, Repr

structure State (κ : Type) where
  pc : κ → Pc
  parked : κ → Bool
  detached : κ → Bool
  /-- `ks[0..nrks)`. -/
  ks : List κ
  runningks : BitVec 32

inductive Act (κ : Type)
  /-- The iokernel ends the wait of `kthread_wait_to_attach`. -/
  | attach (k : κ)
  | count (k : κ)
  | read (k : κ)
  | decrement (k : κ)
  | undo (k : κ)
  | park (k : κ)
  | unpark (k : κ)
  | recount (k : κ)
  | rejoin (k : κ)
  /-- `kthread_detach(r)` on kthread `k`; `drained` says whether the queues of
  `r` are found empty. -/
  | detach (k r : κ) (drained : Bool)

variable {κ : Type} [DecidableEq κ]

def State.goto (s : State κ) (k : κ) (p : Pc) : State κ :=
  { s with pc := update s.pc k p }

def kthreadAttach (s : State κ) (k : κ) : State κ :=
  { s with
    detached := update s.detached k false
    ks := s.ks ++ [k] }

/-- `kthread_detach`, with the queues found empty; `none` is its `BUG()`. -/
def kthreadDetach (s : State κ) (r : κ) : Option (State κ) :=
  match s.ks.idxOf? r with
  | none => none
  | some i => some
      { s with
        detached := update s.detached r true
        ks := swapRemove s.ks i }

/-- One step of a kthread. The callers of `kthread_detach` test that `r` is
parked and attached. -/
def step (spinks : BitVec 32) (s : State κ) : Act κ → Option (State κ)
  | .attach k =>
    if s.pc k = .start then some ((kthreadAttach s k).goto k .attached)
    else none
  | .count k =>
    if s.pc k = .attached then
      some { s.goto k .running with runningks := s.runningks + 1 }
    else none
  | .read k =>
    if s.pc k = .running then
      some (if s.runningks ≤ spinks then s else s.goto k .deciding)
    else none
  | .decrement k =>
    if s.pc k = .deciding then
      let remaining := s.runningks - 1
      some { s.goto k (if remaining < spinks then .undoing else .parking)
        with runningks := remaining }
    else none
  | .undo k =>
    if s.pc k = .undoing then
      some { s.goto k .running with runningks := s.runningks + 1 }
    else none
  | .park k =>
    if s.pc k = .parking then
      some { s.goto k .asleep with
        parked := update s.parked k true }
    else none
  | .unpark k =>
    if s.pc k = .asleep then
      some { s.goto k .unparked with
        parked := update s.parked k false }
    else none
  | .recount k =>
    if s.pc k = .unparked then
      some { s.goto k .rejoining with runningks := s.runningks + 1 }
    else none
  | .rejoin k =>
    if s.pc k = .rejoining then
      some ((if s.detached k then kthreadAttach s k else s).goto k .running)
    else none
  | .detach k r drained =>
    if s.pc k = .running ∧ k ≠ r ∧ s.parked r = true ∧
        s.detached r = false then
      if drained then kthreadDetach s r else some s
    else none

def registry (κ : Type) [DecidableEq κ] (spinks : BitVec 32) :
    System (State κ) (Act κ) where
  init s := s.ks = [] ∧ s.runningks = 0 ∧
    ∀ k, s.pc k = .start ∧ s.parked k = false ∧ s.detached k = true
  next := step spinks

def FlagsOk (p : Pc) (parked detached : Bool) : Prop :=
  match p with
  | .start => parked = false ∧ detached = true
  | .attached | .running | .deciding | .undoing | .parking =>
    parked = false ∧ detached = false
  | .asleep => parked = true
  | .unparked | .rejoining => parked = false

/-- A kthread that `runningks` counts. -/
def counts : Pc → Nat
  | .running | .deciding | .rejoining => 1
  | _ => 0

def stands : Pc → Nat
  | .running | .deciding | .rejoining | .undoing => 1
  | _ => 0

def Lists (s : State κ) : Prop :=
  s.ks.Nodup ∧ ∀ k, k ∈ s.ks ↔ s.detached k = false

variable [Fintype κ]

structure RegistryInv (spinks : BitVec 32) (s : State κ) : Prop where
  lists : Lists s
  flags : ∀ k, FlagsOk (s.pc k) (s.parked k) (s.detached k)
  count : s.runningks.toNat = ∑ k, counts (s.pc k)
  floor : (∃ k, s.pc k = .parking ∨ s.pc k = .asleep) →
    spinks.toNat ≤ ∑ k, stands (s.pc k)

section Steps

variable {spinks : BitVec 32} {s t : State κ} {k : κ} {p : Pc}

structure Moves (s t : State κ) (k : κ) (p : Pc) : Prop where
  pc : t.pc = update s.pc k p
  others : ∀ j, j ≠ k →
    t.parked j = s.parked j ∧ t.detached j = s.detached j

omit [Fintype κ] in
theorem moves_goto (s : State κ) (k : κ) (p : Pc) : Moves s (s.goto k p) k p :=
  ⟨rfl, fun _ _ => ⟨rfl, rfl⟩⟩

theorem Moves.sum (hm : Moves s t k p) (f : Pc → Nat) :
    ∑ j, f (t.pc j) + f (s.pc k) = ∑ j, f (s.pc j) + f p := by
  rw [hm.pc]
  apply sum_change_one (k := k)
  case hother =>
    intro j hj
    rw [update_of_ne hj]
  case hk => rw [update_self, Nat.add_comm]

/-- A kthread moves: it keeps the floor if it does not give up its stand, or
if enough others are left. -/
theorem RegistryInv.moves (h : RegistryInv spinks s) (hm : Moves s t k p)
    (hlists : Lists t) (hflags : FlagsOk p (t.parked k) (t.detached k))
    (hcount : t.runningks.toNat + counts (s.pc k) =
      s.runningks.toNat + counts p)
    (hfloor : spinks.toNat ≤ ∑ j, stands (t.pc j) ∨
      stands (s.pc k) ≤ stands p ∧ (p = .parking ∨ p = .asleep →
        s.pc k = .parking ∨ s.pc k = .asleep)) : RegistryInv spinks t := by
  constructor
  case lists => exact hlists
  case flags =>
    intro j
    rw [hm.pc]
    rcases eq_or_ne j k with rfl | hj
    · rwa [update_self]
    · rw [update_of_ne hj, (hm.others j hj).1, (hm.others j hj).2]
      exact h.flags j
  case count =>
    have hsum := hm.sum counts
    have hold := h.count
    omega
  case floor =>
    rintro ⟨j, hj⟩
    rcases hfloor with henough | ⟨hstands, hgone⟩
    · exact henough
    · have hsum := hm.sum stands
      have hold : spinks.toNat ≤ ∑ j, stands (s.pc j) := by
        apply h.floor
        rw [hm.pc] at hj
        rcases eq_or_ne j k with rfl | hne
        · rw [update_self] at hj
          exact ⟨j, hgone hj⟩
        · rw [update_of_ne hne] at hj
          exact ⟨j, hj⟩
      omega

omit [DecidableEq κ] in
theorem sum_counts_le (s : State κ) :
    ∑ j, counts (s.pc j) ≤ Fintype.card κ := by
  have hone : ∀ j ∈ Finset.univ, counts (s.pc j) ≤ 1 := by
    intro j _
    cases s.pc j <;> decide
  simpa using Finset.sum_le_card_nsmul Finset.univ _ 1 hone

omit [DecidableEq κ] in
theorem sum_counts_le_stands (s : State κ) :
    ∑ j, counts (s.pc j) ≤ ∑ j, stands (s.pc j) := by
  apply Finset.sum_le_sum
  intro j _
  cases s.pc j <;> decide

theorem RegistryInv.increment (h : RegistryInv spinks s)
    (hcard : Fintype.card κ < 2 ^ 32) (hk : counts (s.pc k) = 0) :
    (s.runningks + 1).toNat = s.runningks.toNat + 1 := by
  have hsum := (moves_goto s k .running).sum counts
  have hle := sum_counts_le (s.goto k .running)
  have hold := h.count
  have hone : counts .running = 1 := rfl
  rw [BitVec.toNat_add]
  change (s.runningks.toNat + 1) % 2 ^ 32 = _
  omega

omit [DecidableEq κ] in
theorem RegistryInv.decrement (h : RegistryInv spinks s)
    (hk : counts (s.pc k) = 1) :
    (s.runningks - 1).toNat + 1 = s.runningks.toNat := by
  have hle : counts (s.pc k) ≤ ∑ j, counts (s.pc j) :=
    Finset.single_le_sum (f := fun j => counts (s.pc j))
      (fun _ _ => Nat.zero_le _) (Finset.mem_univ k)
  have hold := h.count
  rw [BitVec.toNat_sub]
  change (2 ^ 32 - 1 + s.runningks.toNat) % 2 ^ 32 + 1 = _
  have hlt := s.runningks.isLt
  omega

omit [Fintype κ] in
theorem lists_attach (h : Lists s) (hk : s.detached k = true) :
    Lists (kthreadAttach s k) := by
  have hnot : k ∉ s.ks := by
    intro hmem
    rw [h.2 k, hk] at hmem
    cases hmem
  constructor
  · apply List.Nodup.append h.1 (List.nodup_singleton k)
    intro j hj hjk
    rw [List.mem_singleton.mp hjk] at hj
    exact hnot hj
  · intro j
    simp only [kthreadAttach, List.mem_append, List.mem_singleton, h.2 j]
    rcases eq_or_ne j k with rfl | hj
    · simp
    · simp [hj]

omit [Fintype κ] in
theorem kthreadDetach_lists {r : κ} (h : Lists s) (hr : s.detached r = false) :
    ∃ t, kthreadDetach s r = some t ∧ Lists t ∧ t.pc = s.pc ∧
      t.parked = s.parked ∧ t.runningks = s.runningks ∧
      t.detached = update s.detached r true := by
  obtain ⟨i, hi, hget⟩ := idxOf?_of_mem ((h.2 r).mpr hr)
  have hperm := swapRemove_perm hget
  have hnodup := hperm.nodup_iff.mpr h.1
  rw [List.nodup_cons] at hnodup
  have hfound : kthreadDetach s r = some
      { s with
        detached := update s.detached r true
        ks := swapRemove s.ks i } := by
    rw [kthreadDetach, hi]
  refine ⟨_, hfound, ⟨hnodup.2, ?_⟩, rfl, rfl, rfl, rfl⟩
  intro j
  rcases eq_or_ne j r with rfl | hj
  · simp [hnodup.1]
  · have hmem := hperm.mem_iff (a := j)
    simp only [List.mem_cons, hj, false_or] at hmem
    simp [hj, hmem, h.2 j]

section

variable (h : RegistryInv spinks s)
include h

theorem RegistryInv.detach {r : κ} (hparked : s.parked r = true)
    (hr : s.detached r = false) (ht : kthreadDetach s r = some t) :
    RegistryInv spinks t := by
  obtain ⟨t', ht', hlists, hpc, hp, hrun, hdet⟩ :=
    kthreadDetach_lists h.lists hr
  obtain rfl : t' = t := Option.some.inj (ht'.symm.trans ht)
  constructor
  case lists => exact hlists
  case flags =>
    intro j
    have hold := h.flags j
    rw [hpc, hp, hdet]
    rcases eq_or_ne j r with rfl | hj
    · -- a parked kthread sleeps, where both states of the flag are allowed
      rw [hparked, hr] at hold
      rw [hparked]
      cases hj : s.pc j <;> rw [hj] at hold <;> simp [FlagsOk] at hold ⊢
    · rwa [update_of_ne hj]
  case count => rw [hrun, hpc, h.count]
  case floor =>
    rw [hpc]
    exact h.floor

theorem RegistryInv.raise (hcard : Fintype.card κ < 2 ^ 32)
    (hk : counts (s.pc k) = 0) (hp : counts p = 1)
    (hflags : FlagsOk p (s.parked k) (s.detached k)) :
    RegistryInv spinks
      { s.goto k p with runningks := s.runningks + 1 } := by
  apply h.moves (k := k) (p := p)
  case hm => exact ⟨rfl, fun _ _ => ⟨rfl, rfl⟩⟩
  case hlists => exact h.lists
  case hflags => exact hflags
  case hcount =>
    change (s.runningks + 1).toNat + _ = _
    rw [h.increment hcard hk, hk, hp]
  case hfloor =>
    right
    constructor
    · cases s.pc k <;> cases p <;> simp_all [counts, stands]
    · rintro (rfl | rfl) <;> simp [counts] at hp

/-- A kthread goes past the test, if the decrement leaves enough others. -/
theorem RegistryInv.lower (hpc : s.pc k = .deciding) :
    RegistryInv spinks
      { s.goto k (if s.runningks - 1 < spinks then .undoing else .parking) with
        runningks := s.runningks - 1 } := by
  have hflags := h.flags k
  rw [hpc] at hflags
  have hsub := h.decrement (k := k) (by rw [hpc]; rfl)
  have hcount : (s.runningks - 1).toNat + counts (s.pc k) =
      s.runningks.toNat + 0 := by
    rw [hpc]
    exact hsub
  split
  · apply h.moves (k := k) (p := .undoing)
    case hm => exact ⟨rfl, fun _ _ => ⟨rfl, rfl⟩⟩
    case hlists => exact h.lists
    case hflags => exact hflags
    case hcount => exact hcount
    case hfloor => exact .inr ⟨by rw [hpc]; decide, by simp⟩
  · rename_i henough
    apply h.moves (k := k) (p := .parking)
    case hm => exact ⟨rfl, fun _ _ => ⟨rfl, rfl⟩⟩
    case hlists => exact h.lists
    case hflags => exact hflags
    case hcount => exact hcount
    case hfloor =>
      left
      have hleft : spinks.toNat ≤ (s.runningks - 1).toNat := by
        rw [BitVec.lt_def] at henough
        omega
      have hsum := (moves_goto s k .parking).sum counts
      have hle := sum_counts_le_stands (s.goto k .parking)
      have hold := h.count
      rw [hpc] at hsum
      change ∑ j, counts ((s.goto k .parking).pc j) + 1 = _ + 0 at hsum
      change spinks.toNat ≤ ∑ j, stands ((s.goto k .parking).pc j)
      omega

theorem RegistryInv.attaches (hdet : s.detached k = true)
    (hflags : FlagsOk p (s.parked k) false) (hcounts : counts (s.pc k) = counts p)
    (hstands : stands (s.pc k) ≤ stands p) (hp : p ≠ .parking ∧ p ≠ .asleep) :
    RegistryInv spinks ((kthreadAttach s k).goto k p) := by
  apply h.moves (k := k) (p := p)
  case hm =>
    refine ⟨rfl, fun j hj => ⟨rfl, ?_⟩⟩
    exact update_of_ne hj ..
  case hlists => exact lists_attach h.lists hdet
  case hflags =>
    change FlagsOk p (s.parked k) (update s.detached k false k)
    rwa [update_self]
  case hcount =>
    rw [hcounts]
    rfl
  case hfloor => exact .inr ⟨hstands, fun hsleep => absurd hsleep (by tauto)⟩

theorem RegistryInv.stores {parked : Bool}
    (hflags : FlagsOk p parked (s.detached k))
    (hcounts : counts (s.pc k) = counts p)
    (hstands : stands (s.pc k) ≤ stands p)
    (hp : p = .parking ∨ p = .asleep → s.pc k = .parking) :
    RegistryInv spinks { s.goto k p with
      parked := update s.parked k parked } := by
  apply h.moves (k := k) (p := p)
  case hm =>
    refine ⟨rfl, fun j hj => ⟨?_, rfl⟩⟩
    exact update_of_ne hj ..
  case hlists => exact h.lists
  case hflags =>
    change FlagsOk p (update s.parked k parked k) (s.detached k)
    rwa [update_self]
  case hcount =>
    rw [hcounts]
    rfl
  case hfloor => exact .inr ⟨hstands, fun hsleep => .inl (hp hsleep)⟩

end

theorem registryInv_step (hcard : Fintype.card κ < 2 ^ 32)
    (h : RegistryInv spinks s) {a : Act κ} (ht : step spinks s a = some t) :
    RegistryInv spinks t := by
  cases a with
  | attach k =>
    obtain ⟨hpc, rfl⟩ := guarded ht
    have hflags := h.flags k
    rw [hpc] at hflags
    apply h.attaches hflags.2 (p := .attached)
    case hflags => exact ⟨hflags.1, rfl⟩
    case hcounts => rw [hpc]; rfl
    case hstands => rw [hpc]; decide
    case hp => decide
  | count k | undo k | recount k =>
    obtain ⟨hpc, rfl⟩ := guarded ht
    have hflags := h.flags k
    rw [hpc] at hflags
    exact h.raise hcard (by rw [hpc]; rfl) rfl hflags
  | read k =>
    obtain ⟨hpc, rfl⟩ := guarded ht
    have hflags := h.flags k
    rw [hpc] at hflags
    split
    · exact h
    · apply h.moves (moves_goto s k .deciding) h.lists hflags
      · rw [hpc]
        rfl
      · exact .inr ⟨by rw [hpc]; decide, by simp⟩
  | decrement k =>
    obtain ⟨hpc, rfl⟩ := guarded ht
    exact h.lower hpc
  | park k =>
    obtain ⟨hpc, rfl⟩ := guarded ht
    apply h.stores
    case hflags => exact rfl
    case hcounts => rw [hpc]; rfl
    case hstands => rw [hpc]; decide
    case hp => exact fun _ => hpc
  | unpark k =>
    obtain ⟨hpc, rfl⟩ := guarded ht
    apply h.stores
    case hflags => exact rfl
    case hcounts => rw [hpc]; rfl
    case hstands => rw [hpc]; decide
    case hp => simp
  | rejoin k =>
    obtain ⟨hpc, rfl⟩ := guarded ht
    have hflags : s.parked k = false := by
      have := h.flags k
      rwa [hpc] at this
    split
    · rename_i hdet
      apply h.attaches hdet (p := .running)
      case hflags => exact ⟨hflags, rfl⟩
      case hcounts => rw [hpc]; rfl
      case hstands => rw [hpc]; decide
      case hp => decide
    · rename_i hdet
      apply h.moves (moves_goto s k .running) h.lists
      case hflags => exact ⟨hflags, Bool.eq_false_of_not_eq_true hdet⟩
      case hcount =>
        rw [hpc]
        rfl
      case hfloor => exact .inr ⟨by rw [hpc]; decide, by simp⟩
  | detach k r drained =>
    obtain ⟨⟨-, -, hparked, hr⟩, ht⟩ : (s.pc k = .running ∧ k ≠ r ∧
        s.parked r = true ∧ s.detached r = false) ∧
        (if drained then kthreadDetach s r else some s) = some t := by
      rw [step] at ht
      exact Option.ite_none_right_eq_some.mp ht
    cases drained with
    | true => exact h.detach hparked hr ht
    | false =>
      obtain rfl : s = t := Option.some.inj ht
      exact h

theorem registryInv_init (hs : (registry κ spinks).init s) :
    RegistryInv spinks s := by
  obtain ⟨hks, hrun, hall⟩ := hs
  constructor
  case lists =>
    refine ⟨by rw [hks]; exact List.nodup_nil, fun k => ?_⟩
    rw [hks, (hall k).2.2]
    simp
  case flags =>
    intro k
    obtain ⟨hpc, hparked, hdet⟩ := hall k
    rw [hpc]
    exact ⟨hparked, hdet⟩
  case count =>
    rw [hrun]
    symm
    apply Finset.sum_eq_zero
    intro k _
    rw [(hall k).1]
    rfl
  case floor =>
    rintro ⟨k, hk⟩
    rw [(hall k).1] at hk
    simp at hk

omit [DecidableEq κ] in
theorem RegistryInv.asleep (h : RegistryInv spinks s) (hk : s.parked k = true) :
    s.pc k = .asleep := by
  have hflags := h.flags k
  cases hpc : s.pc k <;> rw [hpc] at hflags <;> simp_all [FlagsOk]

def unparkedKs (s : State κ) : Finset κ :=
  Finset.univ.filter fun k => s.pc k ≠ .start ∧ s.parked k = false

omit [DecidableEq κ] in
theorem RegistryInv.stands_le (h : RegistryInv spinks s) :
    ∑ k, stands (s.pc k) ≤ (unparkedKs s).card := by
  rw [unparkedKs, Finset.card_filter]
  apply Finset.sum_le_sum
  intro k _
  have hflags := h.flags k
  cases hpc : s.pc k <;> rw [hpc] at hflags <;>
    simp_all [stands, FlagsOk]

end Steps

/-- In every interleaving the registry lists each attached kthread once and no
other, detaching finds the kthread it looks for, and as long as a kthread is
parked at least `spinks` others are not. -/
theorem kthread_registry {spinks maxks : BitVec 32}
    (hcard : Fintype.card κ ≤ maxks.toNat) {s : State κ}
    (hs : (registry κ spinks).Reach anyStep s) :
    s.ks.Nodup ∧ (∀ k, k ∈ s.ks ↔ s.detached k = false) ∧
      s.ks.length ≤ maxks.toNat ∧
      (∀ r, s.parked r = true → s.detached r = false →
        ∃ t, kthreadDetach s r = some t) ∧
      ((∃ k, s.parked k = true) → spinks.toNat ≤ (unparkedKs s).card) ∧
      ∀ k t, (registry κ spinks).next s (.park k) = some t →
        spinks.toNat ≤ (unparkedKs t).card := by
  have hlt : Fintype.card κ < 2 ^ 32 := Nat.lt_of_le_of_lt hcard maxks.isLt
  have hreach {s : State κ} (hs : (registry κ spinks).Reach anyStep s) :
      RegistryInv spinks s :=
    hs.invariant (fun _ => registryInv_init)
      fun _ _ _ hinv _ hnext => registryInv_step hlt hinv hnext
  have hfloor {s : State κ} (hs : (registry κ spinks).Reach anyStep s)
      (hparked : ∃ k, s.parked k = true) :
      spinks.toNat ≤ (unparkedKs s).card := by
    obtain ⟨k, hk⟩ := hparked
    have h := hreach hs
    exact (h.floor ⟨k, .inr (h.asleep hk)⟩).trans h.stands_le
  have h := hreach hs
  refine ⟨h.lists.1, h.lists.2, ?_, ?_, hfloor hs, ?_⟩
  · exact (List.Nodup.length_le_card h.lists.1).trans hcard
  · intro r _ hr
    obtain ⟨t, ht, _⟩ := kthreadDetach_lists h.lists hr
    exact ⟨t, ht⟩
  · intro k t ht
    apply hfloor (.step hs trivial ht)
    obtain ⟨-, rfl⟩ := guarded ht
    exact ⟨k, update_self ..⟩

def registryBoot : State (Fin 2) where
  pc _ := .start
  parked _ := false
  detached _ := true
  ks := []
  runningks := 0

theorem registryBoot_init : (registry (Fin 2) 1).init registryBoot :=
  ⟨rfl, rfl, fun _ => ⟨rfl, rfl, rfl⟩⟩

/-- Both kthreads attach and try to park at the same time, where one has to
stay: the second one takes its decrement back, and detaches the first. -/
def contendedRun : List (Act (Fin 2)) :=
  [.attach 0, .attach 1, .count 1, .count 0, .read 0, .read 1, .decrement 0,
    .decrement 1, .park 0, .undo 1, .detach 1 0 true]

theorem contendedRun_isSome :
    ((registry (Fin 2) 1).exec registryBoot contendedRun).isSome := by
  with_unfolding_all decide

theorem kthread_registry_contended :
    let s := ((registry (Fin 2) 1).exec registryBoot contendedRun).get
      contendedRun_isSome
    (registry (Fin 2) 1).Reach anyStep s ∧ s.parked 0 = true ∧ s.ks = [1] ∧
      (1#32).toNat ≤ (unparkedKs s).card := by
  have hs : (registry (Fin 2) 1).Reach anyStep
      (((registry (Fin 2) 1).exec registryBoot contendedRun).get
        contendedRun_isSome) :=
    System.Reach.exec (.init registryBoot_init) contendedRun
      (Option.some_get contendedRun_isSome).symm
  have hparked : (((registry (Fin 2) 1).exec registryBoot contendedRun).get
      contendedRun_isSome).parked 0 = true := by
    with_unfolding_all decide
  have hcard : Fintype.card (Fin 2) ≤ (2#32).toNat := by decide
  refine ⟨hs, hparked, by with_unfolding_all decide, ?_⟩
  exact (kthread_registry hcard hs).2.2.2.2.1 ⟨0, hparked⟩

end Libut.Runtime.Registry
