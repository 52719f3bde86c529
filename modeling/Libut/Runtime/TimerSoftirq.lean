import Libut.Runtime.TimerRuns

/-!
A whole call of `timer_softirq` (`runtime/timer.c`): timers that have expired
are taken off the heap and their handlers run, as long as the budget lasts.
The clock is read before the loop and again after each handler. What handlers
do to the heaps is not part of the model here, so that these are the calls
during which no timer is started, cancelled or merged.
-/

namespace Libut.Runtime

open Machine

variable {κ ε : Type} [DecidableEq κ] [DecidableEq ε]

/-- The loop of `timer_softirq`, entered with `budget` passes left and with
`clock j` in `now_us`. -/
def timerSoftirqLoop (k : κ) (clock : Nat → Nat) :
    (budget j : Nat) → TimerState κ ε → TimerState κ ε
  | 0, _, s => s
  | budget + 1, j, s =>
    if timerExpired s k (clock j) then
      timerSoftirqLoop k clock budget (j + 1) (timerSoftirq s k (clock j))
    else s

/-- `timer_softirq(k, budget)`, where `clock` gives the readings of the clock
in turn. -/
def timerSoftirqCall (s : TimerState κ ε) (k : κ) (budget : BitVec 32)
    (clock : Nat → Nat) : TimerState κ ε :=
  timerSoftirqLoop k clock budget.toNat 0 s

/-- The timers `run` are handled between `s` and `t`, the first of them right
after reading `j` of the clock. -/
structure Handles (s t : TimerState κ ε) (k : κ) (clock : Nat → Nat)
    (budget j : Nat) (run : List (TimerIdx ε)) : Prop where
  fired : t.fired = s.fired ++ run.map TimerIdx.e
  inv : TimerInv t
  contents : heapContents s k = run + heapContents t k
  others : ∀ l, l ≠ k → heapContents t l = heapContents s l
  sorted : run.Pairwise fun x y => x.deadlineUs ≤ y.deadlineUs
  once : (run.map TimerIdx.e).Nodup
  gone : ∀ x ∈ run, ¬ Pending t x.e
  due : ∀ i x, run[i]? = some x → x.deadlineUs ≤ clock (j + i)
  within : run.length ≤ budget
  stops : run.length = budget ∨ t.timern k = 0 ∨
    ∀ x ∈ heapContents t k, clock (j + run.length) < x.deadlineUs

section Loop

variable {s t : TimerState κ ε} {k : κ} {clock : Nat → Nat} {budget j : Nat}
  {run : List (TimerIdx ε)}

section

omit [DecidableEq κ] [DecidableEq ε]

theorem Handles.nil (hinv : TimerInv s) (hstops : 0 = budget ∨ s.timern k = 0 ∨
      ∀ x ∈ heapContents s k, clock j < x.deadlineUs) :
    Handles s s k clock budget j [] where
  fired := (List.append_nil _).symm
  inv := hinv
  contents := (Multiset.zero_add _).symm
  others _ _ := rfl
  sorted := List.Pairwise.nil
  once := List.nodup_nil
  gone _ hx := absurd hx List.not_mem_nil
  due i x hx := by simp at hx
  within := Nat.zero_le budget
  stops := hstops

theorem Handles.pending (h : Handles s t k clock budget j run) {e : ε}
    (hp : Pending t e) : Pending s e := by
  obtain ⟨l, x, hx, hxe⟩ := pending_iff.mp hp
  apply pending_iff.mpr
  refine ⟨l, x, ?_, hxe⟩
  rcases eq_or_ne l k with rfl | hl
  · rw [h.contents]
    exact Multiset.mem_add.mpr (.inr hx)
  · rwa [← h.others l hl]

theorem Handles.mem (h : Handles s t k clock budget j run) {x : TimerIdx ε}
    (hx : x ∈ run) : x ∈ heapContents s k := by
  rw [h.contents]
  exact Multiset.mem_add.mpr (.inl (Multiset.mem_coe.mpr hx))

theorem HeapOrdered.root_le_mem (h : HeapOrdered s k) {x : TimerIdx ε}
    (hx : x ∈ heapContents s k) : (s.timers k 0).deadlineUs ≤ x.deadlineUs := by
  obtain ⟨i, hi, rfl⟩ := mem_heapContents.mp hx
  exact h.root_le hi

theorem Handles.length_of_due (h : Handles s t k clock budget j run)
    (hdue : ∀ x ∈ heapContents s k, ∀ i, x.deadlineUs ≤ clock i)
    (hbudget : s.timern k < budget) : run.length = s.timern k := by
  have hcard := congrArg Multiset.card h.contents
  simp only [Multiset.card_add, Multiset.coe_card] at hcard
  have hs : (heapContents s k).card = s.timern k := by simp [heapContents]
  have ht : (heapContents t k).card = t.timern k := by simp [heapContents]
  have hempty : t.timern k = 0 := by
    rcases h.stops with hspent | hempty | hlate
    · omega
    · exact hempty
    · rw [← ht, Multiset.card_eq_zero]
      apply Multiset.eq_zero_of_forall_notMem
      intro x hx
      have hmem : x ∈ heapContents s k := by
        rw [h.contents]
        exact Multiset.mem_add.mpr (.inr hx)
      exact absurd (hdue x hmem _) (Nat.not_le.mpr (hlate x hx))
  omega

end

theorem Handles.cons (hinv : TimerInv s) (hexp : timerExpired s k (clock j))
    (h : Handles (timerSoftirq s k (clock j)) t k clock budget (j + 1) run) :
    Handles s t k clock (budget + 1) j (s.timers k 0 :: run) := by
  have hrem := popSlot_removal hinv hexp.1
  have hpop := timerSoftirq_expired hexp
  have hfirst : ∀ y ∈ run, y.e ≠ (s.timers k 0).e := by
    intro y hy heq
    have hmem := h.mem hy
    rw [hpop] at hmem
    apply hrem.gone
    rw [← heq]
    exact pending_iff.mpr ⟨k, y, hmem, rfl⟩
  have hcontents : heapContents s k =
      {s.timers k 0} + heapContents (timerSoftirq s k (clock j)) k := by
    rw [hpop, add_comm]
    exact hrem.contents.symm
  constructor
  case fired =>
    have hfired : (popSlot s k).fired = s.fired := popSlot_fired s k
    rw [h.fired, hpop, List.map_cons, hfired, List.append_assoc]
    rfl
  case inv => exact h.inv
  case contents =>
    rw [hcontents, h.contents, ← add_assoc]
    rfl
  case others =>
    intro l hl
    rw [h.others l hl, hpop]
    exact hrem.others l hl
  case sorted =>
    refine List.pairwise_cons.mpr ⟨?_, h.sorted⟩
    intro y hy
    apply (hinv.ordered k).root_le_mem
    rw [hcontents]
    exact Multiset.mem_add.mpr (.inr (h.mem hy))
  case once =>
    rw [List.map_cons, List.nodup_cons]
    refine ⟨?_, h.once⟩
    intro hmem
    obtain ⟨y, hy, heq⟩ := List.mem_map.mp hmem
    exact hfirst y hy heq
  case gone =>
    intro x hx
    rcases List.mem_cons.mp hx with rfl | hrest
    · intro hp
      have hafter := h.pending hp
      rw [hpop] at hafter
      exact hrem.gone hafter
    · exact h.gone x hrest
  case due =>
    intro i x hx
    cases i with
    | zero =>
      obtain rfl : s.timers k 0 = x := by simpa using hx
      exact hexp.2
    | succ i =>
      have hlater := h.due i x (by simpa using hx)
      rwa [Nat.add_right_comm] at hlater
  case within => exact Nat.succ_le_succ h.within
  case stops =>
    have hlength : j + (run.length + 1) = j + 1 + run.length := by omega
    rw [List.length_cons, hlength, Nat.succ_inj]
    exact h.stops

/-- Every call of the loop handles some timers, by induction on the budget. -/
theorem timerSoftirqLoop_handles (hinv : TimerInv s) :
    ∃ run, Handles s (timerSoftirqLoop k clock budget j s) k clock budget j
      run := by
  induction budget generalizing s j with
  | zero => exact ⟨[], .nil hinv (.inl rfl)⟩
  | succ budget ih =>
    rw [timerSoftirqLoop]
    split
    · rename_i hexp
      have hafter : TimerInv (timerSoftirq s k (clock j)) := by
        rw [timerSoftirq_expired hexp]
        exact (popSlot_removal hinv hexp.1).inv.of_fired
      obtain ⟨run, hrun⟩ := ih (j := j + 1) hafter
      exact ⟨s.timers k 0 :: run, hrun.cons hinv hexp⟩
    · rename_i hexp
      refine ⟨[], .nil hinv (.inr ?_)⟩
      rcases Nat.eq_zero_or_pos (s.timern k) with hzero | hpos
      · exact .inl hzero
      · right
        intro x hx
        have hroot := (hinv.ordered k).root_le_mem hx
        have hlate : clock j < (s.timers k 0).deadlineUs :=
          Nat.lt_of_not_le fun hle => hexp ⟨hpos, hle⟩
        omega

end Loop

/-- Expired timers fire in order: for every valid heap, budget and clock. -/
theorem timer_softirq_fires_in_order {s : TimerState κ ε} (hinv : TimerInv s)
    (k : κ) (budget : BitVec 32) (clock : Nat → Nat) :
    ∃ run, Handles s (timerSoftirqCall s k budget clock) k clock budget.toNat 0
      run :=
  timerSoftirqLoop_handles hinv

/-- Both timers of `timerTwoArmed` fire when the clock reads the later deadline,
the earlier one first. -/
theorem timer_softirq_fires_in_order_two_armed :
    TimerInv timerTwoArmed ∧
      ∃ run, run.length = 2 ∧
        Handles timerTwoArmed
          (timerSoftirqCall timerTwoArmed false 3#32 fun _ => 9) false
          (fun _ => 9) 3 0 run := by
  obtain ⟨run, hrun⟩ :=
    timer_softirq_fires_in_order timerTwoArmed_inv false 3#32 fun _ => 9
  have hdue : ∀ x ∈ heapContents timerTwoArmed false, x.deadlineUs ≤ 9 := by
    decide
  exact ⟨timerTwoArmed_inv, run,
    hrun.length_of_due (fun x hx _ => hdue x hx) (by decide), hrun⟩

end Libut.Runtime
