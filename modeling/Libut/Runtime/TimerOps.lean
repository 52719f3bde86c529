import Libut.Runtime.TimerHeap

/-!
The timer operations keep the heaps well formed. Each operation is cut into
the store that adds or removes a slot, which breaks the order at one place,
and the sifting that repairs it there.
-/

namespace Libut.Runtime

open Function Machine

variable {κ ε : Type} [DecidableEq κ] [DecidableEq ε]

/-- Timers `0..timern` of kthread `k` form a min-heap on the deadline. -/
def HeapOrdered (s : TimerState κ ε) (k : κ) : Prop :=
  ∀ i, 0 < i → i < s.timern k →
    (s.timers k ((i - 1) / timerArity)).deadlineUs ≤
      (s.timers k i).deadlineUs

/-- The loop of `is_valid_heap`, from slot `i` down. -/
def isValidHeapFrom (heap : Nat → TimerIdx ε) : Nat → Bool
  | 0 | 1 => true
  | i + 2 =>
    let p := (i + 1) / timerArity
    if (heap p).deadlineUs > (heap (i + 2)).deadlineUs then false
    else isValidHeapFrom heap (i + 1)

/-- `is_valid_heap`. For `n = 0` the loop starts at `-1`, which ends it as 0
does. -/
def isValidHeap (heap : Nat → TimerIdx ε) (n : Nat) : Bool :=
  isValidHeapFrom heap (n - 1)

/-- `assert_timer_heap_is_valid`; `false` is a failed assertion. -/
def assertTimerHeapIsValid (s : TimerState κ ε) (k : κ) : Bool :=
  isValidHeap (s.timers k) (s.timern k)

structure TimerInv (s : TimerState κ ε) : Prop where
  linked : Linked s
  ordered : ∀ k, HeapOrdered s k
  armed : ∀ e, Pending s e → (s.entries e).armed = true
  bounded : ∀ k, s.timern k < runtimeMaxTimers

omit [DecidableEq ε] [DecidableEq κ] in
theorem HeapOrdered.congr {s t : TimerState κ ε} {k : κ} (h : HeapOrdered s k)
    (hn : t.timern k ≤ s.timern k)
    (hslot : ∀ i < t.timern k, t.timers k i = s.timers k i) :
    HeapOrdered t k := by
  intro i hi hin
  have hp := SwapHeap.parent_lt (d := timerArity) hi
  rw [SwapHeap.parent] at hp
  rw [hslot i hin, hslot _ (by omega)]
  exact h i hi (by omega)

omit [DecidableEq ε] [DecidableEq κ] in
theorem HeapOrdered.root_le {s : TimerState κ ε} {k : κ} (h : HeapOrdered s k)
    {i : Nat} (hi : i < s.timern k) :
    (s.timers k 0).deadlineUs ≤ (s.timers k i).deadlineUs := by
  induction i using Nat.strong_induction_on with
  | _ i ih =>
    rcases Nat.eq_zero_or_pos i with rfl | hpos
    · exact Nat.le_refl _
    · have hparent := SwapHeap.parent_lt (d := timerArity) hpos
      rw [SwapHeap.parent] at hparent
      exact (ih _ hparent (by omega)).trans (h i hpos hi)

section Check

omit [DecidableEq κ] [DecidableEq ε]

/-- The timer in slot `i` is not due before the one in the parent slot. -/
def AfterParent (heap : Nat → TimerIdx ε) (i : Nat) : Prop :=
  (heap ((i - 1) / timerArity)).deadlineUs ≤ (heap i).deadlineUs

instance (heap : Nat → TimerIdx ε) (i : Nat) : Decidable (AfterParent heap i) :=
  inferInstanceAs (Decidable (_ ≤ _))

/-- What `is_valid_heap` is to test. -/
def HeapValid (heap : Nat → TimerIdx ε) (n : Nat) : Prop :=
  ∀ i, 1 ≤ i → i < n → AfterParent heap i

def OnlyFirstPairWrong (heap : Nat → TimerIdx ε) (n : Nat) : Prop :=
  1 < n ∧ (heap 1).deadlineUs < (heap 0).deadlineUs ∧
    ∀ i, 2 ≤ i → i < n → AfterParent heap i

theorem isValidHeapFrom_iff (heap : Nat → TimerIdx ε) (i : Nat) :
    isValidHeapFrom heap i = true ↔
      ∀ j, 2 ≤ j → j ≤ i → AfterParent heap j := by
  fun_induction isValidHeapFrom heap i with
  | case1 | case2 => exact iff_of_true rfl fun j hj hle => by omega
  | case3 i p hgt =>
    apply iff_of_false Bool.false_ne_true
    intro hall
    exact absurd (hall (i + 2) (by omega) (Nat.le_refl _)) (Nat.not_le.mpr hgt)
  | case4 i p hle ih =>
    rw [ih]
    constructor
    · intro hall j hj hji
      rcases Nat.lt_or_ge j (i + 2) with hlt | hge
      · exact hall j hj (by omega)
      · obtain rfl : j = i + 2 := by omega
        exact Nat.not_lt.mp hle
    · exact fun hall j hj hji => hall j hj (by omega)

/-- The loop ends before slot 1: `is_valid_heap` compares every slot from 2
on with its parent. -/
theorem isValidHeap_iff (heap : Nat → TimerIdx ε) (n : Nat) :
    isValidHeap heap n = true ↔ ∀ i, 2 ≤ i → i < n → AfterParent heap i := by
  rw [isValidHeap, isValidHeapFrom_iff]
  constructor
  · exact fun hall i hi hin => hall i hi (by omega)
  · exact fun hall i hi hin => hall i hi (by omega)

/-- `is_valid_heap` is right about a heap if and only if the first pair is not
its only fault. -/
theorem is_valid_heap_right_iff (heap : Nat → TimerIdx ε) (n : Nat) :
    (isValidHeap heap n = true ↔ HeapValid heap n) ↔
      ¬ OnlyFirstPairWrong heap n := by
  rw [isValidHeap_iff]
  constructor
  · rintro hright ⟨hn, hwrong, hrest⟩
    have hfirst := hright.mp hrest 1 (Nat.le_refl 1) hn
    exact absurd hfirst (Nat.not_le.mpr hwrong)
  · intro hpair
    constructor
    · intro hrest i hi hin
      rcases Nat.lt_or_ge 1 i with hlt | hge
      · exact hrest i hlt hin
      · obtain rfl : i = 1 := by omega
        by_contra hwrong
        exact hpair ⟨hin, Nat.not_le.mp hwrong, hrest⟩
    · exact fun hvalid i hi hin => hvalid i (by omega) hin

def swappedPair (i : Nat) : TimerIdx Unit := ⟨1 - i, ()⟩

/-- Two timers in the wrong order pass as a heap. -/
theorem swapped_pair_passes :
    isValidHeap swappedPair 2 = true ∧ ¬ HeapValid swappedPair 2 :=
  ⟨rfl, fun hvalid => absurd (hvalid 1 (by decide) (by decide)) (by decide)⟩

theorem HeapOrdered.assert_passes {s : TimerState κ ε} {k : κ}
    (h : HeapOrdered s k) : assertTimerHeapIsValid s k = true :=
  (isValidHeap_iff _ _).mpr fun i hi hin => h i (by omega) hin

end Check

omit [DecidableEq κ] [DecidableEq ε] in
theorem TimerInv.of_fired {s : TimerState κ ε} {fired : List ε}
    (h : TimerInv s) : TimerInv { s with fired := fired } :=
  { h with }

/-! Writing the flag of an entry touches no heap. -/

section SetArmed

variable (s : TimerState κ ε) (e : ε) (b : Bool)

omit [DecidableEq κ]

theorem setArmed_entries (e' : ε) :
    (s.setArmed e b).entries e' =
      { s.entries e' with
        armed := if e' = e then b else (s.entries e').armed } := by
  simp only [TimerState.setArmed, TimerState.setEntry, update_apply]
  split_ifs with h
  · rw [h]
  · rfl

theorem linked_setArmed : Linked (s.setArmed e b) ↔ Linked s := by
  simp only [Linked, LinkedAt, setArmed_entries]
  exact Iff.rfl

end SetArmed

/-- Append `x` to the heap of `k` and point its entry at the new slot: what
`timer_start_locked` and a pass of `timer_merge` do before any sifting. -/
def pushSlot (s : TimerState κ ε) (k : κ) (x : TimerIdx ε) :
    TimerState κ ε :=
  ((s.setSlot k (s.timern k) x).setEntry x.e
    { s.entries x.e with idx := s.timern k, localk := some k }).setTimern k
      (s.timern k + 1)

section Push

variable (s : TimerState κ ε) (k : κ) (x : TimerIdx ε)

@[simp]
theorem pushSlot_timern :
    (pushSlot s k x).timern = update s.timern k (s.timern k + 1) :=
  rfl

@[simp]
theorem pushSlot_timers :
    (pushSlot s k x).timers =
      update s.timers k
        (update (s.timers k) (s.timern k) x) :=
  rfl

@[simp]
theorem pushSlot_entries :
    (pushSlot s k x).entries =
      update s.entries x.e
        { s.entries x.e with idx := s.timern k, localk := some k } :=
  rfl

theorem pushSlot_armed (e : ε) :
    ((pushSlot s k x).entries e).armed = (s.entries e).armed := by
  rcases eq_or_ne e x.e with rfl | he
  · simp
  · simp [he]

theorem pushSlot_linkedAt_new : LinkedAt (pushSlot s k x) k (s.timern k) := by
  simp [LinkedAt]

variable {s k x}

theorem LinkedAt.pushSlot {l : κ} {i : Nat} (h : LinkedAt s l i)
    (hne : (s.timers l i).e ≠ x.e) (hslot : l = k → i ≠ s.timern k) :
    LinkedAt (pushSlot s k x) l i := by
  have hsame : (Runtime.pushSlot s k x).timers l i = s.timers l i := by
    rcases eq_or_ne l k with rfl | hl
    · simp [hslot rfl]
    · simp [hl]
  rw [LinkedAt, hsame, pushSlot_entries, update_of_ne hne]
  exact h

theorem pushSlot_heapContents :
    heapContents (pushSlot s k x) k = heapContents s k + {x} := by
  simp only [heapContents, pushSlot_timern, update_self,
    pushSlot_timers, Multiset.range_succ, Multiset.map_cons]
  rw [add_comm, Multiset.singleton_add]
  congr 1
  refine Multiset.map_congr rfl fun i hi => ?_
  rw [Multiset.mem_range] at hi
  rw [update_of_ne hi.ne]

theorem pushSlot_heapContents_of_ne {l : κ} (hl : l ≠ k) :
    heapContents (pushSlot s k x) l = heapContents s l := by
  simp [heapContents, hl]

theorem pushSlot_lt_cases {l : κ} {i : Nat}
    (hi : i < (pushSlot s k x).timern l) :
    l = k ∧ i = s.timern k ∨
      i < s.timern l ∧ (l = k → i ≠ s.timern k) := by
  rw [pushSlot_timern] at hi
  rcases eq_or_ne l k with rfl | hl
  · rw [update_self] at hi
    rcases Nat.lt_succ_iff_lt_or_eq.mp hi with hlt | heq
    · exact Or.inr ⟨hlt, fun _ => hlt.ne⟩
    · exact Or.inl ⟨rfl, heq⟩
  · rw [update_of_ne hl] at hi
    exact Or.inr ⟨hi, fun h => absurd h hl⟩

theorem Linked.pushSlot (h : Linked s) (hnot : ¬ Pending s x.e) :
    Linked (pushSlot s k x) := by
  intro l i hi
  rcases pushSlot_lt_cases hi with ⟨rfl, rfl⟩ | ⟨hi', hslot⟩
  · exact pushSlot_linkedAt_new s l x
  · exact (h l i hi').pushSlot (fun he => hnot ⟨l, i, hi', he⟩) hslot

theorem HeapOrdered.pushSlot (h : HeapOrdered s k) :
    (timerHeap k).Ordered timerArity (s.timern k) (pushSlot s k x) := by
  intro c hc hcn
  have hp := SwapHeap.parent_lt (d := timerArity) hc
  change ((Runtime.pushSlot s k x).timers k _).deadlineUs ≤
    ((Runtime.pushSlot s k x).timers k _).deadlineUs
  rw [pushSlot_timers, update_self, update_of_ne hcn.ne,
    update_of_ne (hp.trans hcn).ne]
  exact h c hc hcn

end Push

/-- Shorten the heap of `k` to `last` slots and move the timer of slot `last`
to slot `i`: what `timer_cancel` and `timer_softirq` do before any sifting. -/
def fillSlot (s : TimerState κ ε) (k : κ) (i last : Nat) : TimerState κ ε :=
  ((s.setTimern k last).setSlot k i (s.timers k last)).setIdx
    (s.timers k last).e i

section Fill

variable {s : TimerState κ ε} {k : κ} {i last : Nat}

@[simp]
theorem fillSlot_timern (s : TimerState κ ε) (k : κ) (i last : Nat) :
    (fillSlot s k i last).timern = update s.timern k last :=
  rfl

@[simp]
theorem fillSlot_timers (s : TimerState κ ε) (k : κ) (i last : Nat) :
    (fillSlot s k i last).timers =
      update s.timers k
        (update (s.timers k) i (s.timers k last)) :=
  rfl

theorem fillSlot_entries (s : TimerState κ ε) (k : κ) (i last : Nat) (e : ε) :
    (fillSlot s k i last).entries e =
      { s.entries e with
        idx := if e = (s.timers k last).e then i else (s.entries e).idx } := by
  simp only [fillSlot, TimerState.setIdx, TimerState.setEntry,
    TimerState.setSlot, TimerState.setTimern, update_apply]
  split_ifs with h
  · rw [h]
  · rfl

theorem fillSlot_source (hn : s.timern k = last + 1) (hi : i < last) {l : κ}
    {j : Nat} (hj : j < (fillSlot s k i last).timern l) :
    ∃ j' < s.timern l, (fillSlot s k i last).timers l j = s.timers l j' ∧
      (l = k → j' ≠ i) ∧
      (l = k ∧ j = i ∧ j' = last ∨ ((l = k → j ≠ i ∧ j ≠ last) ∧ j' = j)) := by
  rcases eq_or_ne l k with rfl | hl
  · simp only [fillSlot_timern, update_self] at hj
    rcases eq_or_ne j i with rfl | hji
    · exact ⟨last, by omega, by simp, fun _ => by omega,
        Or.inl ⟨rfl, rfl, rfl⟩⟩
    · exact ⟨j, by omega, by simp [hji], fun _ => hji,
        Or.inr ⟨fun _ => ⟨hji, by omega⟩, rfl⟩⟩
  · simp only [fillSlot_timern, update_of_ne hl] at hj
    exact ⟨j, hj, by simp [hl], fun h => absurd h hl,
      Or.inr ⟨fun h => absurd h hl, rfl⟩⟩

theorem Linked.fillSlot (h : Linked s) (hn : s.timern k = last + 1)
    (hi : i < last) : Linked (fillSlot s k i last) := by
  intro l j hj
  obtain ⟨j', hj', hslot, _, hcase⟩ := fillSlot_source hn hi hj
  obtain ⟨hidx, hown⟩ := h l j' hj'
  rw [LinkedAt, hslot, fillSlot_entries]
  refine ⟨?_, hown⟩
  rcases hcase with ⟨rfl, rfl, rfl⟩ | ⟨hne, rfl⟩
  · simp
  · have hother : (s.timers l j').e ≠ (s.timers k last).e := by
      intro he
      obtain ⟨hl, hlast⟩ := h.slot_unique hj' (hn ▸ Nat.lt_succ_self last) he
      exact (hne hl).2 hlast
    simpa [hother] using hidx

theorem Linked.fillSlot_not_pending (h : Linked s) (hn : s.timern k = last + 1)
    (hi : i < last) :
    ¬ Pending (Runtime.fillSlot s k i last) (s.timers k i).e := by
  rintro ⟨l, j, hj, he⟩
  obtain ⟨j', hj', hslot, hne, _⟩ := fillSlot_source hn hi hj
  rw [hslot] at he
  obtain ⟨hl, hji⟩ := h.slot_unique hj' (by omega : i < s.timern k) he
  exact hne hl hji

theorem fillSlot_heapContents (hn : s.timern k = last + 1) (hi : i < last) :
    heapContents (fillSlot s k i last) k + {s.timers k i} =
      heapContents s k := by
  have hswap := SwapHeap.range_map_swap (s.timers k)
    (by omega : i < last + 1) (Nat.lt_succ_self last)
  rw [heapContents, heapContents, hn, ← hswap, Multiset.range_succ,
    Multiset.map_cons, comp_apply, Equiv.swap_apply_right, add_comm,
    Multiset.singleton_add, fillSlot_timern, update_self,
    fillSlot_timers, update_self]
  congr 1
  refine Multiset.map_congr rfl fun j hj => ?_
  rw [Multiset.mem_range] at hj
  rw [comp_apply]
  rcases eq_or_ne j i with rfl | hji
  · rw [update_self, Equiv.swap_apply_left]
  · rw [update_of_ne hji, Equiv.swap_apply_of_ne_of_ne hji hj.ne]

theorem fillSlot_heapContents_of_ne {l : κ} (hl : l ≠ k) :
    heapContents (fillSlot s k i last) l = heapContents s l := by
  simp [heapContents, hl]

/-- Filling slot `i` leaves the order intact away from `i`. -/
theorem HeapOrdered.fillSlot_holeOk (h : HeapOrdered s k)
    (hn : s.timern k = last + 1) (hi : i < last) :
    (timerHeap k).HoleOk timerArity last i (fillSlot s k i last) := by
  have hord : (timerHeap k).Ordered timerArity (last + 1) s := by
    rw [← hn]
    exact h
  refine (hord.holeOk (by omega : i < last + 1)).congr (by omega) ?_
  intro x hx
  change ((fillSlot s k i last).timers k x).deadlineUs = _
  rw [fillSlot_timers, update_self, update_of_ne hx]
  rfl

theorem fillSlot_siftDown_reordered (hi : i < last) :
    Reordered k (fillSlot s k i last)
      (siftDown k (fillSlot s k i last) i last) := by
  have hslots : (fillSlot s k i last).timern k = last := by
    rw [fillSlot_timern, update_self]
  have hdown := siftDown_reordered (k := k) (i := i)
    (s := fillSlot s k i last) (hslots.symm ▸ hi)
  rwa [hslots] at hdown

theorem fillSlot_sift_reordered (hi : i < last) :
    Reordered k (fillSlot s k i last)
      (siftDown k (siftUp k (fillSlot s k i last) i) i last) := by
  have hslots : (fillSlot s k i last).timern k = last := by
    rw [fillSlot_timern, update_self]
  have hup := siftUp_reordered (k := k) (i := i)
    (s := fillSlot s k i last) (hslots.symm ▸ hi)
  have hdown := siftDown_reordered (k := k) (i := i)
    (s := siftUp k (fillSlot s k i last) i)
    (by rw [hup.timern, hslots]; exact hi)
  rw [hup.timern, hslots] at hdown
  exact hup.trans hdown

end Fill

structure Removal (s t : TimerState κ ε) (k : κ) (x : TimerIdx ε) : Prop where
  inv : TimerInv t
  contents : heapContents t k + {x} = heapContents s k
  others : ∀ l, l ≠ k → heapContents t l = heapContents s l
  gone : ¬ Pending t x.e

omit [DecidableEq κ] [DecidableEq ε] in
theorem Removal.pending_iff {s t : TimerState κ ε} {k : κ} {x : TimerIdx ε}
    (h : Removal s t k x) (e : ε) : Pending t e ↔ Pending s e ∧ e ≠ x.e := by
  have hmem : ∀ l y, y ∈ heapContents s l ↔
      y ∈ heapContents t l ∨ (l = k ∧ y = x) := by
    intro l y
    rcases eq_or_ne l k with rfl | hl
    · rw [← h.contents, Multiset.mem_add, Multiset.mem_singleton]
      simp
    · simp [h.others l hl, hl]
  constructor
  · intro ht
    refine ⟨?_, fun he => h.gone (he ▸ ht)⟩
    obtain ⟨l, y, hy, hye⟩ := Runtime.pending_iff.mp ht
    exact Runtime.pending_iff.mpr ⟨l, y, (hmem l y).mpr (Or.inl hy), hye⟩
  · rintro ⟨hs, hne⟩
    obtain ⟨l, y, hy, hye⟩ := Runtime.pending_iff.mp hs
    rcases (hmem l y).mp hy with hy | ⟨_, rfl⟩
    · exact Runtime.pending_iff.mpr ⟨l, y, hy, hye⟩
    · exact absurd hye.symm hne

/-- A state from which the timer in slot `i` of `k` is about to be removed.
The flag of its entry may have been cleared already. -/
structure Removable (s : TimerState κ ε) (k : κ) (i last : Nat) : Prop where
  linked : Linked s
  ordered : ∀ l, HeapOrdered s l
  bounded : ∀ l, s.timern l < runtimeMaxTimers
  armed : ∀ e, Pending s e → e ≠ (s.timers k i).e →
    (s.entries e).armed = true
  count : s.timern k = last + 1

section Removal

variable {s t : TimerState κ ε} {k : κ} {i last : Nat}

omit [DecidableEq ε] in
theorem Removable.drop (h : Removable s k i last) (hi : i = last) :
    Removal s (s.setTimern k last) k (s.timers k i) := by
  subst hi
  have hle : ∀ l, (s.setTimern k i).timern l ≤ s.timern l := by
    intro l
    rcases eq_or_ne l k with rfl | hl
    · simp [TimerState.setTimern, h.count]
    · simp [TimerState.setTimern, hl]
  have hgone : ¬ Pending (s.setTimern k i) (s.timers k i).e := by
    rintro ⟨l, j, hj, he⟩
    obtain ⟨rfl, rfl⟩ := h.linked.slot_unique (hj.trans_le (hle l))
      (by rw [h.count]; exact Nat.lt_succ_self i) he
    simp [TimerState.setTimern] at hj
  refine ⟨⟨?_, ?_, ?_, ?_⟩, ?_, ?_, hgone⟩
  · exact fun l j hj => h.linked l j (hj.trans_le (hle l))
  · exact fun l => (h.ordered l).congr (hle l) fun _ _ => rfl
  · rintro e ⟨l, j, hj, he⟩
    refine h.armed e ⟨l, j, hj.trans_le (hle l), he⟩ ?_
    rintro rfl
    exact hgone ⟨l, j, hj, he⟩
  · exact fun l => (hle l).trans_lt (h.bounded l)
  · rw [heapContents, heapContents, h.count, Multiset.range_succ,
      Multiset.map_cons, add_comm, Multiset.singleton_add]
    simp [TimerState.setTimern]
  · intro l hl
    simp [heapContents, TimerState.setTimern, hl]

theorem Removable.fill (h : Removable s k i last) (hi : i < last)
    (hr : Reordered k (fillSlot s k i last) t) (hk : HeapOrdered t k) :
    Removal s t k (s.timers k i) := by
  have hgone : ¬ Pending t (s.timers k i).e := by
    rw [hr.pending_iff]
    exact h.linked.fillSlot_not_pending h.count hi
  have hcontents : heapContents t k + {s.timers k i} = heapContents s k := by
    rw [hr.contents, fillSlot_heapContents h.count hi]
  have hothers : ∀ l, l ≠ k → heapContents t l = heapContents s l := by
    intro l hl
    rw [hr.heapContents_eq, fillSlot_heapContents_of_ne hl]
  have hcount : ∀ l, t.timern l ≤ s.timern l := by
    intro l
    rw [hr.timern, fillSlot_timern]
    rcases eq_or_ne l k with rfl | hl
    · simp [h.count]
    · simp [hl]
  refine ⟨⟨?_, ?_, ?_, ?_⟩, hcontents, hothers, hgone⟩
  · exact hr.linked (h.linked.fillSlot h.count hi)
  · intro l
    rcases eq_or_ne l k with rfl | hl
    · exact hk
    · refine (h.ordered l).congr (hcount l) fun j _ => ?_
      rw [hr.others l hl, fillSlot_timers, update_of_ne hl]
  · intro e he
    rw [hr.armed, fillSlot_entries]
    obtain ⟨l, y, hy, hye⟩ := pending_iff.mp he
    have hys : y ∈ heapContents s l := by
      rcases eq_or_ne l k with rfl | hl
      · rw [← hcontents]
        exact Multiset.mem_add.mpr (Or.inl hy)
      · rwa [← hothers l hl]
    refine h.armed e (pending_iff.mpr ⟨l, y, hys, hye⟩) ?_
    rintro rfl
    exact hgone he
  · exact fun l => (hcount l).trans_lt (h.bounded l)

end Removal

/-! The three operations on one heap, each reduced to a store and sifting. -/

section Operations

variable {s t : TimerState κ ε} {k : κ} {e : ε}

theorem timerStartLocked_eq_some {deadlineUs : Nat} :
    timerStartLocked s k e deadlineUs = some t ↔
      (s.entries e).armed = false ∧ s.timern k + 1 < runtimeMaxTimers ∧
      t = (siftUp k (pushSlot s k ⟨deadlineUs, e⟩) (s.timern k)).setArmed e
        true := by
  unfold timerStartLocked
  have hcount : (s.setTimern k (s.timern k + 1)).timern k = s.timern k + 1 :=
    update_self ..
  dsimp only
  rw [hcount]
  split_ifs with harmed hmax
  · simp [harmed]
  · simp only [false_iff, not_and]
    omega
  · rw [Bool.not_eq_true] at harmed
    rw [Option.some_inj]
    exact ⟨fun h => ⟨harmed, by omega, h.symm⟩, fun h => h.2.2.symm⟩

theorem timerStartLocked_spec {deadlineUs : Nat} (hinv : TimerInv s)
    (h : timerStartLocked s k e deadlineUs = some t) :
    TimerInv t ∧
      heapContents t k = heapContents s k + {⟨deadlineUs, e⟩} ∧
      (∀ l, l ≠ k → heapContents t l = heapContents s l) ∧
      (∀ e', (t.entries e').armed =
        if e' = e then true else (s.entries e').armed) ∧
      t.fired = s.fired := by
  obtain ⟨harmed, hmax, rfl⟩ := timerStartLocked_eq_some.mp h
  have hnot : ¬ Pending s e := by
    intro hp
    rw [hinv.armed e hp] at harmed
    cases harmed
  have hcount : (pushSlot s k ⟨deadlineUs, e⟩).timern k = s.timern k + 1 :=
    update_self ..
  have hr : Reordered k (pushSlot s k ⟨deadlineUs, e⟩)
      (siftUp k (pushSlot s k ⟨deadlineUs, e⟩) (s.timern k)) :=
    siftUp_reordered (by rw [hcount]; exact Nat.lt_succ_self _)
  have hlinked : Linked (pushSlot s k ⟨deadlineUs, e⟩) :=
    hinv.linked.pushSlot hnot
  have harmed' : ∀ e', (((siftUp k (pushSlot s k ⟨deadlineUs, e⟩)
      (s.timern k)).setArmed e true).entries e').armed =
        if e' = e then true else (s.entries e').armed := by
    intro e'
    rw [setArmed_entries, hr.armed, pushSlot_armed]
  have hcontents := hr.contents.trans pushSlot_heapContents
  have hothers : ∀ l, l ≠ k → heapContents (siftUp k
      (pushSlot s k ⟨deadlineUs, e⟩) (s.timern k)) l = heapContents s l :=
    fun l hl => (hr.heapContents_eq l).trans (pushSlot_heapContents_of_ne hl)
  refine ⟨⟨?_, ?_, ?_, ?_⟩, hcontents, hothers, harmed', hr.fired⟩
  · exact (linked_setArmed _ _ _).mpr (hr.linked hlinked)
  · intro l
    rcases eq_or_ne l k with rfl | hl
    · have hnew := SwapHeap.siftUp_last_ordered
        ((hinv.ordered l).pushSlot (x := ⟨deadlineUs, e⟩))
      rw [← hcount, ← hr.timern] at hnew
      exact hnew
    · refine (hinv.ordered l).congr ?_ fun i _ => ?_
      · change (siftUp k _ _).timern l ≤ _
        rw [hr.timern, pushSlot_timern, update_of_ne hl]
      · change (siftUp k _ _).timers l i = _
        rw [hr.others l hl, pushSlot_timers, update_of_ne hl]
  · intro e' he'
    rw [harmed']
    split_ifs with heq
    · rfl
    · obtain ⟨l, x, hx, rfl⟩ := pending_iff.mp he'
      change x ∈ heapContents (siftUp k _ _) l at hx
      refine hinv.armed _ (pending_iff.mpr ⟨l, x, ?_, rfl⟩)
      rcases eq_or_ne l k with rfl | hl
      · rw [hcontents, Multiset.mem_add, Multiset.mem_singleton] at hx
        rcases hx with hx | rfl
        · exact hx
        · exact absurd rfl heq
      · rwa [hothers l hl] at hx
  · intro l
    change (siftUp k _ _).timern l < _
    rw [hr.timern, pushSlot_timern]
    rcases eq_or_ne l k with rfl | hl
    · rwa [update_self]
    · rw [update_of_ne hl]
      exact hinv.bounded l

/-- What `timer_cancel` leaves when the entry is in slot `i` of `k`. -/
def cancelSlot (s : TimerState κ ε) (k : κ) (i : Nat) : TimerState κ ε :=
  let s := s.setArmed (s.timers k i).e false
  let last := s.timern k - 1
  if i = last then s.setTimern k last
  else siftDown k (siftUp k (fillSlot s k i last) i) i last

theorem timerCancel_pending (hinv : TimerInv s) {i : Nat}
    (hi : i < s.timern k) :
    timerCancel s (s.timers k i).e = some (cancelSlot s k i, true) := by
  obtain ⟨hidx, hown⟩ := hinv.linked k i hi
  have harmed := hinv.armed _ ⟨k, i, hi, rfl⟩
  have hmax : s.timern k < 4096 := hinv.bounded k
  set e := (s.timers k i).e with he
  set u := s.setArmed e false with hu
  have huidx : (u.entries e).idx = i := by
    rw [hu, setArmed_entries]
    exact hidx
  have hlast : (u.timern k + (2 ^ 32 - 1)) % 2 ^ 32 = s.timern k - 1 := by
    change (s.timern k + (2 ^ 32 - 1)) % 2 ^ 32 = _
    omega
  have hcut : (((u.setTimern k (s.timern k - 1))).entries e).idx = i := huidx
  unfold timerCancel cancelSlot
  simp only [hown, harmed, if_true]
  rw [← he, ← hu, hlast, hcut]
  change (if i = s.timern k - 1 then _ else _) =
    some (if i = s.timern k - 1 then _ else _, true)
  split_ifs with hil hbig
  · rfl
  · exact absurd hbig (by simp only [runtimeMaxTimers]; omega)
  · -- `e->idx` is read again for each sift; it is still `i`, since `e` is in
    -- no slot any more
    have hlink : Linked u := (linked_setArmed s e false).mpr hinv.linked
    have hlt : i < s.timern k - 1 := by omega
    have hcount : u.timern k = s.timern k - 1 + 1 := by
      change s.timern k = _
      omega
    have hne : e ≠ (u.timers k (s.timern k - 1)).e := by
      intro heq
      have := (hlink.slot_unique (k := k) (l := k) (i := i)
        (j := s.timern k - 1) hi (by omega) heq).2
      omega
    have hfill : ((fillSlot u k i (s.timern k - 1)).entries e).idx = i := by
      rw [fillSlot_entries, if_neg hne]
      exact huidx
    have hslots : (fillSlot u k i (s.timern k - 1)).timern k =
        s.timern k - 1 := by
      rw [fillSlot_timern, update_self]
    have hr : Reordered k (fillSlot u k i (s.timern k - 1))
        (siftUp k (fillSlot u k i (s.timern k - 1)) i) :=
      siftUp_reordered (hslots.symm ▸ hlt)
    have hout : ((siftUp k (fillSlot u k i (s.timern k - 1)) i).entries
        e).idx = i := by
      rw [hr.outside e, hfill]
      intro x hx hxe
      exact hlink.fillSlot_not_pending hcount hlt
        (pending_iff.mpr ⟨k, x, hx, hxe⟩)
    have hstore : ((u.setTimern k (s.timern k - 1)).setSlot k i
        ((u.setTimern k (s.timern k - 1)).timers k (s.timern k - 1))).setIdx
        (((u.setTimern k (s.timern k - 1)).setSlot k i
          ((u.setTimern k (s.timern k - 1)).timers k
            (s.timern k - 1))).timers k i).e i =
        fillSlot u k i (s.timern k - 1) := by
      simp only [fillSlot, TimerState.setSlot, TimerState.setTimern,
        update_self]
    have hidx' : (((u.setTimern k (s.timern k - 1)).setSlot k i
        ((u.setTimern k (s.timern k - 1)).timers k
          (s.timern k - 1))).entries e).idx = i := huidx
    rw [hidx', hstore, hfill, hout, hr.timern, hslots]
    rfl

theorem cancelSlot_removal (hinv : TimerInv s) {i : Nat} (hi : i < s.timern k) :
    Removal s (cancelSlot s k i) k (s.timers k i) := by
  set e := (s.timers k i).e with he
  have hbase : Removable (s.setArmed e false) k i (s.timern k - 1) := by
    refine ⟨(linked_setArmed s e false).mpr hinv.linked, hinv.ordered,
      hinv.bounded, ?_, ?_⟩
    · intro e' hp hne
      have hne' : e' ≠ e := hne
      rw [setArmed_entries, if_neg hne']
      exact hinv.armed e' hp
    · change s.timern k = _
      omega
  unfold cancelSlot
  change Removal s (if i = s.timern k - 1 then _ else _) k _
  split_ifs with hil
  · have hdrop := hbase.drop hil
    exact { hdrop with }
  · have hlt : i < s.timern k - 1 := by omega
    have hr := fillSlot_sift_reordered (s := s.setArmed e false) (k := k) hlt
    have hord : HeapOrdered (siftDown k (siftUp k (fillSlot
        (s.setArmed e false) k i (s.timern k - 1)) i) i (s.timern k - 1)) k := by
      have h := SwapHeap.sift_hole_ordered (by decide)
        ((hbase.ordered k).fillSlot_holeOk hbase.count hlt) hlt
      intro c hc hcn
      rw [hr.timern, fillSlot_timern, update_self] at hcn
      exact h c hc hcn
    have hfill := hbase.fill hlt hr hord
    exact { hfill with }

theorem cancelSlot_armed {i : Nat} (hi : i < s.timern k) (e' : ε) :
    ((cancelSlot s k i).entries e').armed =
      if e' = (s.timers k i).e then false else (s.entries e').armed := by
  set u := s.setArmed (s.timers k i).e false with hu
  have hflag : (u.entries e').armed =
      if e' = (s.timers k i).e then false else (s.entries e').armed := by
    rw [hu, setArmed_entries]
  rw [← hflag]
  unfold cancelSlot
  change ((if i = s.timern k - 1 then _ else _ : TimerState κ ε).entries
    e').armed = _
  split_ifs with hil
  · rfl
  · have hlt : i < s.timern k - 1 := by omega
    have hr := fillSlot_sift_reordered (s := u) (k := k) hlt
    exact (hr.armed e').trans (by rw [fillSlot_entries])

theorem cancelSlot_fired {i : Nat} (hi : i < s.timern k) :
    (cancelSlot s k i).fired = s.fired := by
  unfold cancelSlot
  change (if i = s.timern k - 1 then _ else _ : TimerState κ ε).fired = _
  split_ifs with hil
  · rfl
  · have hlt : i < s.timern k - 1 := by omega
    exact (fillSlot_sift_reordered hlt).fired

/-- What the loop of `timer_softirq` leaves on the heap after one pass. -/
def popSlot (s : TimerState κ ε) (k : κ) : TimerState κ ε :=
  let last := s.timern k - 1
  if 0 < last then siftDown k (fillSlot s k 0 last) 0 last
  else s.setTimern k last

theorem timerSoftirq_expired {nowUs : Nat} (h : timerExpired s k nowUs) :
    timerSoftirq s k nowUs =
      { popSlot s k with
        fired := (popSlot s k).fired ++ [(s.timers k 0).e] } := by
  unfold timerSoftirq popSlot
  rw [if_pos h]
  have hstore : ((s.setTimern k (s.timern k - 1)).setSlot k 0
      ((s.setTimern k (s.timern k - 1)).timers k (s.timern k - 1))).setIdx
        (((s.setTimern k (s.timern k - 1)).setSlot k 0
          ((s.setTimern k (s.timern k - 1)).timers k
            (s.timern k - 1))).timers k 0).e 0 =
      fillSlot s k 0 (s.timern k - 1) := by
    simp only [fillSlot, TimerState.setSlot, TimerState.setTimern, update_self]
  dsimp only
  rw [hstore]
  rfl

theorem popSlot_removal (hinv : TimerInv s) (hn : 0 < s.timern k) :
    Removal s (popSlot s k) k (s.timers k 0) := by
  have hbase : Removable s k 0 (s.timern k - 1) :=
    ⟨hinv.linked, hinv.ordered, hinv.bounded, fun e hp _ => hinv.armed e hp,
      by omega⟩
  unfold popSlot
  dsimp only
  split_ifs with hlast
  · have hr := fillSlot_siftDown_reordered (s := s) (k := k) hlast
    refine hbase.fill hlast hr ?_
    intro c hc hcn
    rw [hr.timern, fillSlot_timern, update_self] at hcn
    exact SwapHeap.siftDown_root_ordered (by decide)
      ((hinv.ordered k).fillSlot_holeOk hbase.count hlast) c hc hcn
  · have hzero : s.timern k - 1 = 0 := by omega
    exact hbase.drop hzero.symm

theorem popSlot_fired (s : TimerState κ ε) (k : κ) :
    (popSlot s k).fired = s.fired := by
  unfold popSlot
  dsimp only
  split_ifs with hlast
  · exact (fillSlot_siftDown_reordered hlast).fired
  · rfl

theorem popSlot_armed (s : TimerState κ ε) (k : κ) (e' : ε) :
    ((popSlot s k).entries e').armed = (s.entries e').armed := by
  unfold popSlot
  dsimp only
  split_ifs with hlast
  · rw [(fillSlot_siftDown_reordered hlast).armed, fillSlot_entries]
  · rfl

end Operations

end Libut.Runtime
