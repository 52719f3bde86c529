import Libut.Runtime.Timer

/-!
The structure of the timer heaps. A slot and the entry it holds point at each
other, so no entry is in two slots; every heap is ordered by deadline; and an
operation changes the pending timers, taken over all kthreads, by exactly the
one it starts, cancels or pops.
-/

namespace Libut.Runtime

open Machine

variable {κ ε : Type}

/-- The entry in slot `i` of kthread `k` points back at the slot. -/
def LinkedAt (s : TimerState κ ε) (k : κ) (i : Nat) : Prop :=
  (s.entries (s.timers k i).e).idx = i ∧
    (s.entries (s.timers k i).e).localk = some k

def Linked (s : TimerState κ ε) : Prop :=
  ∀ k i, i < s.timern k → LinkedAt s k i

def heapContents (s : TimerState κ ε) (k : κ) : Multiset (TimerIdx ε) :=
  (Multiset.range (s.timern k)).map (s.timers k)

def timerContents [Fintype κ] (s : TimerState κ ε) : Multiset (TimerIdx ε) :=
  ∑ k, heapContents s k

def Pending (s : TimerState κ ε) (e : ε) : Prop :=
  ∃ k i, i < s.timern k ∧ (s.timers k i).e = e

variable {s t : TimerState κ ε} {k : κ}

theorem mem_heapContents {x : TimerIdx ε} :
    x ∈ heapContents s k ↔ ∃ i < s.timern k, s.timers k i = x := by
  simp [heapContents]

theorem pending_iff {e : ε} :
    Pending s e ↔ ∃ k, ∃ x ∈ heapContents s k, x.e = e := by
  simp only [Pending, mem_heapContents]
  grind

theorem LinkedAt.slot_unique {l : κ} {i j : Nat} (hi : LinkedAt s k i)
    (hj : LinkedAt s l j) (he : (s.timers k i).e = (s.timers l j).e) :
    k = l ∧ i = j := by
  rw [LinkedAt, he] at hi
  exact ⟨Option.some.inj (hi.2.symm.trans hj.2), hi.1.symm.trans hj.1⟩

theorem Linked.slot_unique (h : Linked s) {l : κ} {i j : Nat}
    (hi : i < s.timern k) (hj : j < s.timern l)
    (he : (s.timers k i).e = (s.timers l j).e) : k = l ∧ i = j :=
  (h k i hi).slot_unique (h l j hj) he

/-- What sifting within the heap of `k` does: the slots of that heap are
permuted and the entries in them follow; nothing else changes. -/
structure Reordered (k : κ) (s t : TimerState κ ε) : Prop where
  timern : t.timern = s.timern
  fired : t.fired = s.fired
  others : ∀ l, l ≠ k → t.timers l = s.timers l
  contents : heapContents t k = heapContents s k
  armed : ∀ e, (t.entries e).armed = (s.entries e).armed
  localk : ∀ e, (t.entries e).localk = (s.entries e).localk
  outside : ∀ e, (∀ x ∈ heapContents s k, x.e ≠ e) →
    (t.entries e).idx = (s.entries e).idx
  linked : Linked s → Linked t

theorem Reordered.refl (k : κ) (s : TimerState κ ε) : Reordered k s s where
  timern := rfl
  fired := rfl
  others _ _ := rfl
  contents := rfl
  armed _ := rfl
  localk _ := rfl
  outside _ _ := rfl
  linked h := h

theorem Reordered.trans {u : TimerState κ ε} (h : Reordered k s t)
    (h' : Reordered k t u) : Reordered k s u where
  timern := h'.timern.trans h.timern
  fired := h'.fired.trans h.fired
  others l hl := (h'.others l hl).trans (h.others l hl)
  contents := h'.contents.trans h.contents
  armed e := (h'.armed e).trans (h.armed e)
  localk e := (h'.localk e).trans (h.localk e)
  outside e he := (h'.outside e (h.contents ▸ he)).trans (h.outside e he)
  linked hl := h'.linked (h.linked hl)

theorem Reordered.heapContents_eq (h : Reordered k s t) (l : κ) :
    heapContents t l = heapContents s l := by
  rcases eq_or_ne l k with rfl | hl
  · exact h.contents
  · rw [heapContents, heapContents, h.timern, h.others l hl]

theorem Reordered.pending_iff (h : Reordered k s t) (e : ε) :
    Pending t e ↔ Pending s e := by
  simp only [Runtime.pending_iff, h.heapContents_eq]

variable [DecidableEq κ] [DecidableEq ε]

section Swap

variable (k : κ) (s : TimerState κ ε) (i j : Nat)

theorem swapSlots_timers_of_ne {l : κ} (hl : l ≠ k) :
    (swapSlots k s i j).timers l = s.timers l := by
  simp [swapSlots, TimerState.setIdx, TimerState.setEntry,
    TimerState.setSlot, hl]

theorem swapSlots_entries (e : ε) :
    (swapSlots k s i j).entries e =
      { s.entries e with
        idx := if e = (s.timers k i).e then j
          else if e = (s.timers k j).e then i else (s.entries e).idx } := by
  simp only [swapSlots, TimerState.setIdx, TimerState.setEntry,
    TimerState.setSlot, Function.update_self, Function.update_apply]
  split_ifs <;> simp_all

end Swap

theorem Linked.swapSlots (h : Linked s) {a b : Nat} (ha : a < s.timern k)
    (hb : b < s.timern k) : Linked (swapSlots k s a b) := by
  intro l x hx
  change x < s.timern l at hx
  by_cases hlk : l = k
  · subst hlk
    have hslot : ∀ y < s.timern l, (s.timers l y).e = (s.timers l a).e → y = a :=
      fun y hy he => (h.slot_unique hy ha he).2
    have hslot' : ∀ y < s.timern l, (s.timers l y).e = (s.timers l b).e → y = b :=
      fun y hy he => (h.slot_unique hy hb he).2
    have hown (y : Nat) (hy : y < s.timern l) := (h l y hy).2
    have hidx := (h l x hx).1
    rw [LinkedAt, swapSlots_entries, swapSlots_timers, Function.comp_apply]
    -- slots `a` and `b` trade their entries, every other slot keeps its own
    rcases eq_or_ne x a with rfl | hxa
    · rw [Equiv.swap_apply_left]
      refine ⟨?_, hown b hb⟩
      by_cases heq : (s.timers l b).e = (s.timers l x).e
      · simpa [heq] using hslot b hb heq
      · simp [heq]
    · rcases eq_or_ne x b with rfl | hxb
      · rw [Equiv.swap_apply_right]
        exact ⟨by simp, hown a ha⟩
      · rw [Equiv.swap_apply_of_ne_of_ne hxa hxb]
        refine ⟨?_, hown x hx⟩
        have hna : (s.timers l x).e ≠ (s.timers l a).e :=
          fun he => hxa (hslot x hx he)
        have hnb : (s.timers l x).e ≠ (s.timers l b).e :=
          fun he => hxb (hslot' x hx he)
        simpa [hna, hnb] using hidx
  · have hne : ∀ y < s.timern k, (s.timers l x).e ≠ (s.timers k y).e :=
      fun y hy he => hlk (h.slot_unique hx hy he).1
    rw [LinkedAt, swapSlots_entries, swapSlots_timers_of_ne k s a b hlk,
      if_neg (hne a ha), if_neg (hne b hb)]
    exact h l x hx

theorem Reordered.swapSlots (h : Reordered k s t) {a b : Nat}
    (ha : a < s.timern k) (hb : b < s.timern k) :
    Reordered k s (swapSlots k t a b) where
  timern := h.timern
  fired := h.fired
  others l hl := (swapSlots_timers_of_ne k t a b hl).trans (h.others l hl)
  contents := by
    rw [← h.contents, heapContents, heapContents, swapSlots_timers]
    rw [← h.timern] at ha hb
    exact SwapHeap.range_map_swap _ ha hb
  armed e := by rw [swapSlots_entries, h.armed]
  localk e := by rw [swapSlots_entries, h.localk]
  outside e he := by
    have hne : ∀ x < s.timern k, e ≠ (t.timers k x).e := by
      intro x hx heq
      refine he (t.timers k x) ?_ heq.symm
      rw [← h.contents]
      exact mem_heapContents.mpr ⟨x, h.timern ▸ hx, rfl⟩
    rw [swapSlots_entries, if_neg (hne a ha), if_neg (hne b hb)]
    exact h.outside e he
  linked hl := (h.linked hl).swapSlots (h.timern ▸ ha) (h.timern ▸ hb)

section Sift

variable {k : κ} {s : TimerState κ ε} {i : Nat}

theorem siftUp_reordered (hi : i < s.timern k) : Reordered k s (siftUp k s i) :=
  SwapHeap.siftUp_invariant (P := Reordered k s)
    (fun _ _ _ ha hb h => h.swapSlots ha hb) hi (Reordered.refl k s)

theorem siftDown_reordered (hi : i < s.timern k) :
    Reordered k s (siftDown k s i (s.timern k)) :=
  SwapHeap.siftDown_invariant (P := Reordered k s)
    (fun _ _ _ ha hb h => h.swapSlots ha hb) hi (Reordered.refl k s)

theorem heapify_reordered (hi : i < s.timern k) :
    Reordered k s
      ((timerHeap k).heapify timerArity s (s.timern k) i) :=
  SwapHeap.heapify_invariant (P := Reordered k s)
    (fun _ _ _ ha hb h => h.swapSlots ha hb) hi (Reordered.refl k s)

end Sift

end Libut.Runtime
