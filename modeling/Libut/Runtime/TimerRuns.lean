import Libut.Runtime.TimerOps

/-!
Merging two heaps, and the timer heaps over whole runs: whatever kthreads
start, cancel, merge and pop, every heap stays a heap with matching back
pointers and no timer is lost or duplicated.
-/

namespace Libut.Runtime

open Function Machine

variable {κ ε : Type} [DecidableEq κ]

/-- The state `t` in the first loop of `timer_merge`, called in `s`, after `j`
timers of `r` have been appended to the heap of `k`. The slots of `r` that
have been copied still hold their timers but are no longer pointed at. -/
structure MergedUpTo (s : TimerState κ ε) (k r : κ) (j : Nat)
    (t : TimerState κ ε) : Prop where
  count : t.timern = update s.timern k (s.timern k + j)
  bounded : s.timern k + j < runtimeMaxTimers
  fired : t.fired = s.fired
  others : ∀ l, l ≠ k → t.timers l = s.timers l
  old : ∀ i < s.timern k, t.timers k i = s.timers k i
  moved : ∀ i < j, t.timers k (s.timern k + i) = s.timers r i
  armed : ∀ e, (t.entries e).armed = (s.entries e).armed
  linked : ∀ i < s.timern k + j, LinkedAt t k i
  rest : ∀ l i, l ≠ k → i < s.timern l → (l = r → j ≤ i) → LinkedAt t l i

section Merge

variable {s t : TimerState κ ε} {k r : κ} {j : Nat}

theorem mergedUpTo_zero (hinv : TimerInv s) : MergedUpTo s k r 0 s where
  count := by simp
  bounded := hinv.bounded k
  fired := rfl
  others _ _ := rfl
  old _ _ := rfl
  moved i hi := absurd hi (Nat.not_lt_zero i)
  armed _ := rfl
  linked i hi := hinv.linked k i hi
  rest l i _ hi _ := hinv.linked l i hi

theorem MergedUpTo.linked_emptied (h : MergedUpTo s k r (s.timern r) t) :
    Linked (t.setTimern r 0) := by
  intro l i hi
  change i < update t.timern r 0 l at hi
  change LinkedAt t l i
  rcases eq_or_ne l r with rfl | hlr
  · simp at hi
  · rw [update_of_ne hlr, h.count] at hi
    rcases eq_or_ne l k with rfl | hlk
    · rw [update_self] at hi
      exact h.linked i hi
    · rw [update_of_ne hlk] at hi
      exact h.rest l i hlk hi fun hr => absurd hr hlr

theorem MergedUpTo.contents_emptied (h : MergedUpTo s k r (s.timern r) t)
    (hkr : k ≠ r) (l : κ) :
    heapContents (t.setTimern r 0) l =
      if l = k then heapContents s k + heapContents s r
      else if l = r then 0 else heapContents s l := by
  change (Multiset.range (update t.timern r 0 l)).map (t.timers l) = _
  split_ifs with hlk hlr
  · subst hlk
    rw [update_of_ne hkr, h.count, update_self,
      Multiset.range_add, Multiset.map_add, Multiset.map_map]
    congr 1
    · exact Multiset.map_congr rfl fun i hi =>
        h.old i (Multiset.mem_range.mp hi)
    · exact Multiset.map_congr rfl fun i hi =>
        h.moved i (Multiset.mem_range.mp hi)
  · subst hlr
    simp
  · rw [update_of_ne hlr, h.count, update_of_ne hlk, h.others l hlk]
    rfl

variable [DecidableEq ε]

theorem timerMergeOne_eq (t : TimerState κ ε) (k r : κ) (i : Nat) :
    timerMergeOne t k r i =
      if runtimeMaxTimers ≤ t.timern k + 1 then none
      else some (pushSlot t k (t.timers r i)) := by
  simp only [timerMergeOne, pushSlot, TimerState.setSlot, TimerState.setIdx,
    TimerState.setEntry, TimerState.setTimern, update_self, update_idem]

theorem MergedUpTo.push (h : MergedUpTo s k r j t) (hkr : k ≠ r)
    (hj : j < s.timern r) (hmax : t.timern k + 1 < runtimeMaxTimers) :
    MergedUpTo s k r (j + 1) (pushSlot t k (t.timers r j)) := by
  have hcount : t.timern k = s.timern k + j := by
    rw [h.count, update_self]
  have hsource : LinkedAt t r j := h.rest r j hkr.symm hj fun _ => le_rfl
  refine ⟨?_, by omega, h.fired, ?_, ?_, ?_, ?_, ?_, ?_⟩
  · rw [pushSlot_timern, hcount, h.count, update_idem]
    rfl
  · intro l hl
    rw [pushSlot_timers, update_of_ne hl, h.others l hl]
  · intro i hi
    rw [pushSlot_timers, update_self, update_of_ne (by omega), h.old i hi]
  · intro i hi
    rw [pushSlot_timers, update_self]
    rcases Nat.lt_succ_iff_lt_or_eq.mp hi with hlt | rfl
    · rw [update_of_ne (by omega), h.moved i hlt]
    · rw [hcount, update_self, h.others r hkr.symm]
  · intro e
    rw [pushSlot_armed, h.armed]
  · intro i hi
    have hcases : i < s.timern k + j ∨ i = s.timern k + j := by omega
    rcases hcases with hlt | heq
    · refine (h.linked i hlt).pushSlot ?_ fun _ => by omega
      exact fun he => hkr ((h.linked i hlt).slot_unique hsource he).1
    · have hnew := pushSlot_linkedAt_new t k (t.timers r j)
      rw [hcount] at hnew
      rw [heq]
      exact hnew
  · intro l i hl hi hlr
    have hlink := h.rest l i hl hi fun hr => by
      have := hlr hr
      omega
    refine hlink.pushSlot ?_ fun hk => absurd hk hl
    intro he
    obtain ⟨hr, rfl⟩ := hlink.slot_unique hsource he
    exact absurd (hlr hr) (by omega)

theorem timerMergeLoop_spec (hinv : TimerInv s) (hkr : k ≠ r)
    (hj : j ≤ s.timern r) :
    (∀ t, timerMergeLoop s k r j = some t → MergedUpTo s k r j t) ∧
      (s.timern k + j < runtimeMaxTimers →
        ∃ t, timerMergeLoop s k r j = some t) := by
  induction j with
  | zero =>
    refine ⟨fun t ht => ?_, fun _ => ⟨s, rfl⟩⟩
    cases ht
    exact mergedUpTo_zero hinv
  | succ j ih =>
    obtain ⟨hsound, hdone⟩ := ih (by omega)
    simp only [timerMergeLoop, Option.bind_eq_some_iff, timerMergeOne_eq]
    constructor
    · rintro t ⟨u, hu, hpush⟩
      split_ifs at hpush with hmax
      cases hpush
      exact (hsound u hu).push hkr (by omega) (by omega)
    · intro hroom
      obtain ⟨u, hu⟩ := hdone (by omega)
      have hcount : u.timern k = s.timern k + j := by
        rw [(hsound u hu).count, update_self]
      exact ⟨_, u, hu, if_neg (by omega)⟩

theorem timerMerge_spec (hinv : TimerInv s) (hkr : k ≠ r)
    (h : timerMerge s k r = some t) :
    TimerInv t ∧
      heapContents t k = heapContents s k + heapContents s r ∧
      heapContents t r = 0 ∧
      (∀ l, l ≠ k → l ≠ r → heapContents t l = heapContents s l) ∧
      (∀ e, (t.entries e).armed = (s.entries e).armed) ∧
      t.fired = s.fired := by
  unfold timerMerge at h
  split_ifs at h with hzero
  · cases h
    have hr : heapContents s r = 0 := by simp [heapContents, hzero]
    exact ⟨hinv, by simp [hr], hr, fun _ _ _ => rfl, fun _ => rfl, rfl⟩
  · obtain ⟨u, hu, rfl⟩ := Option.map_eq_some_iff.mp h
    have hm := (timerMergeLoop_spec hinv hkr le_rfl).1 u hu
    have hcount : (u.setTimern r 0).timern k = s.timern k + s.timern r := by
      change update u.timern r 0 k = _
      rw [update_of_ne hkr, hm.count, update_self]
    have hr := heapify_reordered (k := k) (s := u.setTimern r 0)
      (i := (u.setTimern r 0).timern k / timerArity)
      (Nat.div_lt_self (by omega) (by decide))
    have hcontents (l : κ) :=
      (hr.heapContents_eq l).trans (hm.contents_emptied hkr l)
    refine ⟨⟨hr.linked (hm.linked_emptied), ?_, ?_, ?_⟩, ?_, ?_, ?_, ?_,
      hr.fired.trans hm.fired⟩
    · intro l
      rcases eq_or_ne l k with rfl | hlk
      · intro c hc hcn
        rw [hr.timern] at hcn
        have hord := SwapHeap.heapify_ordered (H := timerHeap l)
          (by decide : 0 < timerArity)
          (SwapHeap.orderedFrom_div (n := (u.setTimern r 0).timern l)
            (u.setTimern r 0))
        exact hord c hc hcn
      · have hle : (u.setTimern r 0).timern l ≤ s.timern l := by
          change update u.timern r 0 l ≤ _
          rcases eq_or_ne l r with rfl | hlr
          · simp
          · rw [update_of_ne hlr, hm.count, update_of_ne hlk]
        refine (hinv.ordered l).congr (hr.timern ▸ hle) fun i _ => ?_
        rw [hr.others l hlk]
        exact congrFun (hm.others l hlk) i
    · intro e he
      rw [hr.armed]
      refine (hm.armed e).trans (hinv.armed e ?_)
      obtain ⟨l, x, hx, rfl⟩ := pending_iff.mp he
      rw [hcontents] at hx
      split_ifs at hx with hlk hlr
      · rcases Multiset.mem_add.mp hx with hx | hx
        · exact pending_iff.mpr ⟨k, x, hx, rfl⟩
        · exact pending_iff.mpr ⟨r, x, hx, rfl⟩
      · exact absurd hx (Multiset.notMem_zero x)
      · exact pending_iff.mpr ⟨l, x, hx, rfl⟩
    · intro l
      rw [hr.timern]
      change update u.timern r 0 l < _
      rcases eq_or_ne l r with rfl | hlr
      · rw [update_self]
        decide
      · rw [update_of_ne hlr, hm.count]
        rcases eq_or_ne l k with rfl | hlk
        · rw [update_self]
          exact hm.bounded
        · rw [update_of_ne hlk]
          exact hinv.bounded l
    · rw [hcontents, if_pos rfl]
    · rw [hcontents, if_neg hkr.symm, if_pos rfl]
    · intro l hlk hlr
      rw [hcontents, if_neg hlk, if_neg hlr]
    · intro e
      exact (hr.armed e).trans (hm.armed e)

theorem timerMerge_isSome (hinv : TimerInv s) (hkr : k ≠ r)
    (hroom : s.timern k + s.timern r < runtimeMaxTimers) :
    ∃ t, timerMerge s k r = some t := by
  obtain ⟨u, hu⟩ := (timerMergeLoop_spec hinv hkr le_rfl).2 hroom
  unfold timerMerge
  split_ifs
  · exact ⟨s, rfl⟩
  · rw [hu]
    exact ⟨_, rfl⟩

end Merge

/-- Runs in which every cancelled entry is in a heap and no entry goes through
`timer_init` again. -/
def heapOp (s : TimerState κ ε) : TimerAct κ ε → Prop
  | .init _ => False
  | .start _ _ _ => True
  | .cancel e => Pending s e
  | .merge _ _ => True
  | .softirq _ _ => True

def timerRoom (s : TimerState κ ε) : TimerAct κ ε → Prop
  | .init _ => True
  | .start k e _ =>
    (s.entries e).armed = false ∧ s.timern k + 1 < runtimeMaxTimers
  | .cancel _ => True
  | .merge k r => k ≠ r ∧ s.timern k + s.timern r < runtimeMaxTimers
  | .softirq _ _ => True

def timerStarted : TimerAct κ ε → Multiset (TimerIdx ε)
  | .init _ => 0
  | .start _ e deadlineUs => {⟨deadlineUs, e⟩}
  | .cancel _ => 0
  | .merge _ _ => 0
  | .softirq _ _ => 0

def timerTaken (s : TimerState κ ε) : TimerAct κ ε → Multiset (TimerIdx ε)
  | .init _ => 0
  | .start _ _ _ => 0
  | .cancel e =>
    match (s.entries e).localk with
    | none => 0
    | some k => {s.timers k (s.entries e).idx}
  | .merge _ _ => 0
  | .softirq k nowUs =>
    if timerExpired s k nowUs then {s.timers k 0} else 0

section Runs

variable [DecidableEq ε] {s t : TimerState κ ε}

theorem cancel_pending_removal (hinv : TimerInv s) {e : ε} (hp : Pending s e) :
    ∃ k i, i < s.timern k ∧ (s.timers k i).e = e ∧
      (s.entries e).localk = some k ∧ (s.entries e).idx = i ∧
      timerCancel s e = some (cancelSlot s k i, true) ∧
      Removal s (cancelSlot s k i) k (s.timers k i) := by
  obtain ⟨k, i, hi, rfl⟩ := hp
  obtain ⟨hidx, hown⟩ := hinv.linked k i hi
  exact ⟨k, i, hi, rfl, hown, hidx, timerCancel_pending hinv hi,
    cancelSlot_removal hinv hi⟩

theorem timerInv_init (h : (timerSystem κ ε).init s) : TimerInv s := by
  obtain ⟨hcount, hentry, _⟩ := h
  refine ⟨?_, ?_, ?_, ?_⟩
  · intro k i hi
    rw [hcount k] at hi
    omega
  · intro k i _ hi
    rw [hcount k] at hi
    omega
  · rintro e ⟨k, i, hi, _⟩
    rw [hcount k] at hi
    omega
  · intro k
    rw [hcount k]
    decide

theorem timerInv_next (hinv : TimerInv s) {a : TimerAct κ ε} (hop : heapOp s a)
    (h : (timerSystem κ ε).next s a = some t) : TimerInv t := by
  cases a with
  | init e => exact hop.elim
  | start k e deadlineUs => exact (timerStartLocked_spec hinv h).1
  | cancel e =>
    obtain ⟨k, i, _, _, _, _, hcancel, hrem⟩ :=
      cancel_pending_removal hinv hop
    change (timerCancel s e).map Prod.fst = some t at h
    rw [hcancel] at h
    cases h
    exact hrem.inv
  | merge k r =>
    change (if k = r then none else timerMerge s k r) = some t at h
    split_ifs at h with hkr
    exact (timerMerge_spec hinv hkr h).1
  | softirq k nowUs =>
    cases h
    by_cases hexp : timerExpired s k nowUs
    · rw [timerSoftirq_expired hexp]
      exact (popSlot_removal hinv hexp.1).inv.of_fired
    · have hsame : timerSoftirq s k nowUs = s := if_neg hexp
      rwa [hsame]

variable [Fintype κ]

omit [DecidableEq ε] in
theorem Removal.timerContents_eq {k : κ} {x : TimerIdx ε}
    (h : Removal s t k x) : timerContents t + {x} = timerContents s := by
  have := sum_change_one (f := heapContents s) (g := heapContents t)
    (a := {x}) (b := 0) h.others (by rw [h.contents, add_zero])
  rwa [add_zero] at this

theorem timerSystem_step (hinv : TimerInv s) {a : TimerAct κ ε}
    (hop : heapOp s a) (h : (timerSystem κ ε).next s a = some t) :
    TimerInv t ∧
      timerContents t + timerTaken s a = timerContents s + timerStarted a := by
  refine ⟨timerInv_next hinv hop h, ?_⟩
  cases a with
  | init e => exact hop.elim
  | start k e deadlineUs =>
    obtain ⟨_, hcontents, hothers, _⟩ := timerStartLocked_spec hinv h
    apply sum_change_one hothers
    simp only [timerTaken, timerStarted, hcontents, add_zero]
  | cancel e =>
    obtain ⟨k, i, _, _, hown, hidx, hcancel, hrem⟩ :=
      cancel_pending_removal hinv hop
    change (timerCancel s e).map Prod.fst = some t at h
    rw [hcancel] at h
    cases h
    simp only [timerTaken, timerStarted, hown, hidx, add_zero]
    exact hrem.timerContents_eq
  | merge k r =>
    change (if k = r then none else timerMerge s k r) = some t at h
    split_ifs at h with hkr
    obtain ⟨_, hk, hr, hothers, _⟩ := timerMerge_spec hinv hkr h
    apply sum_change_two hkr hothers
    simp only [timerTaken, timerStarted, hk, hr, add_zero]
  | softirq k nowUs =>
    cases h
    by_cases hexp : timerExpired s k nowUs
    · have hrem := popSlot_removal hinv hexp.1
      rw [timerSoftirq_expired hexp]
      simp only [timerTaken, timerStarted, if_pos hexp, add_zero]
      exact hrem.timerContents_eq
    · have hsame : timerSoftirq s k nowUs = s := if_neg hexp
      rw [hsame]
      simp only [timerTaken, timerStarted, if_neg hexp]

omit [Fintype κ] in
theorem timerSystem_inv (hs : (timerSystem κ ε).Reach heapOp s) : TimerInv s :=
  hs.invariant (fun _ => timerInv_init)
    fun _ _ _ hinv hop hnext => timerInv_next hinv hop hnext

/-- In every run of starts, cancels of pending entries, merges and pops, by
any number of kthreads, each heap is a 4-ary min-heap whose entries point back
at their slots; a step that meets no limit has a result, and the pending
timers of all kthreads change by exactly the timer started, cancelled or
popped. -/
theorem timer_heaps_well_formed (hs : (timerSystem κ ε).Reach heapOp s) :
    (∀ k, HeapOrdered s k) ∧
    (∀ k i, i < s.timern k → (s.entries (s.timers k i).e).idx = i ∧
        (s.entries (s.timers k i).e).localk = some k) ∧
    ∀ a, heapOp s a →
      (timerRoom s a → ∃ t, (timerSystem κ ε).next s a = some t) ∧
      ∀ t, (timerSystem κ ε).next s a = some t →
        timerContents t + timerTaken s a =
          timerContents s + timerStarted a := by
  have hinv := timerSystem_inv hs
  refine ⟨hinv.ordered, hinv.linked, fun a hop => ⟨fun hroom => ?_,
    fun t hnext => (timerSystem_step hinv hop hnext).2⟩⟩
  cases a with
  | init e => exact hop.elim
  | start k e deadlineUs =>
    exact ⟨_, timerStartLocked_eq_some.mpr ⟨hroom.1, hroom.2, rfl⟩⟩
  | cancel e =>
    obtain ⟨k, i, _, _, _, _, hcancel, _⟩ := cancel_pending_removal hinv hop
    exact ⟨cancelSlot s k i, by simp [timerSystem, hcancel]⟩
  | merge k r =>
    obtain ⟨t, ht⟩ := timerMerge_isSome hinv hroom.1 hroom.2
    exact ⟨t, by simp [timerSystem, hroom.1, ht]⟩
  | softirq k nowUs => exact ⟨_, rfl⟩

end Runs

def timerBoot : TimerState Bool Nat where
  timers _ _ := ⟨0, 0⟩
  timern _ := 0
  entries _ := ⟨false, 0, none⟩
  fired := []

theorem timerBoot_init : (timerSystem Bool Nat).init timerBoot :=
  ⟨fun _ => rfl, fun _ => ⟨rfl, rfl⟩, rfl⟩

/-- `timerBoot` after a kthread started entry 1 with deadline 7. -/
def timerOneArmed : TimerState Bool Nat :=
  (pushSlot timerBoot false ⟨7, 1⟩).setArmed 1 true

theorem timerOneArmed_next :
    timerStartLocked timerBoot false 1 7 = some timerOneArmed :=
  timerStartLocked_eq_some.mpr ⟨rfl, by decide, by
    rw [siftUp, SwapHeap.siftUp_of_not _ _ (by decide)]
    rfl⟩

/-- `timerOneArmed` after it also started entry 0 with deadline 9. -/
def timerTwoArmed : TimerState Bool Nat :=
  (pushSlot timerOneArmed false ⟨9, 0⟩).setArmed 0 true

theorem timerTwoArmed_next :
    timerStartLocked timerOneArmed false 0 9 = some timerTwoArmed :=
  timerStartLocked_eq_some.mpr ⟨rfl, by decide, by
    rw [siftUp, SwapHeap.siftUp_of_not _ _ (by decide)]
    rfl⟩

theorem timerTwoArmed_reach :
    (timerSystem Bool Nat).Reach heapOp timerTwoArmed := by
  have hone : (timerSystem Bool Nat).Reach heapOp timerOneArmed :=
    .step (a := .start false 1 7) (.init timerBoot_init) trivial
      timerOneArmed_next
  exact .step (a := .start false 0 9) hone trivial timerTwoArmed_next

theorem timerTwoArmed_inv : TimerInv timerTwoArmed :=
  timerSystem_inv timerTwoArmed_reach

theorem timer_heaps_well_formed_two_armed :
    (timerSystem Bool Nat).Reach heapOp timerTwoArmed ∧
      timerTwoArmed.timern false = 2 ∧ HeapOrdered timerTwoArmed false ∧
      ∃ t, (timerSystem Bool Nat).next timerTwoArmed (.merge true false) =
          some t ∧
        timerContents t = timerContents timerTwoArmed := by
  obtain ⟨hordered, -, hsteps⟩ := timer_heaps_well_formed timerTwoArmed_reach
  obtain ⟨hnext, hcontents⟩ := hsteps (.merge true false) trivial
  obtain ⟨t, ht⟩ := hnext ⟨by decide, by decide⟩
  refine ⟨timerTwoArmed_reach, rfl, hordered false, t, ht, ?_⟩
  simpa [timerTaken, timerStarted] using hcontents t ht

end Libut.Runtime
