import Libut.Runtime.TimerRuns

/-!
The arming protocol: the flag `armed` of an entry is meant to say that the
entry is in a heap. Three calls break this. `timer_softirq` takes an entry off
its heap and leaves the flag set; `timer_init` clears the flag of an entry that
is in a heap; and `timer_cancel` of an entry that was never started follows the
`localk` that `timer_init` did not write. Runs without these calls keep the
protocol, and each of these calls breaks it at once.
-/

namespace Libut.Runtime

open Machine

variable {κ ε : Type}

def ArmedIffPending (s : TimerState κ ε) : Prop :=
  ∀ e, (s.entries e).armed = true ↔
    ∃! p : κ × Nat, p.2 < s.timern p.1 ∧ (s.timers p.1 p.2).e = e

def CanRestart (s : TimerState κ ε) : Prop :=
  ∀ e ∈ s.fired, ¬ Pending s e → (s.entries e).armed = false

variable [DecidableEq κ] [DecidableEq ε]

/-- `timer_cancel` reports whether the entry was pending. If it was, it no
longer is, and since only pending entries fire its handler will not run; if it
was not, no heap changes. -/
def CancelContract (s : TimerState κ ε) (e : ε) : Prop :=
  ∃ t b, timerCancel s e = some (t, b) ∧ (b = true ↔ Pending s e) ∧
    (b = true → ¬ Pending t e) ∧
    (b = false → t.timers = s.timers ∧ t.timern = s.timern) ∧
    t.fired = s.fired

def StepHonours (s : TimerState κ ε) (a : TimerAct κ ε) : Prop :=
  (∀ t, (timerSystem κ ε).next s a = some t →
    ArmedIffPending t ∧ CanRestart t) ∧
  ∀ e, a = .cancel e → CancelContract s e

omit [DecidableEq κ] [DecidableEq ε] in
def armingOk (s : TimerState κ ε) : TimerAct κ ε → Prop
  | .init e => ¬ Pending s e
  | .start _ _ _ => True
  | .cancel e => (s.entries e).localk ≠ none
  | .merge _ _ => True
  | .softirq k nowUs => ¬ timerExpired s k nowUs

structure ArmingInv (s : TimerState κ ε) : Prop where
  heaps : TimerInv s
  pending : ∀ e, (s.entries e).armed = true → Pending s e
  fired : s.fired = []

section Step

variable {s t : TimerState κ ε}

omit [DecidableEq κ] [DecidableEq ε] in
theorem existsUnique_slot (hlinked : Linked s) {e : ε} :
    (∃! p : κ × Nat, p.2 < s.timern p.1 ∧ (s.timers p.1 p.2).e = e) ↔
      Pending s e := by
  constructor
  · rintro ⟨⟨k, i⟩, ⟨hi, he⟩, _⟩
    exact ⟨k, i, hi, he⟩
  · rintro ⟨k, i, hi, rfl⟩
    refine ⟨(k, i), ⟨hi, rfl⟩, ?_⟩
    rintro ⟨l, j⟩ ⟨hj, he⟩
    obtain ⟨rfl, rfl⟩ := hlinked.slot_unique hj hi he
    rfl

section

variable (h : ArmingInv s)
include h

omit [DecidableEq κ] [DecidableEq ε] in
theorem ArmingInv.protocol : ArmedIffPending s ∧ CanRestart s := by
  refine ⟨fun e => ?_, fun e he => ?_⟩
  · rw [existsUnique_slot h.heaps.linked]
    exact ⟨h.pending e, h.heaps.armed e⟩
  · rw [h.fired] at he
    exact absurd he List.not_mem_nil

theorem ArmingInv.start {k : κ} {e : ε} {deadlineUs : Nat}
    (hnext : timerStartLocked s k e deadlineUs = some t) : ArmingInv t := by
  obtain ⟨hinv, hcontents, hothers, harmed, hfired⟩ :=
    timerStartLocked_spec h.heaps hnext
  refine ⟨hinv, fun e' he' => ?_, hfired.trans h.fired⟩
  rw [harmed] at he'
  rw [pending_iff]
  split_ifs at he' with heq
  · refine ⟨k, ⟨deadlineUs, e⟩, ?_, heq.symm⟩
    rw [hcontents]
    exact Multiset.mem_add.mpr (Or.inr (Multiset.mem_singleton_self _))
  · obtain ⟨l, x, hx, hxe⟩ := pending_iff.mp (h.pending e' he')
    refine ⟨l, x, ?_, hxe⟩
    rcases eq_or_ne l k with rfl | hl
    · rw [hcontents]
      exact Multiset.mem_add.mpr (Or.inl hx)
    · rwa [hothers l hl]

theorem ArmingInv.merge {k r : κ} (hkr : k ≠ r)
    (hnext : timerMerge s k r = some t) : ArmingInv t := by
  obtain ⟨hinv, hk, _, hothers, harmed, hfired⟩ :=
    timerMerge_spec h.heaps hkr hnext
  refine ⟨hinv, fun e he => ?_, hfired.trans h.fired⟩
  rw [harmed] at he
  obtain ⟨l, x, hx, hxe⟩ := pending_iff.mp (h.pending e he)
  rw [pending_iff]
  by_cases hl : l = k ∨ l = r
  · refine ⟨k, x, ?_, hxe⟩
    rw [hk, Multiset.mem_add]
    rcases hl with rfl | rfl
    · exact Or.inl hx
    · exact Or.inr hx
  · rw [not_or] at hl
    exact ⟨l, x, by rwa [hothers l hl.1 hl.2], hxe⟩

/-- Cancelling clears the flag of a pending entry and takes it off its heap;
on any other entry that was started once, it does nothing. -/
theorem ArmingInv.cancel {e : ε} (hlocal : (s.entries e).localk ≠ none) :
    CancelContract s e ∧
      ∀ t b, timerCancel s e = some (t, b) → ArmingInv t := by
  by_cases hp : Pending s e
  · obtain ⟨k, i, hi, rfl, _, _, hcancel, hrem⟩ :=
      cancel_pending_removal h.heaps hp
    have hfired : (cancelSlot s k i).fired = s.fired :=
      cancelSlot_fired hi
    rw [CancelContract, hcancel]
    refine ⟨⟨_, _, rfl, by simpa using hp, fun _ => hrem.gone, by simp,
      hfired⟩, ?_⟩
    rintro t b ⟨⟩
    refine ⟨hrem.inv, fun e' he' => ?_, hfired.trans h.fired⟩
    rw [cancelSlot_armed hi] at he'
    split_ifs at he' with heq
    exact (hrem.pending_iff e').mpr ⟨h.pending e' he', heq⟩
  · have harmed : (s.entries e).armed = false := by
      rw [← Bool.not_eq_true]
      exact fun he => hp (h.pending e he)
    obtain ⟨k, hk⟩ := Option.ne_none_iff_exists'.mp hlocal
    have hcancel : timerCancel s e = some (s, false) := by
      simp [timerCancel, hk, harmed]
    rw [CancelContract, hcancel]
    refine ⟨⟨_, _, rfl, by simpa using hp, by simp, fun _ => ⟨rfl, rfl⟩,
      rfl⟩, ?_⟩
    rintro t b ⟨⟩
    exact h

omit [DecidableEq κ] in
theorem ArmingInv.init {e : ε} (hp : ¬ Pending s e) :
    ArmingInv (timerInit s e) := by
  refine ⟨⟨(linked_setArmed s e false).mpr h.heaps.linked, h.heaps.ordered,
    ?_, h.heaps.bounded⟩, ?_, h.fired⟩
  · intro e' he'
    have hne : e' ≠ e := by
      rintro rfl
      exact hp he'
    rw [timerInit, setArmed_entries, if_neg hne]
    exact h.heaps.armed e' he'
  · intro e' he'
    rw [timerInit, setArmed_entries] at he'
    split_ifs at he' with heq
    exact h.pending e' he'

theorem ArmingInv.next {a : TimerAct κ ε} (hok : armingOk s a)
    (hnext : (timerSystem κ ε).next s a = some t) : ArmingInv t := by
  cases a with
  | init e =>
    cases hnext
    exact h.init hok
  | start k e deadlineUs => exact h.start hnext
  | cancel e =>
    obtain ⟨⟨u, b⟩, hcancel, rfl⟩ := Option.map_eq_some_iff.mp hnext
    exact (h.cancel hok).2 u b hcancel
  | merge k r =>
    change (if k = r then none else timerMerge s k r) = some t at hnext
    split_ifs at hnext with hkr
    exact h.merge hkr hnext
  | softirq k nowUs =>
    cases hnext
    have hsame : timerSoftirq s k nowUs = s := if_neg hok
    rwa [hsame]

/-- A step that does not meet it breaks the protocol there and then. -/
theorem ArmingInv.broken {a : TimerAct κ ε} (hok : ¬ armingOk s a) :
    ¬ StepHonours s a := by
  rintro ⟨hflags, hcancel⟩
  cases a with
  | init e =>
    have hp : Pending s e := not_not.mp hok
    have harmed := ((hflags _ rfl).1 e).mpr
      ((existsUnique_slot ((linked_setArmed s e false).mpr
        h.heaps.linked)).mpr hp)
    rw [timerInit, setArmed_entries, if_pos rfl] at harmed
    cases harmed
  | start k e deadlineUs => exact hok trivial
  | cancel e =>
    have hnone : (s.entries e).localk = none := not_not.mp hok
    obtain ⟨t, b, ht, _⟩ := hcancel e rfl
    simp [timerCancel, hnone] at ht
  | merge k r => exact hok trivial
  | softirq k nowUs =>
    have hexp : timerExpired s k nowUs := not_not.mp hok
    have hrem := popSlot_removal h.heaps hexp.1
    have hflag := (hflags _ rfl).1 (s.timers k 0).e
    rw [timerSoftirq_expired hexp] at hflag
    refine hrem.gone ((existsUnique_slot hrem.inv.linked).mp (hflag.mp ?_))
    change ((popSlot s k).entries _).armed = true
    rw [popSlot_armed]
    exact h.heaps.armed _ ⟨k, 0, hexp.1, rfl⟩

end

end Step

/-- In every run whose steps all meet the condition, the flags are right in
every state that is reached; and there a step keeps the protocol exactly when
it meets the condition. So the handler of a fired timer leaves a flag behind,
and nothing else does but re-initializing a pending entry. -/
theorem timer_arming_iff {s : TimerState κ ε}
    (hs : (timerSystem κ ε).Reach armingOk s) :
    (ArmedIffPending s ∧ CanRestart s) ∧
      ∀ a, StepHonours s a ↔ armingOk s a := by
  have hinv : ArmingInv s := by
    refine hs.invariant (fun s hinit => ?_)
      fun _ _ _ hinv hok hnext => hinv.next hok hnext
    refine ⟨timerInv_init hinit, fun e he => ?_, hinit.2.2⟩
    rw [(hinit.2.1 e).1] at he
    cases he
  refine ⟨hinv.protocol, fun a => ⟨?_, fun hok => ⟨fun t hnext => ?_, ?_⟩⟩⟩
  · exact fun h => Classical.byContradiction fun hok => hinv.broken hok h
  · exact (hinv.next hok hnext).protocol
  · rintro e rfl
    exact (hinv.cancel hok).1

/-- Entry 1 is pending: it can be cancelled, and not fired. -/
theorem timer_arming_one_armed :
    (timerSystem Bool Nat).Reach armingOk timerOneArmed ∧
      StepHonours timerOneArmed (.cancel 1) ∧
      ¬ StepHonours timerOneArmed (.softirq false 7) := by
  have hs : (timerSystem Bool Nat).Reach armingOk timerOneArmed :=
    .step (a := .start false 1 7) (.init timerBoot_init) trivial
      timerOneArmed_next
  refine ⟨hs, ((timer_arming_iff hs).2 (.cancel 1)).mpr ?_, fun h => ?_⟩
  · change (timerOneArmed.entries 1).localk ≠ none
    decide
  · exact ((timer_arming_iff hs).2 (.softirq false 7)).mp h (by decide)

/-- `timerTwoArmed` after entry 1 fired. -/
def timerOneFired : TimerState Bool Nat :=
  { fillSlot timerTwoArmed false 0 1 with fired := [1] }

theorem timerOneFired_reach :
    (timerSystem Bool Nat).Reach anyStep timerOneFired := by
  have hone : (timerSystem Bool Nat).Reach anyStep timerOneArmed :=
    .step (a := .start false 1 7) (.init timerBoot_init) trivial
      timerOneArmed_next
  have hfire : timerSoftirq timerTwoArmed false 7 = timerOneFired := by
    rw [timerSoftirq_expired (by decide), popSlot, siftDown,
      SwapHeap.siftDown_of_none _ _ (by decide)]
    rfl
  exact .step (a := .softirq false 7)
    (.step (a := .start false 0 9) hone trivial timerTwoArmed_next) trivial
    (congrArg some hfire)

/-- Two timers are started and the first one fires. Its entry is in no heap,
and yet it is armed: starting it again is a `BUG`, and cancelling it reports
success and takes the other timer off the heap. -/
theorem timer_fired_stays_armed :
    ∃ s t : TimerState Bool Nat,
      (timerSystem Bool Nat).Reach anyStep s ∧ s.fired = [1] ∧
      ¬ Pending s 1 ∧ ¬ ArmedIffPending s ∧
      (∀ k d, timerStartLocked s k 1 d = none) ∧
      timerCancel s 1 = some (t, true) ∧ ¬ CancelContract s 1 ∧
      Pending s 0 ∧ ¬ Pending t 0 := by
  have harmed : (timerOneFired.entries 1).armed = true := by decide
  have hslot : ∀ k i, i < timerOneFired.timern k →
      (timerOneFired.timers k i).e = 0 := by
    intro k i hi
    match k, i with
    | false, 0 => rfl
    | false, i + 1 => exact absurd hi (by simp [timerOneFired])
    | true, i => exact absurd hi (Nat.not_lt_zero i)
  have hnot : ¬ Pending timerOneFired 1 := by
    rintro ⟨k, i, hi, he⟩
    rw [hslot k i hi] at he
    exact absurd he (by decide)
  have hcancel : timerCancel timerOneFired 1 =
      some ((timerOneFired.setArmed 1 false).setTimern false 0, true) := rfl
  refine ⟨timerOneFired, _, timerOneFired_reach, rfl, hnot, ?_, ?_, hcancel,
    ?_, ⟨false, 0, by decide, rfl⟩, ?_⟩
  · intro h
    obtain ⟨⟨k, i⟩, ⟨hi, he⟩, _⟩ := (h 1).mp harmed
    exact hnot ⟨k, i, hi, he⟩
  · intro k d
    simp [timerStartLocked, harmed]
  · rintro ⟨t, b, ht, hb, _⟩
    rw [hcancel] at ht
    cases ht
    exact hnot (hb.mp rfl)
  · rintro ⟨k, i, hi, _⟩
    match k with
    | false => exact absurd hi (Nat.not_lt_zero i)
    | true => exact absurd hi (Nat.not_lt_zero i)

end Libut.Runtime
