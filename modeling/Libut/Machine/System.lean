import Mathlib.Logic.Function.Basic

/-!
Deterministic labelled transition systems. A label carries everything the
environment decides (which party moves, what it reads from outside), so that
a run is a list of labels and every interleaving is some list. `Reach ok`
collects the states visited by the runs all of whose steps are admitted by
`ok`; taking `ok` to be trivial gives all reachable states.
-/

namespace Libut.Machine

structure System (σ α : Type*) where
  init : σ → Prop
  next : σ → α → Option σ

variable {σ α : Type*}

def anyStep : σ → α → Prop := fun _ _ => True

inductive System.Reach (M : System σ α) (ok : σ → α → Prop) : σ → Prop
  | init {s : σ} : M.init s → M.Reach ok s
  | step {s t : σ} {a : α} :
      M.Reach ok s → ok s a → M.next s a = some t → M.Reach ok t

variable {M : System σ α} {ok : σ → α → Prop} {s : σ}

/-- The induction rule for state invariants: it holds at the start and every
admitted step out of a state that has it leads to a state that has it. -/
theorem System.Reach.invariant {Inv : σ → Prop} (hinit : ∀ s, M.init s → Inv s)
    (hstep : ∀ s a t, Inv s → ok s a → M.next s a = some t → Inv t)
    (hs : M.Reach ok s) : Inv s := by
  induction hs with
  | init h => exact hinit _ h
  | step _ hok hnext ih => exact hstep _ _ _ ih hok hnext

theorem guarded {p : Prop} [Decidable p] {t : σ}
    (h : (if p then some s else none) = some t) : p ∧ s = t := by
  rwa [Option.ite_none_right_eq_some, Option.some.injEq] at h

theorem System.Reach.mono {ok' : σ → α → Prop} (hle : ∀ s a, ok s a → ok' s a)
    (hs : M.Reach ok s) : M.Reach ok' s := by
  induction hs with
  | init h => exact .init h
  | step _ hok hnext ih => exact .step ih (hle _ _ hok) hnext

/-- Execute a list of labels; `none` as soon as one of them is not enabled. -/
def System.exec (M : System σ α) : σ → List α → Option σ
  | s, [] => some s
  | s, a :: rest => (M.next s a).bind fun t => M.exec t rest

theorem System.exec_cons {t : σ} {a : α} {rest : List α} :
    M.exec s (a :: rest) = some t ↔
      ∃ u, M.next s a = some u ∧ M.exec u rest = some t := by
  simp [System.exec, Option.bind_eq_some_iff]

/-- A rank that every step raises bounds the length of the runs. -/
theorem System.exec_rank {rank : σ → Nat} {t : σ} {labels : List α}
    (hrank : ∀ s a t, M.next s a = some t → rank s < rank t)
    (hrun : M.exec s labels = some t) :
    rank s + labels.length ≤ rank t := by
  induction labels generalizing s with
  | nil =>
    cases hrun
    exact Nat.le_refl _
  | cons a rest ih =>
    obtain ⟨u, hnext, htail⟩ := System.exec_cons.mp hrun
    have hstep := hrank s a u hnext
    have htail' := ih htail
    rw [List.length_cons]
    omega

/-- A list of admitted labels that executes from a reachable state ends in a
reachable state. Concrete runs enter `Reach` through this lemma. -/
theorem System.Reach.exec_of {t : σ} (hs : M.Reach ok s) (labels : List α)
    (hok : ∀ s, ∀ a ∈ labels, ok s a) (hrun : M.exec s labels = some t) :
    M.Reach ok t := by
  induction labels generalizing s with
  | nil =>
    cases hrun
    exact hs
  | cons a rest ih =>
    obtain ⟨u, hnext, htail⟩ := System.exec_cons.mp hrun
    have hu : M.Reach ok u := .step hs (hok s a List.mem_cons_self) hnext
    exact ih hu (fun s b hb => hok s b (List.mem_cons_of_mem a hb)) htail

theorem System.Reach.exec {t : σ} (hs : M.Reach anyStep s) (labels : List α)
    (hrun : M.exec s labels = some t) : M.Reach anyStep t :=
  hs.exec_of labels (fun _ _ _ => trivial) hrun

def System.restrict (M : System σ α) (check : σ → α → Bool) : System σ α where
  init := M.init
  next s a := if check s a then M.next s a else none

/-- Runs of the checked system are runs whose steps are all admitted, so a
condition that depends on the state can be tested along a concrete run. -/
theorem System.Reach.of_restrict {check : σ → α → Bool}
    (hcheck : ∀ s a, check s a = true → ok s a)
    (hs : (M.restrict check).Reach anyStep s) : M.Reach ok s := by
  induction hs with
  | init h => exact .init h
  | @step s t a _ _ hnext ih =>
    simp only [System.restrict] at hnext
    split at hnext
    · rename_i ha
      exact .step ih (hcheck s a ha) hnext
    · cases hnext

theorem System.Reach.of_checked [∀ s a, Decidable (ok s a)] {t : σ}
    {labels : List α} (hinit : M.init s)
    (hrun : (M.restrict fun s a => decide (ok s a)).exec s labels = some t) :
    M.Reach ok t := by
  have hreach : (M.restrict fun s a => decide (ok s a)).Reach anyStep t :=
    System.Reach.exec (.init hinit) labels hrun
  exact hreach.of_restrict fun s a => of_decide_eq_true

section Update

variable {ι β : Type*} [DecidableEq ι] {f g : ι → β} {i j : ι} {v : β}

/-- A step that rewrites the value of one party: a property that the new value
does not have was there before, at some other party. -/
theorem update_back (hg : g = Function.update f i v) (P : β → Prop) (hv : ¬P v)
    (hj : P (g j)) : j ≠ i ∧ P (f j) := by
  have hne : j ≠ i := by
    rintro rfl
    rw [hg, Function.update_self] at hj
    exact hv hj
  rw [hg, Function.update_of_ne hne] at hj
  exact ⟨hne, hj⟩

theorem update_keeps (hg : g = Function.update f i v) (P : β → Prop)
    (hi : ¬P (f i)) (hj : P (f j)) : j ≠ i ∧ P (g j) := by
  have hne : j ≠ i := by
    rintro rfl
    exact hi hj
  rw [hg, Function.update_of_ne hne]
  exact ⟨hne, hj⟩

end Update

/-- Two runs of one system side by side. A label of the pair gives a label to
each of them, so that what the runs may differ in is what `left` and `right`
make of it. -/
def System.lockstep {β : Type*} (M : System σ α) (left right : β → α)
    (init : σ → σ → Prop) : System (σ × σ) β where
  init p := init p.1 p.2
  next p b := (M.next p.1 (left b)).bind fun s =>
    (M.next p.2 (right b)).map fun t => (s, t)

theorem System.lockstep_next {β : Type*} {left right : β → α}
    {init : σ → σ → Prop} {p q : σ × σ} {b : β} :
    (M.lockstep left right init).next p b = some q ↔
      M.next p.1 (left b) = some q.1 ∧ M.next p.2 (right b) = some q.2 := by
  constructor
  · intro h
    obtain ⟨s, hs, hrest⟩ := Option.bind_eq_some_iff.mp h
    obtain ⟨t, ht, rfl⟩ := Option.map_eq_some_iff.mp hrest
    exact ⟨hs, ht⟩
  · rintro ⟨hs, ht⟩
    simp [System.lockstep, hs, ht]

end Libut.Machine
