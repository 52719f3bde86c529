import Mathlib.Data.List.Nodup
import Mathlib.Data.List.Perm.Basic
import Mathlib.Logic.Function.Basic
import Mathlib.Tactic

/-!
Items that are each at one place. `f p` lists the items at place `p`; `Spread`
says that no item is listed twice, at one place or at two, and that together
they are the items of `out`. Items move between places, come in and go out.
-/

namespace Libut.Machine

variable {ι α : Type*}

structure Spread (f : ι → List α) (out : List α) : Prop where
  nodup : ∀ p, (f p).Nodup
  one : ∀ x p q, x ∈ f p → x ∈ f q → p = q
  all : ∀ x, x ∈ out ↔ ∃ p, x ∈ f p

variable {f : ι → List α} {out xs ys : List α} {p q : ι} {x : α}

section

variable (h : Spread f out)
include h

theorem Spread.unique (hx : x ∈ out) : ∃! p, x ∈ f p := by
  obtain ⟨p, hp⟩ := (h.all x).mp hx
  exact ⟨p, hp, fun q hq => h.one x q p hq hp⟩

theorem Spread.mem_out (hx : x ∈ f p) : x ∈ out :=
  (h.all x).mpr ⟨p, hx⟩

theorem Spread.ne {y : α} (hx : x ∈ f p) (hy : y ∈ f q) (hpq : p ≠ q) :
    x ≠ y := by
  rintro rfl
  exact hpq (h.one x p q hx hy)

theorem Spread.disjoint (hpq : p ≠ q) : List.Disjoint (f p) (f q) :=
  fun x hx hy => hpq (h.one x p q hx hy)

theorem Spread.move {g : ι → List α} (hpq : p ≠ q)
    (hperm : (g p ++ g q).Perm (f p ++ f q))
    (hother : ∀ r, r ≠ p → r ≠ q → g r = f r) : Spread g out := by
  have hold : (f p ++ f q).Nodup :=
    (h.nodup p).append (h.nodup q) (h.disjoint hpq)
  have hnew : (g p ++ g q).Nodup := hperm.nodup_iff.mpr hold
  have hdisj : List.Disjoint (g p) (g q) := List.disjoint_of_nodup_append hnew
  have hmem : ∀ x, x ∈ g p ∨ x ∈ g q ↔ x ∈ f p ∨ x ∈ f q := by
    intro x
    rw [← List.mem_append, ← List.mem_append]
    exact hperm.mem_iff
  -- an item at another place is not at `p` or `q`, before or after
  have hthird : ∀ x r, r ≠ p → r ≠ q → x ∈ g r → ¬ (x ∈ g p ∨ x ∈ g q) := by
    intro x r hrp hrq hx hy
    rw [hother r hrp hrq] at hx
    rcases (hmem x).mp hy with hy | hy
    · exact hrp (h.one x r p hx hy)
    · exact hrq (h.one x r q hx hy)
  constructor
  · intro r
    by_cases hrp : r = p
    · exact hrp ▸ (List.nodup_append.mp hnew).1
    · by_cases hrq : r = q
      · exact hrq ▸ (List.nodup_append.mp hnew).2.1
      · rw [hother r hrp hrq]
        exact h.nodup r
  · intro x r r' hx hx'
    have hone := h.one x r r'
    have hleft := hthird x r
    have hright := hthird x r'
    have hboth := @hdisj x
    by_cases hrp : r = p <;> by_cases hrq : r = q <;>
      by_cases hrp' : r' = p <;> by_cases hrq' : r' = q <;> grind
  · intro x
    rw [h.all]
    have hback := hmem x
    constructor
    · rintro ⟨r, hx⟩
      by_cases hrp : r = p <;> by_cases hrq : r = q <;> grind
    · rintro ⟨r, hx⟩
      by_cases hrp : r = p <;> by_cases hrq : r = q <;> grind

theorem Spread.add {g : ι → List α} (hempty : f p = []) (hnodup : (g p).Nodup)
    (hfresh : ∀ x ∈ g p, x ∉ out) (hother : ∀ r, r ≠ p → g r = f r) :
    Spread g (g p ++ out) := by
  constructor
  · intro r
    by_cases hrp : r = p
    · exact hrp ▸ hnodup
    · rw [hother r hrp]
      exact h.nodup r
  · intro x r r' hx hx'
    have hone := h.one x r r'
    have hout := h.all x
    by_cases hrp : r = p <;> by_cases hrp' : r' = p <;> grind
  · intro x
    rw [List.mem_append, h.all]
    constructor
    · rintro (hx | ⟨r, hx⟩)
      · exact ⟨p, hx⟩
      · have hrp : r ≠ p := by
          rintro rfl
          rw [hempty] at hx
          cases hx
        exact ⟨r, (hother r hrp).symm ▸ hx⟩
    · rintro ⟨r, hx⟩
      by_cases hrp : r = p
      · exact .inl (hrp ▸ hx)
      · exact .inr ⟨r, hother r hrp ▸ hx⟩

theorem Spread.insert {g : ι → List α} (hfresh : x ∉ out)
    (hperm : (g p).Perm (x :: f p)) (hother : ∀ r, r ≠ p → g r = f r) :
    Spread g (x :: out) := by
  have hnone : ∀ r, x ∉ f r := fun r hx => hfresh (h.mem_out hx)
  have hmem : ∀ y, y ∈ g p ↔ y = x ∨ y ∈ f p := by
    intro y
    rw [hperm.mem_iff, List.mem_cons]
  constructor
  · intro r
    by_cases hrp : r = p
    · exact hrp ▸ hperm.nodup_iff.mpr (List.nodup_cons.mpr ⟨hnone p, h.nodup p⟩)
    · rw [hother r hrp]
      exact h.nodup r
  · intro y r r' hy hy'
    have hone := h.one y r r'
    have hback := hmem y
    by_cases hrp : r = p <;> by_cases hrp' : r' = p <;> grind
  · intro y
    rw [List.mem_cons, h.all]
    have hback := hmem y
    constructor
    · rintro (rfl | ⟨r, hy⟩)
      · exact ⟨p, hback.mpr (.inl rfl)⟩
      · by_cases hrp : r = p
        · exact ⟨p, hback.mpr (.inr (hrp ▸ hy))⟩
        · exact ⟨r, (hother r hrp).symm ▸ hy⟩
    · rintro ⟨r, hy⟩
      by_cases hrp : r = p
      · rcases hback.mp (hrp ▸ hy) with heq | hold
        · exact .inl heq
        · exact .inr ⟨p, hold⟩
      · exact .inr ⟨r, hother r hrp ▸ hy⟩

theorem Spread.remove [DecidableEq α] {g : ι → List α}
    (hsplit : (xs ++ g p).Perm (f p)) (hother : ∀ r, r ≠ p → g r = f r) :
    Spread g (out.filter (· ∉ xs)) := by
  have hnodup : (xs ++ g p).Nodup := hsplit.nodup_iff.mpr (h.nodup p)
  have hdisj : List.Disjoint xs (g p) := List.disjoint_of_nodup_append hnodup
  have hmem : ∀ x, x ∈ xs ∨ x ∈ g p ↔ x ∈ f p := by
    intro x
    rw [← List.mem_append]
    exact hsplit.mem_iff
  constructor
  · intro r
    by_cases hrp : r = p
    · exact hrp ▸ (List.nodup_append.mp hnodup).2.1
    · rw [hother r hrp]
      exact h.nodup r
  · intro x r r' hx hx'
    have hone := h.one x r r'
    have hback := hmem x
    by_cases hrp : r = p <;> by_cases hrp' : r' = p <;> grind
  · intro x
    rw [List.mem_filter, h.all, decide_eq_true_eq]
    have hback := hmem x
    constructor
    · rintro ⟨⟨r, hx⟩, hnot⟩
      refine ⟨r, ?_⟩
      by_cases hrp : r = p <;> grind
    · rintro ⟨r, hx⟩
      have hold : x ∈ f r := by
        by_cases hrp : r = p <;> grind
      refine ⟨⟨r, hold⟩, fun hgone => ?_⟩
      have hrp : r = p := h.one x r p hold (hback.mp (.inl hgone))
      exact hdisj hgone (hrp ▸ hx)

end

section Refill

variable [DecidableEq ι]

/-- The items at `p` and `q` become `xs` and `ys`. -/
def refilled (f : ι → List α) (p q : ι) (xs ys : List α) : ι → List α :=
  Function.update (Function.update f p xs) q ys

theorem refilled_right : refilled f p q xs ys q = ys :=
  Function.update_self ..

theorem refilled_left (hpq : p ≠ q) : refilled f p q xs ys p = xs := by
  rw [refilled, Function.update_of_ne hpq, Function.update_self]

theorem refilled_other {r : ι} (hp : r ≠ p) (hq : r ≠ q) :
    refilled f p q xs ys r = f r := by
  rw [refilled, Function.update_of_ne hq, Function.update_of_ne hp]

theorem Spread.refill (h : Spread f out) (hpq : p ≠ q)
    (hperm : (xs ++ ys).Perm (f p ++ f q)) :
    Spread (refilled f p q xs ys) out := by
  apply h.move hpq
  · rw [refilled_left hpq, refilled_right]
    exact hperm
  · exact fun r => refilled_other

end Refill

end Libut.Machine
