import Mathlib.Algebra.BigOperators.Group.Finset.Basic
import Mathlib.Algebra.BigOperators.Ring.Finset
import Mathlib.Tactic

/-!
Bookkeeping for quantities that are summed over a finite pool of owners. A
step changes the shares of one or two owners and leaves the others alone; the
total then changes by what the step brings in and takes out.
-/

namespace Libut.Machine

variable {κ M : Type*} [Fintype κ] [DecidableEq κ] [AddCommMonoid M]
  {f g : κ → M} {a b : M}

theorem sum_change_one {k : κ} (hother : ∀ j, j ≠ k → g j = f j)
    (hk : g k + a = f k + b) : ∑ j, g j + a = ∑ j, f j + b := by
  have hrest : ∑ j ∈ Finset.univ.erase k, g j =
      ∑ j ∈ Finset.univ.erase k, f j :=
    Finset.sum_congr rfl fun j hj => hother j (Finset.ne_of_mem_erase hj)
  rw [← Finset.add_sum_erase _ g (Finset.mem_univ k),
    ← Finset.add_sum_erase _ f (Finset.mem_univ k), hrest,
    add_right_comm, hk, add_right_comm]

theorem sum_change_two {k r : κ} (hkr : k ≠ r)
    (hother : ∀ j, j ≠ k → j ≠ r → g j = f j)
    (hboth : g k + g r + a = f k + f r + b) : ∑ j, g j + a = ∑ j, f j + b := by
  have hr : r ∈ Finset.univ.erase k :=
    Finset.mem_erase.mpr ⟨hkr.symm, Finset.mem_univ r⟩
  have hrest : ∑ j ∈ (Finset.univ.erase k).erase r, g j =
      ∑ j ∈ (Finset.univ.erase k).erase r, f j :=
    Finset.sum_congr rfl fun j hj =>
      hother j (Finset.ne_of_mem_erase (Finset.mem_of_mem_erase hj))
        (Finset.ne_of_mem_erase hj)
  rw [← Finset.add_sum_erase _ g (Finset.mem_univ k),
    ← Finset.add_sum_erase _ g hr, ← Finset.add_sum_erase _ f
      (Finset.mem_univ k), ← Finset.add_sum_erase _ f hr, hrest,
    ← add_assoc, ← add_assoc, add_right_comm, hboth, add_right_comm]

theorem card_filter_change {ι : Type*} [DecidableEq ι] {S : Finset ι}
    {P Q : ι → Prop} [DecidablePred P] [DecidablePred Q] {i : ι} (hi : i ∈ S)
    (hother : ∀ j, j ≠ i → (Q j ↔ P j)) :
    (S.filter Q).card + (if P i then 1 else 0) =
      (S.filter P).card + (if Q i then 1 else 0) := by
  have hrest : ∑ j ∈ S.erase i, (if Q j then 1 else 0) =
      ∑ j ∈ S.erase i, (if P j then 1 else 0) :=
    Finset.sum_congr rfl fun j hj => by
      simp only [hother j (Finset.ne_of_mem_erase hj)]
  rw [Finset.card_filter, Finset.card_filter,
    ← Finset.add_sum_erase S _ hi, ← Finset.add_sum_erase S _ hi, hrest]
  omega

end Libut.Machine
