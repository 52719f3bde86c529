import Mathlib.Data.List.Count
import Mathlib.Tactic

/-!
Reference counts. `count p` is the number of references to `p` that there are,
`ref p` the counter the program keeps, and `released` lists the objects whose
counter has reached zero. Taking and dropping a reference keeps the counter
right as long as no reference is taken to an object that has none left; then
every object is released once, when its last reference is dropped.
-/

namespace Libut.Machine

open Function

variable {π : Type*} [DecidableEq π]

structure Counted (made : π → Prop) (count : π → Nat) (ref : π → Int)
    (released : List π) : Prop where
  ref_eq : ∀ p, made p → ref p = count p
  unreferenced : ∀ p, made p → count p = 0 → released.count p = 1
  referenced : ∀ p, made p → count p ≠ 0 → p ∉ released
  unmade : ∀ p, ¬ made p → p ∉ released

variable {made made' : π → Prop} {count count' : π → Nat} {ref : π → Int}
  {released : List π} {p : π}

section

variable (h : Counted made count ref released)
include h

theorem Counted.congr (hcount : ∀ q, made q → count' q = count q) :
    Counted made count' ref released := by
  refine ⟨fun q hq => ?_, fun q hq hzero => ?_, fun q hq hpos => ?_, h.unmade⟩
  · rw [hcount q hq]
    exact h.ref_eq q hq
  · exact h.unreferenced q hq ((hcount q hq).symm.trans hzero)
  · apply h.referenced q hq
    rw [← hcount q hq]
    exact hpos

theorem Counted.get (hp : made p)
    (hpos : count p ≠ 0) (hself : count' p = count p + 1)
    (hother : ∀ q, q ≠ p → count' q = count q) :
    Counted made count' (update ref p (ref p + 1)) released := by
  refine ⟨fun q hq => ?_, fun q hq hzero => ?_, fun q hq hne => ?_, h.unmade⟩
  · rcases eq_or_ne q p with rfl | hqp
    · rw [update_self, h.ref_eq q hq, hself]
      rfl
    · rw [update_of_ne hqp, h.ref_eq q hq, hother q hqp]
  · have hqp : q ≠ p := by
      rintro rfl
      omega
    exact h.unreferenced q hq ((hother q hqp).symm.trans hzero)
  · rcases eq_or_ne q p with rfl | hqp
    · exact h.referenced q hq hpos
    · exact h.referenced q hq (hother q hqp ▸ hne)

theorem Counted.put (hp : made p) (hself : count p = count' p + 1)
    (hother : ∀ q, q ≠ p → count' q = count q) :
    Counted made count' (update ref p (ref p - 1))
      (if ref p - 1 = 0 then released ++ [p] else released) := by
  have hfresh : p ∉ released := h.referenced p hp (by omega)
  have hleft : ref p - 1 = 0 ↔ count' p = 0 := by
    rw [h.ref_eq p hp, hself]
    omega
  -- for another object the list has not changed
  have hmem : ∀ q, q ≠ p → ((if ref p - 1 = 0 then released ++ [p]
      else released).count q = released.count q) := by
    intro q hqp
    split_ifs
    · rw [List.count_append, List.count_singleton]
      simp [hqp.symm]
    · rfl
  refine ⟨fun q hq => ?_, fun q hq hzero => ?_, fun q hq hne => ?_,
    fun q hq => ?_⟩
  · rcases eq_or_ne q p with rfl | hqp
    · rw [update_self, h.ref_eq q hq, hself]
      push_cast
      ring
    · rw [update_of_ne hqp, h.ref_eq q hq, hother q hqp]
  · rcases eq_or_ne q p with rfl | hqp
    · rw [if_pos (hleft.mpr hzero), List.count_append,
        List.count_eq_zero.mpr hfresh, List.count_singleton_self]
    · rw [hmem q hqp]
      exact h.unreferenced q hq ((hother q hqp).symm.trans hzero)
  · rcases eq_or_ne q p with rfl | hqp
    · rw [if_neg fun hzero => hne (hleft.mp hzero)]
      exact hfresh
    · rw [← List.count_eq_zero, hmem q hqp, List.count_eq_zero]
      exact h.referenced q hq (hother q hqp ▸ hne)
  · have hqp : q ≠ p := by
      rintro rfl
      exact hq hp
    rw [← List.count_eq_zero, hmem q hqp, List.count_eq_zero]
    exact h.unmade q hq

theorem Counted.make (hp : ¬ made p) (hmade : ∀ q, made' q ↔ q = p ∨ made q)
    (hself : count' p = 1) (hother : ∀ q, q ≠ p → count' q = count q) :
    Counted made' count' (update ref p 1) released := by
  have hold : ∀ q, made' q → q ≠ p → made q := fun q hq hqp =>
    ((hmade q).mp hq).resolve_left hqp
  refine ⟨fun q hq => ?_, fun q hq hzero => ?_, fun q hq hne => ?_,
    fun q hq => ?_⟩
  · rcases eq_or_ne q p with rfl | hqp
    · rw [update_self, hself]
      rfl
    · rw [update_of_ne hqp, hother q hqp]
      exact h.ref_eq q (hold q hq hqp)
  · have hqp : q ≠ p := by
      rintro rfl
      omega
    exact h.unreferenced q (hold q hq hqp) ((hother q hqp).symm.trans hzero)
  · rcases eq_or_ne q p with rfl | hqp
    · exact h.unmade q hp
    · exact h.referenced q (hold q hq hqp) (hother q hqp ▸ hne)
  · exact h.unmade q fun hq' => hq ((hmade q).mpr (.inr hq'))

end

end Libut.Machine
