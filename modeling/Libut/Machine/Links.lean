import Mathlib.Data.List.Chain
import Mathlib.Data.List.Nodup
import Mathlib.Logic.Function.Basic
import Mathlib.Tactic

/-!
Circular doubly linked lists whose links are part of the elements. All lists
share one memory of links: a node can be the head of a list or an element of
one, and moving an element from one list to another rewrites the links it and
its neighbours carry.

`Listed` says that the links from a head form the circle through the given
elements. `Lists` says that of several heads at once, with no node on two of
the circles, which is what keeps the lists from tearing each other apart.
-/

namespace Libut.Machine

open Function

structure Links (ν : Type*) where
  next : ν → ν
  prev : ν → ν

variable {ν : Type*}

/-- `b` follows `a`, by both of their links. -/
def Links.Follows (L : Links ν) (a b : ν) : Prop :=
  L.next a = b ∧ L.prev b = a

/-- The circle of `h` consists of `xs`, in this order. -/
structure Listed (L : Links ν) (h : ν) (xs : List ν) : Prop where
  circle : List.IsChain L.Follows ((h :: xs) ++ [h])
  nodup : (h :: xs).Nodup

section Chains

variable {L L' : Links ν} {h : ν} {xs ys : List ν}

theorem isChain_follows_congr {l : List ν} (hl : List.IsChain L.Follows l)
    (hnext : ∀ a ∈ l.dropLast, L'.next a = L.next a)
    (hprev : ∀ b ∈ l.tail, L'.prev b = L.prev b) :
    List.IsChain L'.Follows l := by
  induction hl with
  | nil => exact .nil
  | singleton a => exact .singleton a
  | @cons_cons a b l hab _ ih =>
    rw [List.dropLast_cons_cons] at hnext
    rw [List.isChain_cons_cons]
    constructor
    · constructor
      · rw [hnext a List.mem_cons_self, hab.1]
      · rw [hprev b List.mem_cons_self, hab.2]
    · apply ih
      · exact fun c hc => hnext c (List.mem_cons_of_mem _ hc)
      · exact fun c hc => hprev c (List.mem_cons_of_mem _ hc)

theorem Listed.congr (hl : Listed L h xs)
    (hsame : ∀ a ∈ h :: xs, L'.next a = L.next a ∧ L'.prev a = L.prev a) :
    Listed L' h xs := by
  refine ⟨isChain_follows_congr hl.circle ?_ ?_, hl.nodup⟩
  · intro a ha
    rw [List.dropLast_concat] at ha
    exact (hsame a ha).1
  · intro a ha
    apply (hsame a ?_).2
    rw [List.cons_append, List.tail_cons, List.mem_append] at ha
    rcases ha with ha | ha
    · exact List.mem_cons_of_mem _ ha
    · rw [List.mem_singleton] at ha
      exact ha ▸ List.mem_cons_self

theorem Listed.split {n : ν} (hl : Listed L h (xs ++ n :: ys)) :
    ∃ us z y vs, h :: xs = us ++ [z] ∧ ys ++ [h] = y :: vs ∧
      List.IsChain L.Follows (us ++ [z]) ∧ L.Follows z n ∧ L.Follows n y ∧
      List.IsChain L.Follows (y :: vs) := by
  obtain ⟨us, z, hz⟩ := List.eq_nil_or_concat (h :: xs) |>.resolve_left
    (List.cons_ne_nil h xs)
  rw [List.concat_eq_append] at hz
  obtain ⟨y, vs, hy⟩ := List.exists_cons_of_ne_nil
    (List.append_ne_nil_of_right_ne_nil ys (List.cons_ne_nil h []))
  have hcircle := hl.circle
  have heq : (h :: (xs ++ n :: ys)) ++ [h] = us ++ z :: n :: y :: vs := by
    calc (h :: (xs ++ n :: ys)) ++ [h]
        = (h :: xs) ++ n :: (ys ++ [h]) := by simp
      _ = us ++ z :: n :: y :: vs := by rw [hz, hy]; simp
  rw [heq, List.isChain_append_cons_cons, List.isChain_cons_cons] at hcircle
  obtain ⟨hbefore, hzn, hny, hafter⟩ := hcircle
  exact ⟨us, z, y, vs, hz, hy, hbefore, hzn, hny, hafter⟩

theorem Listed.last (hl : Listed L h xs) :
    ∃ us z, h :: xs = us ++ [z] ∧ List.IsChain L.Follows (us ++ [z]) ∧
      L.Follows z h := by
  obtain ⟨us, z, hz⟩ := List.eq_nil_or_concat (h :: xs) |>.resolve_left
    (List.cons_ne_nil h xs)
  rw [List.concat_eq_append] at hz
  have hcircle := hl.circle
  rw [hz, List.append_assoc, List.singleton_append,
    List.isChain_append_cons_cons] at hcircle
  exact ⟨us, z, hz, hcircle.1, hcircle.2.1⟩

theorem Listed.next_nil (hl : Listed L h []) : L.next h = h := by
  have hcircle := hl.circle
  rw [List.singleton_append, List.isChain_cons_cons] at hcircle
  exact hcircle.1.1

theorem Listed.next_cons {x : ν} (hl : Listed L h (x :: xs)) :
    L.next h = x := by
  have hcircle := hl.circle
  rw [List.cons_append, List.cons_append, List.isChain_cons_cons] at hcircle
  exact hcircle.1.1

theorem Listed.next_eq_iff (hl : Listed L h xs) : L.next h = h ↔ xs = [] := by
  cases xs with
  | nil => exact ⟨fun _ => rfl, fun _ => hl.next_nil⟩
  | cons x xs =>
    rw [hl.next_cons]
    constructor
    · rintro rfl
      exact absurd List.mem_cons_self (List.nodup_cons.mp hl.nodup).1
    · exact fun hnil => absurd hnil (List.cons_ne_nil x xs)

end Chains

section Family

variable [DecidableEq ν] {L L' : Links ν} {m : ν → Option (List ν)} {h n : ν}
  {xs ys : List ν}

/-- The lists of all heads that `m` has a list for, none with a node of
another. -/
structure Lists (L : Links ν) (m : ν → Option (List ν)) : Prop where
  listed : ∀ h xs, m h = some xs → Listed L h xs
  apart : ∀ h h' xs ys, h ≠ h' → m h = some xs → m h' = some ys →
    List.Disjoint (h :: xs) (h' :: ys)

def Unlisted (m : ν → Option (List ν)) (n : ν) : Prop :=
  ∀ h xs, m h = some xs → n ∉ h :: xs

section

omit [DecidableEq ν]

theorem Lists.empty (L : Links ν) : Lists L fun _ => none := by
  constructor
  · intro _ _ h
    cases h
  · intro _ _ _ _ _ h
    cases h

theorem Unlisted.empty (n : ν) : Unlisted (fun _ => none) n := by
  intro _ _ h
  cases h

theorem Lists.congr (hl : Lists L m)
    (hsame : ∀ h xs, m h = some xs → ∀ a ∈ h :: xs,
      L'.next a = L.next a ∧ L'.prev a = L.prev a) : Lists L' m := by
  refine ⟨fun h xs hxs => ?_, hl.apart⟩
  exact (hl.listed h xs hxs).congr (hsame h xs hxs)

end

/-- One list changes: the others keep their nodes and the links of these. -/
theorem Lists.update (hl : Lists L m) (hxs : Listed L' h xs)
    (hother : ∀ h' ys, h' ≠ h → m h' = some ys →
      List.Disjoint (h :: xs) (h' :: ys) ∧
      ∀ a ∈ h' :: ys, L'.next a = L.next a ∧ L'.prev a = L.prev a) :
    Lists L' (update m h (some xs)) := by
  constructor
  · intro h' ys hys
    rcases eq_or_ne h' h with rfl | hne
    · rw [update_self] at hys
      cases hys
      exact hxs
    · rw [update_of_ne hne] at hys
      exact (hl.listed h' ys hys).congr (hother h' ys hne hys).2
  · intro h₁ h₂ ys zs hne hys hzs
    rcases eq_or_ne h₁ h with rfl | hne₁
    · rw [update_self] at hys
      rw [update_of_ne hne.symm] at hzs
      cases hys
      exact (hother h₂ zs hne.symm hzs).1
    · rw [update_of_ne hne₁] at hys
      rcases eq_or_ne h₂ h with rfl | hne₂
      · rw [update_self] at hzs
        cases hzs
        exact (hother h₁ ys hne₁ hys).1.symm
      · rw [update_of_ne hne₂] at hzs
        exact hl.apart h₁ h₂ ys zs hne hys hzs

theorem Lists.forget (hl : Lists L m) (h : ν) :
    Lists L (Function.update m h none) := by
  have hold : ∀ h' ys, Function.update m h none h' = some ys →
      m h' = some ys := by
    intro h' ys hys
    rcases eq_or_ne h' h with rfl | hne
    · rw [update_self] at hys
      cases hys
    · rwa [update_of_ne hne] at hys
  constructor
  · exact fun h' ys hys => hl.listed h' ys (hold h' ys hys)
  · intro h₁ h₂ ys zs hne hys hzs
    exact hl.apart h₁ h₂ ys zs hne (hold h₁ ys hys) (hold h₂ zs hzs)

end Family

end Libut.Machine
