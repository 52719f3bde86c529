import Mathlib.Data.List.Basic
import Mathlib.Data.List.Nodup
import Mathlib.Tactic

/-!
Removal from an unordered array by moving the last element into the hole, and
arrays whose elements know their own position.
-/

namespace Libut.Machine

variable {α : Type*}

def swapRemove (l : List α) (i : Nat) : List α :=
  match l.getLast? with
  | none => []
  | some last => (l.set i last).dropLast

theorem swapRemove_concat (l : List α) (i : Nat) (last : α) :
    swapRemove (l ++ [last]) i = l.set i last := by
  have hlast : (l ++ [last]).getLast? = some last := by simp
  rw [swapRemove, hlast]
  change ((l ++ [last]).set i last).dropLast = _
  rcases Nat.lt_or_ge i l.length with hi | hi
  · simp [List.set_append_left _ _ hi]
  · rw [List.set_append_right _ _ hi, List.set_eq_of_length_le hi]
    rcases Nat.eq_or_lt_of_le hi with rfl | hlt
    · simp
    · rw [List.set_eq_of_length_le (by simp; omega)]
      simp

theorem swapRemove_length (l : List α) (i : Nat) :
    (swapRemove l i).length = l.length - 1 := by
  rcases List.eq_nil_or_concat l with rfl | ⟨init, last, rfl⟩
  · rfl
  · rw [List.concat_eq_append, swapRemove_concat]
    simp

theorem swapRemove_perm {l : List α} {i : Nat} {a : α} (h : l[i]? = some a) :
    (a :: swapRemove l i).Perm l := by
  rcases List.eq_nil_or_concat l with rfl | ⟨init, last, rfl⟩
  · simp at h
  · rw [List.concat_eq_append] at h ⊢
    rw [swapRemove_concat]
    rcases Nat.lt_or_ge i init.length with hi | hi
    · rw [List.getElem?_append_left hi] at h
      have hset := List.set_perm_cons_eraseIdx (a := last) hi
      obtain ⟨_, ha⟩ := List.getElem?_eq_some_iff.mp h
      have hget := List.getElem_cons_eraseIdx_perm hi
      rw [ha] at hget
      calc
        (a :: init.set i last).Perm (a :: last :: init.eraseIdx i) :=
          hset.cons a
        List.Perm _ (last :: a :: init.eraseIdx i) := List.Perm.swap ..
        List.Perm _ (last :: init) := hget.cons last
        List.Perm _ (init ++ [last]) :=
          (List.perm_append_singleton last init).symm
    · rw [List.getElem?_append_right hi] at h
      have hzero : i - init.length = 0 := by
        by_contra hne
        rw [List.getElem?_eq_none (by simp; omega)] at h
        cases h
      rw [hzero] at h
      have heq : last = a := by simpa using h
      rw [← heq, List.set_eq_of_length_le hi]
      exact (List.perm_append_singleton last init).symm

theorem swapRemove_map {β : Type*} (f : α → β) (l : List α) (i : Nat) :
    (swapRemove l i).map f = swapRemove (l.map f) i := by
  rcases List.eq_nil_or_concat l with rfl | ⟨init, last, rfl⟩
  · rfl
  · rw [List.concat_eq_append, swapRemove_concat, List.map_append,
      List.map_singleton, swapRemove_concat, List.map_set]

theorem idxOf?_of_mem [BEq α] [LawfulBEq α] {l : List α} {a : α} (ha : a ∈ l) :
    ∃ i, l.idxOf? a = some i ∧ l[i]? = some a := by
  obtain ⟨i, hidxOf⟩ : ∃ i, l.idxOf? a = some i := by
    rw [← Option.isSome_iff_exists, List.isSome_idxOf?]
    exact ha
  obtain ⟨hlt, heq, _⟩ := List.idxOf?_eq_some_iff.mp hidxOf
  exact ⟨i, hidxOf, List.getElem?_eq_some_iff.mpr ⟨hlt, heq⟩⟩

theorem map_set_of_eq {β : Type*} {f : α → β} {l : List α} {i : Nat} {a b : α}
    (ha : l[i]? = some a) (heq : f b = f a) : (l.set i b).map f = l.map f := by
  obtain ⟨hi, hget⟩ := List.getElem?_eq_some_iff.mp ha
  have hlt : i < (l.map f).length := by simpa using hi
  have hself : f b = (l.map f)[i] := by simp [heq, hget]
  rw [List.map_set, hself]
  apply List.set_getElem_self

def Indexed (l : List α) (idx : α → Option Nat) : Prop :=
  ∀ i a, l[i]? = some a → idx a = some i

variable {l : List α} {idx idx' : α → Option Nat} {i : Nat} {a : α}

section

variable (h : Indexed l idx)
include h

theorem Indexed.getElem? (ha : a ∈ l) (hi : idx a = some i) :
    l[i]? = some a := by
  obtain ⟨j, hj⟩ := List.mem_iff_getElem?.mp ha
  cases (h j a hj).symm.trans hi
  exact hj

theorem Indexed.nodup : l.Nodup := by
  refine List.nodup_iff_getElem?_ne_getElem?.mpr fun i j hij hj heq => ?_
  obtain ⟨a, ha⟩ : ∃ a, l[j]? = some a := ⟨l[j], List.getElem?_eq_getElem hj⟩
  have hi := h i a (heq.trans ha)
  rw [h j a ha, Option.some.injEq] at hi
  omega

theorem Indexed.congr (hidx : ∀ b ∈ l, idx' b = idx b) : Indexed l idx' := by
  intro j b hb
  rw [hidx b (List.mem_of_getElem? hb)]
  exact h j b hb

theorem Indexed.push (hidx : ∀ b ∈ l, idx' b = idx b)
    (ha : idx' a = some l.length) : Indexed (l ++ [a]) idx' := by
  intro j b hb
  rcases Nat.lt_or_ge j l.length with hj | hj
  · rw [List.getElem?_append_left hj] at hb
    exact h.congr hidx j b hb
  · obtain ⟨hlt, rfl⟩ := List.getElem?_eq_some_iff.mp hb
    simp only [List.length_append, List.length_singleton] at hlt
    obtain rfl : j = l.length := by omega
    simpa using ha

theorem Indexed.mem_swapRemove (hi : l[i]? = some a) {b : α} :
    b ∈ swapRemove l i ↔ b ∈ l ∧ b ≠ a := by
  have hperm := swapRemove_perm hi
  have hnodup := hperm.nodup_iff.mpr h.nodup
  rw [← hperm.mem_iff, List.mem_cons]
  refine ⟨fun hb => ⟨.inr hb, ?_⟩, fun hb => hb.1.resolve_left hb.2⟩
  rintro rfl
  exact (List.nodup_cons.mp hnodup).1 hb

theorem Indexed.swapRemove (hi : l[i]? = some a)
    (hlast : ∀ last ∈ l.getLast?, last ≠ a → idx' last = some i)
    (hother : ∀ b ∈ l, b ≠ a → b ∉ l.getLast? → idx' b = idx b) :
    Indexed (swapRemove l i) idx' := by
  intro j b hb
  obtain ⟨hmem, hne⟩ := (h.mem_swapRemove hi).mp (List.mem_of_getElem? hb)
  obtain ⟨init, last, rfl⟩ : ∃ init last, l = init ++ [last] := by
    rcases List.eq_nil_or_concat l with rfl | ⟨init, last, rfl⟩
    · cases hmem
    · exact ⟨init, last, by simp⟩
  rw [swapRemove_concat, List.getElem?_set] at hb
  split_ifs at hb with hij hlt
  · cases hb
    rw [hlast b (by simp) hne, hij]
  · have hj : (init ++ [last])[j]? = some b := by
      obtain ⟨hlt, _⟩ := List.getElem?_eq_some_iff.mp hb
      rw [List.getElem?_append_left hlt]
      exact hb
    have hnotlast : b ∉ (init ++ [last]).getLast? := by
      have hlast' : (init ++ [last])[init.length]? = some last := by simp
      intro hbl
      obtain rfl : last = b := by simpa using hbl
      have heq := (h j last hj).symm.trans (h _ last hlast')
      obtain ⟨hlt, _⟩ := List.getElem?_eq_some_iff.mp hb
      rw [Option.some.injEq] at heq
      omega
    rw [hother b hmem hne hnotlast]
    exact h j b hj

end

end Libut.Machine
