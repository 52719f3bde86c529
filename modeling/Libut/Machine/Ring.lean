import Mathlib.Tactic
import Mathlib.Data.BitVec

/-!
Ring buffers over free-running `w`-bit counters: `head` counts pushes, `tail`
counts pops, both wrap, and a position is stored in slot `position % n`. The
window is the list of stored elements, oldest first. Every operation is a list
operation on the window as long as a push does not reuse a slot of the window;
this is automatic when `n` divides `2 ^ w` and the window is not full.
-/

namespace Libut.Machine

structure Ring (w : Nat) (τ : Type*) where
  slots : Nat → τ
  head : BitVec w
  tail : BitVec w

namespace Ring

variable {w : Nat} {τ : Type*} {n : Nat} (r : Ring w τ)

def length : Nat := (r.head - r.tail).toNat

/-- The slot of the position `i` places after the oldest one. -/
def slot (n : Nat) (i : Nat) : Nat := (r.tail + BitVec.ofNat w i).toNat % n

def window (n : Nat) : List τ :=
  (List.range r.length).map fun i => r.slots (r.slot n i)

/-- `rq[head++ % n] = x`. -/
def push (n : Nat) (x : τ) : Ring w τ :=
  { r with
    slots := Function.update r.slots (r.head.toNat % n) x
    head := r.head + 1 }

/-- `rq[head % n] = x`, the first half of a push. -/
def store (n : Nat) (x : τ) : Ring w τ :=
  { r with slots := Function.update r.slots (r.head.toNat % n) x }

/-- `head++`, the second half. -/
def publish : Ring w τ := { r with head := r.head + 1 }

/-- `rq[tail % n]`. -/
def front (n : Nat) : τ := r.slots (r.tail.toNat % n)

/-- `tail += m`. -/
def drop (m : BitVec w) : Ring w τ := { r with tail := r.tail + m }

/-- `head = tail = 0`. -/
def reset : Ring w τ := { r with head := 0, tail := 0 }

def Free (n : Nat) : Prop := ∀ i < r.length, r.slot n i ≠ r.head.toNat % n

variable {r}

theorem head_eq : r.head = r.tail + BitVec.ofNat w r.length := by
  rw [length, BitVec.ofNat_toNat, BitVec.setWidth_eq]
  ring

theorem length_eq_zero_iff : r.length = 0 ↔ r.head = r.tail := by
  constructor
  · intro h
    have := head_eq (r := r)
    rw [h] at this
    simpa using this
  · intro h
    simp [length, h]

theorem window_length : (r.window n).length = r.length := by
  simp [window]

theorem window_eq_nil_iff : r.window n = [] ↔ r.head = r.tail := by
  rw [← length_eq_zero_iff, ← window_length (n := n), List.length_eq_zero_iff]

theorem push_eq (x : τ) : r.push n x = (r.store n x).publish := rfl

theorem length_publish (hlen : r.length + 1 < 2 ^ w) :
    r.publish.length = r.length + 1 := by
  have hsub : r.head + 1 - r.tail = (r.head - r.tail) + 1 := by ring
  have hone : (1 : BitVec w).toNat = 1 % 2 ^ w := by simp
  change (r.head + 1 - r.tail).toNat = _
  rw [hsub, BitVec.toNat_add, hone, Nat.add_mod_mod]
  exact Nat.mod_eq_of_lt hlen

theorem length_push (x : τ) (hlen : r.length + 1 < 2 ^ w) :
    (r.push n x).length = r.length + 1 :=
  length_publish hlen

theorem length_drop {m : BitVec w} (hm : m.toNat ≤ r.length) :
    (r.drop m).length = r.length - m.toNat := by
  have hsub : r.head - (r.tail + m) = (r.head - r.tail) - m := by ring
  change (r.head - (r.tail + m)).toNat = _
  rw [hsub, BitVec.toNat_sub_of_le (BitVec.le_def.mpr hm)]
  rfl

@[simp]
theorem length_reset : r.reset.length = 0 :=
  length_eq_zero_iff.mpr rfl

@[simp]
theorem window_reset : r.reset.window n = [] :=
  window_eq_nil_iff.mpr rfl

theorem window_store (x : τ) (hfree : r.Free n) :
    (r.store n x).window n = r.window n := by
  refine List.map_congr_left fun i hi => ?_
  exact Function.update_of_ne (hfree i (List.mem_range.mp hi)) _ _

theorem window_publish (hlen : r.length + 1 < 2 ^ w) :
    r.publish.window n = r.window n ++ [r.slots (r.head.toNat % n)] := by
  have hslot : r.publish.slot n r.length = r.head.toNat % n := by
    rw [head_eq (r := r)]
    rfl
  rw [window, length_publish hlen, List.range_succ, List.map_append, window,
    List.map_singleton, hslot]
  rfl

theorem window_push (x : τ) (hlen : r.length + 1 < 2 ^ w) (hfree : r.Free n) :
    (r.push n x).window n = r.window n ++ [x] := by
  have hstored : (r.store n x).slots (r.head.toNat % n) = x :=
    Function.update_self ..
  rw [push_eq, window_publish (r := r.store n x) hlen, window_store x hfree]
  exact congrArg (r.window n ++ [·]) hstored

theorem slot_drop (m : BitVec w) (i : Nat) :
    (r.drop m).slot n i = r.slot n (m.toNat + i) := by
  have hadd : r.tail + m + BitVec.ofNat w i =
      r.tail + BitVec.ofNat w (m.toNat + i) := by
    rw [BitVec.ofNat_add, BitVec.ofNat_toNat, BitVec.setWidth_eq]
    ring
  change (r.tail + m + BitVec.ofNat w i).toNat % n = _
  rw [hadd]
  rfl

theorem window_drop {m : BitVec w} (hm : m.toNat ≤ r.length) :
    (r.drop m).window n = (r.window n).drop m.toNat := by
  apply List.ext_getElem
  · rw [window_length, length_drop hm, List.length_drop, window_length]
  · intro i hi _
    simp only [window, List.getElem_map, List.getElem_range, List.getElem_drop]
    rw [slot_drop]
    rfl

theorem slot_zero : r.slot n 0 = r.tail.toNat % n := by
  simp [slot]

theorem window_eq_front_cons (hne : r.head ≠ r.tail) :
    r.window n = r.front n :: (r.drop 1).window n := by
  have hpos : 0 < r.length :=
    Nat.pos_iff_ne_zero.mpr fun h => hne (length_eq_zero_iff.mp h)
  have hlt : r.length < 2 ^ w := (r.head - r.tail).isLt
  have hone : (1 : BitVec w).toNat = 1 := by
    have hmod : (1 : BitVec w).toNat = 1 % 2 ^ w := by simp
    rw [hmod, Nat.mod_eq_of_lt (by omega)]
  rw [window_drop (by rw [hone]; exact hpos), hone]
  apply List.ext_getElem
  · rw [List.length_cons, List.length_drop, window_length]
    omega
  · intro i hi _
    cases i with
    | zero => simp [window, front, slot_zero]
    | succ i =>
      rw [List.getElem_cons_succ, List.getElem_drop]
      congr 1
      omega

theorem Free.drop {m : BitVec w} (hfree : r.Free n) (hm : m.toNat ≤ r.length) :
    (r.drop m).Free n := by
  intro i hi
  rw [length_drop hm] at hi
  rw [slot_drop]
  exact hfree _ (by omega)

theorem front_store (x : τ) (hfree : r.Free n) (hne : r.head ≠ r.tail) :
    (r.store n x).front n = r.front n := by
  have hpos : 0 < r.length :=
    Nat.pos_iff_ne_zero.mpr fun h => hne (length_eq_zero_iff.mp h)
  have hslot := hfree 0 hpos
  rw [slot_zero] at hslot
  exact Function.update_of_ne hslot _ _

theorem mod_ne_of_near {a b n : Nat} (hlt : a < b) (hnear : b < a + n) :
    a % n ≠ b % n := by
  intro heq
  have hdvd := (Nat.modEq_iff_dvd' (Nat.le_of_lt hlt)).mp heq
  have hle := Nat.le_of_dvd (by omega) hdvd
  omega

theorem wrapped_slots_iff {p n t l : Nat} (ht : t < p) (hn : l < n)
    (hp : l < p) :
    (∀ i < l, (t + i) % p % n ≠ (t + l) % p % n) ↔
      p % n ≤ (t + l) % p ∨ l < p % n := by
  rcases Nat.lt_or_ge (t + l) p with hflat | hwrap
  · -- no wrap between tail and head
    rw [Nat.mod_eq_of_lt hflat]
    constructor
    · omega
    · intro _ i hi
      rw [Nat.mod_eq_of_lt (by omega : t + i < p)]
      exact mod_ne_of_near (by omega) (by omega)
  · have hhead : (t + l) % p = t + l - p := by
      rw [Nat.mod_eq_sub_mod hwrap, Nat.mod_eq_of_lt (by omega)]
    have hparts := Nat.div_add_mod p n
    rw [hhead]
    constructor
    · intro hfree
      by_contra hbad
      -- the position that shares the slot
      have hsame : t + (l - p % n) = n * (p / n) + (t + l - p) := by omega
      apply hfree (l - p % n) (by omega)
      rw [Nat.mod_eq_of_lt (by omega : t + (l - p % n) < p), hsame,
        Nat.mul_add_mod]
    · intro hsafe i hi heq
      rcases Nat.lt_or_ge (t + i) p with hbefore | hafter
      · rw [Nat.mod_eq_of_lt hbefore] at heq
        have hnear : (t + i) % n = (t + l - p) % n := heq
        have hdist : t + i + (l - i) = p + (t + l - p) := by omega
        have hmod : (l - i) % n = p % n := by
          have h : (t + i + (l - i)) % n = (p + (t + l - p)) % n := by
            rw [hdist]
          rw [Nat.add_mod, hnear, ← Nat.add_mod, Nat.add_comm] at h
          exact Nat.ModEq.add_right_cancel' _ h
        rw [Nat.mod_eq_of_lt (by omega)] at hmod
        omega
      · rw [Nat.mod_eq_sub_mod hafter,
          Nat.mod_eq_of_lt (by omega : t + i - p < p)] at heq
        exact mod_ne_of_near (by omega) (by omega) heq

/-- When a push meets a slot of the window: the counters wrap from the slot
`2 ^ w % n` to the slot 0, so a position after the wrap has the slot of the
position `2 ^ w % n` places before it, if that one is before the wrap. -/
theorem free_iff (hlen : r.length < n) :
    r.Free n ↔ 2 ^ w % n ≤ r.head.toNat ∨ r.length < 2 ^ w % n := by
  have hhead : r.head.toNat = (r.tail.toNat + r.length) % 2 ^ w := by
    rw [head_eq (r := r), BitVec.toNat_add, BitVec.toNat_ofNat, Nat.add_mod_mod]
  have hslot (i : Nat) : r.slot n i = (r.tail.toNat + i) % 2 ^ w % n := by
    rw [slot, BitVec.toNat_add, BitVec.toNat_ofNat, Nat.add_mod_mod]
  simp only [Free, hslot, hhead]
  exact wrapped_slots_iff r.tail.isLt hlen (r.head - r.tail).isLt

/-- In a ring whose size divides the range of the counters, the slots of
fewer than `n + 1` consecutive positions are distinct. -/
theorem free_of_lt (hdvd : n ∣ 2 ^ w) (hlen : r.length < n) : r.Free n := by
  rw [free_iff hlen, Nat.mod_eq_zero_of_dvd hdvd]
  exact .inl (Nat.zero_le _)

end Ring

end Libut.Machine
