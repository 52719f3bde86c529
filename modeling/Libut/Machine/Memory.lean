import Mathlib.Data.BitVec
import Mathlib.Tactic

/-!
Byte-addressed memory of a 64-bit machine. Words are little-endian and
addresses wrap. Two ranges are apart if they share no byte; what is stored in
one is not seen in the other.
-/

namespace Libut.Machine

abbrev Memory := BitVec 64 → BitVec 8

namespace Memory

variable {m m' m'' : Memory} {a b : BitVec 64} {n k : Nat}

def addr (a : BitVec 64) (i : Nat) : BitVec 64 := a + BitVec.ofNat 64 i

def load (m : Memory) (a : BitVec 64) : (n : Nat) → BitVec (8 * n)
  | 0 => 0
  | n + 1 => (m (addr a n) ++ load m a n).cast (Nat.add_comm 8 (8 * n))

def store (m : Memory) (a : BitVec 64) (n : Nat) (v : BitVec (8 * n)) :
    Memory :=
  fun b =>
    if (b - a).toNat < n then v.extractLsb' (8 * (b - a).toNat) 8 else m b

theorem addr_sub (a : BitVec 64) {i : Nat} (hi : i < 2 ^ 64) :
    (addr a i - a).toNat = i := by
  have hcancel : a + BitVec.ofNat 64 i - a = BitVec.ofNat 64 i := by ring
  rw [addr, hcancel, BitVec.toNat_ofNat, Nat.mod_eq_of_lt hi]

theorem addr_zero (a : BitVec 64) : addr a 0 = a := BitVec.add_zero a

theorem addr_addr (a : BitVec 64) (i j : Nat) :
    addr (addr a i) j = addr a (i + j) := by
  simp only [addr, BitVec.ofNat_add, BitVec.add_assoc]

theorem getLsbD_load (m : Memory) (a : BitVec 64) {j : Nat} (hj : j < 8 * n) :
    (load m a n).getLsbD j = (m (addr a (j / 8))).getLsbD (j % 8) := by
  induction n with
  | zero => omega
  | succ n ih =>
    rw [load, BitVec.getLsbD_cast, BitVec.getLsbD_append]
    split
    · rename_i hlow
      exact ih (by simpa using hlow)
    · rename_i hhigh
      have hge : 8 * n ≤ j := by simpa using hhigh
      have hdiv : j / 8 = n := by omega
      have hmod : j % 8 = j - 8 * n := by omega
      rw [hdiv, hmod]

theorem load_store (hn : n ≤ 2 ^ 64) (v : BitVec (8 * n)) :
    load (store m a n v) a n = v := by
  apply BitVec.eq_of_getLsbD_eq
  intro j hj
  have hlt : j / 8 < n := by omega
  rw [getLsbD_load _ _ hj, store, addr_sub a (by omega), if_pos hlt,
    BitVec.getLsbD_extractLsb']
  have hmod : j % 8 < 8 := Nat.mod_lt j (by decide)
  have hsum : 8 * (j / 8) + j % 8 = j := Nat.div_add_mod j 8
  simp [hmod, hsum]

def Apart (a : BitVec 64) (n : Nat) (b : BitVec 64) (k : Nat) : Prop :=
  ∀ i < n, ∀ j < k, addr a i ≠ addr b j

theorem Apart.part (h : Apart a n b k) {o l : Nat} (hl : o + l ≤ n) :
    Apart (addr a o) l b k := by
  intro i hi
  rw [addr_addr]
  exact h _ (by omega)

theorem Apart.first (h : Apart a n b k) {l : Nat} (hl : l ≤ n) :
    Apart a l b k := fun i hi => h i (by omega)

theorem apart_slots (a : BitVec 64) {o o' : Nat}
    (hslots : o + n ≤ o' ∨ o' + k ≤ o) (ho : o + n ≤ 2 ^ 64)
    (ho' : o' + k ≤ 2 ^ 64) : Apart (addr a o) n (addr a o') k := by
  intro i hi j hj heq
  rw [addr_addr, addr_addr] at heq
  have hsub := congrArg (fun b => (b - a).toNat) heq
  simp only [addr_sub a (show o + i < 2 ^ 64 by omega),
    addr_sub a (show o' + j < 2 ^ 64 by omega)] at hsub
  omega

def Changes (m m' : Memory) (a : BitVec 64) (n : Nat) : Prop :=
  ∀ b, (∀ i < n, b ≠ addr a i) → m' b = m b

theorem Changes.trans (h : Changes m m' a n) (h' : Changes m' m'' a n) :
    Changes m m'' a n := fun b hb => (h' b hb).trans (h b hb)

theorem Changes.widen {o : Nat} (h : Changes m m' (addr a o) k)
    (hk : o + k ≤ n) : Changes m m' a n := by
  intro b hb
  apply h
  intro i hi
  rw [addr_addr]
  exact hb _ (by omega)

theorem store_changes (m : Memory) (a : BitVec 64) (v : BitVec (8 * k)) :
    Changes m (store m a k v) a k := by
  intro b hb
  rw [store, if_neg]
  intro hin
  have hplace : b = addr a (b - a).toNat := by
    rw [addr, BitVec.ofNat_toNat, BitVec.setWidth_eq]
    ring
  exact hb _ hin hplace

def Same (m m' : Memory) (a : BitVec 64) (n : Nat) : Prop :=
  ∀ i < n, m' (addr a i) = m (addr a i)

theorem Same.trans (h : Same m m' a n) (h' : Same m' m'' a n) :
    Same m m'' a n := fun i hi => (h' i hi).trans (h i hi)

theorem Same.part (h : Same m m' a n) {o : Nat} (hk : o + k ≤ n) :
    Same m m' (addr a o) k := by
  intro i hi
  rw [addr_addr]
  exact h _ (by omega)

theorem Same.load (h : Same m m' a n) : load m' a n = load m a n := by
  induction n with
  | zero => rfl
  | succ n ih =>
    have hlow : Same m m' a n := fun i hi => h i (Nat.lt_succ_of_lt hi)
    rw [Memory.load, Memory.load, h n (Nat.lt_succ_self n), ih hlow]

theorem Same.first (h : Same m m' a n) (hk : k ≤ n) : Same m m' a k :=
  fun i hi => h i (by omega)

theorem Changes.same (h : Changes m m' b k) (hapart : Apart a n b k) :
    Same m m' a n := fun i hi => h _ fun j hj => hapart i hi j hj

theorem store_same (v : BitVec (8 * k)) (hapart : Apart a n b k) :
    Same m (store m b k v) a n := (store_changes m b v).same hapart

theorem load_store_apart {v : BitVec (8 * k)} (hapart : Apart a n b k) :
    load (store m b k v) a n = load m a n :=
  (store_same v hapart).load

end Memory

end Libut.Machine
