import Mathlib.Tactic

/-!
Free-running `w`-bit counters. A counter that has been incremented `n` times
from zero holds `BitVec.ofNat w n`; the lemmas read the usual ring-buffer
expressions (masking, lap bit, distance) off the unbounded count `n`, so that
a proof about a ring never meets the wrap at `2 ^ w` again.
-/

namespace Libut.Machine.Counter

variable {w k : Nat}

theorem succ (n : Nat) : (BitVec.ofNat w n) + 1 = BitVec.ofNat w (n + 1) := by
  apply BitVec.eq_of_toNat_eq
  simp [BitVec.toNat_add, BitVec.toNat_ofNat, Nat.add_mod]

theorem ofNat_ne {m n : Nat} (hm : m < 2 ^ w) (hn : n < 2 ^ w) (hne : m ≠ n) :
    BitVec.ofNat w m ≠ BitVec.ofNat w n := by
  intro heq
  have hnat := congrArg BitVec.toNat heq
  rw [BitVec.toNat_ofNat, BitVec.toNat_ofNat, Nat.mod_eq_of_lt hm,
    Nat.mod_eq_of_lt hn] at hnat
  exact hne hnat

theorem sub_one_toNat {size : BitVec w} (hsize : size.toNat = 2 ^ k) :
    (size - 1).toNat = 2 ^ k - 1 := by
  have hpos : 0 < 2 ^ k := Nat.two_pow_pos k
  have hlt : size.toNat < 2 ^ w := size.isLt
  have hone : (1 : BitVec w).toNat = 1 % 2 ^ w := by simp
  rw [hsize] at hlt
  rw [BitVec.toNat_sub, hone, hsize]
  rcases Nat.lt_or_ge 1 (2 ^ w) with hw | hw
  · rw [Nat.mod_eq_of_lt hw]
    have heq : 2 ^ w - 1 + 2 ^ k = 2 ^ k - 1 + 2 ^ w := by omega
    rw [heq, Nat.add_mod_right, Nat.mod_eq_of_lt (by omega)]
  · omega

/-- Masking with `size - 1` selects the slot of the counter's current
position in a ring of `2 ^ k` slots. -/
theorem slot_toNat {size : BitVec w} (hsize : size.toNat = 2 ^ k) (n : Nat) :
    (BitVec.ofNat w n &&& (size - 1)).toNat = n % 2 ^ k := by
  have hlt : 2 ^ k < 2 ^ w := hsize ▸ size.isLt
  have hk : k ≤ w := ((Nat.pow_lt_pow_iff_right (by decide)).mp hlt).le
  rw [BitVec.toNat_and, sub_one_toNat hsize, Nat.and_two_pow_sub_one_eq_mod,
    BitVec.toNat_ofNat, Nat.mod_mod_of_dvd _ (Nat.pow_dvd_pow 2 hk)]

/-- Masking with `size` itself reads the parity of the lap. -/
theorem lap_eq_zero_iff {size : BitVec w} (hsize : size.toNat = 2 ^ k)
    (n : Nat) :
    BitVec.ofNat w n &&& size = 0 ↔ n / 2 ^ k % 2 = 0 := by
  have hlt : 2 ^ k < 2 ^ w := hsize ▸ size.isLt
  have hk : k < w := (Nat.pow_lt_pow_iff_right (by decide)).mp hlt
  have htwo : size = BitVec.twoPow w k := by
    apply BitVec.eq_of_toNat_eq
    rw [hsize, BitVec.toNat_twoPow, Nat.mod_eq_of_lt hlt]
  have hne : BitVec.twoPow w k ≠ 0#w := by
    rw [← htwo]
    intro hzero
    rw [hzero, BitVec.toNat_zero] at hsize
    exact (Nat.two_pow_pos k).ne hsize
  have hbit : (BitVec.ofNat w n).getLsbD k = decide (n / 2 ^ k % 2 = 1) := by
    rw [BitVec.getLsbD_ofNat, Nat.testBit_eq_decide_div_mod_eq]
    simp [hk]
  rw [htwo, BitVec.and_twoPow, hbit]
  rcases Nat.mod_two_eq_zero_or_one (n / 2 ^ k) with h | h <;> simp [h, hne]

theorem distance_toNat {a b : Nat} (hle : b ≤ a) (hlt : a - b < 2 ^ w) :
    (BitVec.ofNat w a - BitVec.ofNat w b).toNat = a - b := by
  obtain ⟨d, rfl⟩ := Nat.exists_eq_add_of_le hle
  have hd : d < 2 ^ w := by omega
  have heq : BitVec.ofNat w (b + d) - BitVec.ofNat w b = BitVec.ofNat w d := by
    rw [BitVec.ofNat_add, BitVec.add_comm, BitVec.add_sub_cancel]
  rw [heq, BitVec.toNat_ofNat, Nat.mod_eq_of_lt hd]
  omega

theorem slot_ne_of_lt {a b : Nat} (hab : a < b) (hlap : b < a + 2 ^ k) :
    a % 2 ^ k ≠ b % 2 ^ k := by
  intro heq
  obtain ⟨d, rfl⟩ := Nat.exists_eq_add_of_lt hab
  have hdvd : 2 ^ k ∣ d + 1 := by
    have h := (Nat.modEq_iff_dvd' (by omega : a ≤ a + d + 1)).mp heq
    simpa [Nat.add_assoc] using h
  exact absurd (Nat.le_of_dvd (by omega) hdvd) (by omega)

theorem lap_flip (n : Nat) :
    (n + 2 ^ k) / 2 ^ k % 2 = 0 ↔ n / 2 ^ k % 2 ≠ 0 := by
  rw [Nat.add_div_right _ (Nat.two_pow_pos k)]
  omega

end Libut.Machine.Counter
