import Mathlib.Tactic
import Libut.Base.Lrpc

/-!
Shared memory descriptors (`inc/hwalloc/shm.h`). A runtime describes its
queues by offsets into a region that it shares with the daemon; the daemon
turns the offsets into pointers with `shmptr_to_ptr`. All arithmetic is
modulo `2 ^ 64`, and the table size is truncated to 32 bits when it reaches
`lrpc_init_in` or `lrpc_init_out`.
-/

namespace Libut.Hwalloc

open Base

structure ShmRegion where
  base : BitVec 64
  len : BitVec 64
  deriving DecidableEq, Repr

structure QueueSpec where
  msgCount : BitVec 64
  msgBuf : BitVec 64
  wb : BitVec 64
  deriving DecidableEq, Repr

def lrpcMsgSize : BitVec 64 := 16

/-- `shmptr_to_ptr`; the null pointer is `0`. -/
def shmptrToPtr (r : ShmRegion) (shmptr len : BitVec 64) : BitVec 64 :=
  if BitVec.allOnes 64 - shmptr < r.len ∨ r.len < shmptr + len then 0
  else shmptr + r.base

/-- The common body of `shm_init_lrpc_in` and `shm_init_lrpc_out`, which
differ in the channel they initialize. -/
def shmInitLrpc {γ : Type}
    (init : BitVec 64 → BitVec 32 → BitVec 64 → Except Errno γ)
    (r : ShmRegion) (s : QueueSpec) : Except Errno γ :=
  let tbl := shmptrToPtr r s.msgBuf (lrpcMsgSize * s.msgCount)
  if tbl = 0 then .error .EINVAL
  else
    let wb := shmptrToPtr r s.wb 4
    if wb = 0 then .error .EINVAL
    else init tbl (s.msgCount.setWidth 32) wb

def shmInitLrpcIn (r : ShmRegion) (s : QueueSpec) : Except Errno LrpcChanIn :=
  shmInitLrpc lrpcInitIn r s

def shmInitLrpcOut (r : ShmRegion) (s : QueueSpec) :
    Except Errno LrpcChanOut :=
  shmInitLrpc lrpcInitOut r s

/-- The `n` bytes at `addr` lie in the region. -/
def Inside (r : ShmRegion) (addr : BitVec 64) (n : Nat) : Prop :=
  r.base.toNat ≤ addr.toNat ∧
    addr.toNat + n ≤ r.base.toNat + r.len.toNat

instance (r : ShmRegion) (addr : BitVec 64) (n : Nat) :
    Decidable (Inside r addr n) :=
  inferInstanceAs (Decidable (_ ∧ _))

def QueueInside (r : ShmRegion) (tbl : BitVec 64) (size : BitVec 32)
    (wb : BitVec 64) : Prop :=
  (∀ i : BitVec 32, i < size →
    Inside r (tbl + lrpcMsgSize * i.setWidth 64) 16) ∧
  Inside r wb 4

/-- The offsets for which `shmptr_to_ptr` has no pointer: one of its two
comparisons holds, or the sum it would return is the null pointer. -/
def PtrRejected (r : ShmRegion) (shmptr len : BitVec 64) : Prop :=
  BitVec.allOnes 64 - shmptr < r.len ∨ r.len < shmptr + len ∨
    shmptr + r.base = 0

def Rejected (r : ShmRegion) (s : QueueSpec) : Prop :=
  PtrRejected r s.msgBuf (lrpcMsgSize * s.msgCount) ∨
    PtrRejected r s.wb 4 ∨
    isPowerOfTwo (s.msgCount.setWidth 32) = false

/-- The sum `shmptr + len` of the bounds check passes `2 ^ 64`. -/
def SumWraps (shmptr len : BitVec 64) : Prop :=
  2 ^ 64 ≤ shmptr.toNat + len.toNat

def TableFits (r : ShmRegion) (s : QueueSpec) : Prop :=
  s.msgBuf.toNat + 16 * (s.msgCount.setWidth 32).toNat ≤ r.len.toNat

variable {r : ShmRegion}

theorem shmptrToPtr_eq_zero_iff {shmptr len : BitVec 64} :
    shmptrToPtr r shmptr len = 0 ↔ PtrRejected r shmptr len := by
  unfold shmptrToPtr PtrRejected
  rw [← or_assoc]
  split_ifs with hcheck
  · exact ⟨fun _ => Or.inl hcheck, fun _ => rfl⟩
  · exact ⟨Or.inr, fun h => h.resolve_left hcheck⟩

theorem shmptrToPtr_ne_zero {shmptr len : BitVec 64}
    (h : shmptrToPtr r shmptr len ≠ 0) :
    shmptrToPtr r shmptr len = shmptr + r.base ∧
      shmptr.toNat + r.len.toNat < 2 ^ 64 ∧
      (shmptr.toNat + len.toNat) % 2 ^ 64 ≤ r.len.toNat := by
  unfold shmptrToPtr at h ⊢
  split at h
  · exact absurd rfl h
  · rename_i hcheck
    have hlt := shmptr.isLt
    have hle : shmptr ≤ BitVec.allOnes 64 := by
      rw [BitVec.le_def, BitVec.toNat_allOnes]
      omega
    rw [if_neg hcheck]
    rw [not_or, BitVec.not_lt, BitVec.not_lt, BitVec.le_def, BitVec.le_def,
      BitVec.toNat_add, BitVec.toNat_sub_of_le hle,
      BitVec.toNat_allOnes] at hcheck
    exact ⟨rfl, by omega, hcheck.2⟩

theorem shmInitLrpc_ok_iff {γ : Type}
    {init : BitVec 64 → BitVec 32 → BitVec 64 → Except Errno γ} {s : QueueSpec}
    {c : γ} :
    shmInitLrpc init r s = .ok c ↔
      shmptrToPtr r s.msgBuf (lrpcMsgSize * s.msgCount) ≠ 0 ∧
      shmptrToPtr r s.wb 4 ≠ 0 ∧
      init (shmptrToPtr r s.msgBuf (lrpcMsgSize * s.msgCount))
        (s.msgCount.setWidth 32) (shmptrToPtr r s.wb 4) = .ok c := by
  unfold shmInitLrpc
  dsimp only
  split_ifs with htbl hwb
  · constructor
    · intro h
      cases h
    · intro h
      exact absurd htbl h.1
  · constructor
    · intro h
      cases h
    · intro h
      exact absurd hwb h.2.1
  · exact ⟨fun h => ⟨htbl, hwb, h⟩, fun h => h.2.2⟩

/-- Both init functions succeed exactly on the descriptors that pass every
check, and then hold the pointers that `shmptr_to_ptr` computed. -/
theorem shmInitLrpcIn_ok_iff {s : QueueSpec} {c : LrpcChanIn} :
    shmInitLrpcIn r s = .ok c ↔
      ¬ Rejected r s ∧
        c = ⟨shmptrToPtr r s.msgBuf (lrpcMsgSize * s.msgCount),
          shmptrToPtr r s.wb 4, 0, s.msgCount.setWidth 32⟩ := by
  rw [shmInitLrpcIn, shmInitLrpc_ok_iff, lrpcInitIn_ok_iff, Rejected, not_or,
    not_or, Bool.not_eq_false, and_assoc, and_assoc, ← shmptrToPtr_eq_zero_iff,
    ← shmptrToPtr_eq_zero_iff]

theorem shmInitLrpcOut_ok_iff {s : QueueSpec} {c : LrpcChanOut} :
    shmInitLrpcOut r s = .ok c ↔
      ¬ Rejected r s ∧
        c = ⟨shmptrToPtr r s.msgBuf (lrpcMsgSize * s.msgCount),
          shmptrToPtr r s.wb 4, 0, 0, s.msgCount.setWidth 32⟩ := by
  rw [shmInitLrpcOut, shmInitLrpc_ok_iff, lrpcInitOut_ok_iff, Rejected,
    not_or, not_or, Bool.not_eq_false, and_assoc, and_assoc,
    ← shmptrToPtr_eq_zero_iff, ← shmptrToPtr_eq_zero_iff]

section Region

variable {r : ShmRegion} (hregion : r.base.toNat + r.len.toNat < 2 ^ 64)

include hregion

theorem inside_iff (off : BitVec 64) {n : Nat} (hn : 0 < n) :
    Inside r (off + r.base) n ↔ off.toNat + n ≤ r.len.toNat := by
  unfold Inside
  rw [BitVec.toNat_add]
  have hoff := off.isLt
  omega

/-- The slots of a non-empty table are all inside exactly when the last one
is: the first slot past the end would be met without wrapping. -/
theorem table_inside_iff {msgBuf : BitVec 64} {size : BitVec 32}
    (hsize : size ≠ 0) (hbuf : msgBuf.toNat + r.len.toNat < 2 ^ 64) :
    (∀ i : BitVec 32, i < size →
      Inside r (msgBuf + r.base + lrpcMsgSize * i.setWidth 64) 16) ↔
      msgBuf.toNat + 16 * size.toNat ≤ r.len.toNat := by
  have hpos : 0 < size.toNat := by
    rw [Nat.pos_iff_ne_zero]
    intro hzero
    exact hsize (BitVec.eq_of_toNat_eq (by simpa using hzero))
  have hlt := size.isLt
  have hoff (i : BitVec 32) :
      (msgBuf + lrpcMsgSize * i.setWidth 64).toNat =
        (msgBuf.toNat + 16 * i.toNat) % 2 ^ 64 := by
    have hi := i.isLt
    rw [BitVec.toNat_add, BitVec.toNat_mul, BitVec.toNat_setWidth,
      Nat.mod_eq_of_lt (by omega : i.toNat < 2 ^ 64)]
    change (_ + (16 * i.toNat) % 2 ^ 64) % 2 ^ 64 = _
    rw [Nat.mod_eq_of_lt (by omega : 16 * i.toNat < 2 ^ 64)]
  have hslot (i : BitVec 32) :
      Inside r (msgBuf + r.base + lrpcMsgSize * i.setWidth 64) 16 ↔
        (msgBuf.toNat + 16 * i.toNat) % 2 ^ 64 + 16 ≤ r.len.toNat := by
    rw [← hoff i, ← inside_iff hregion _ (by decide), BitVec.add_assoc,
      BitVec.add_comm r.base, ← BitVec.add_assoc]
  constructor
  · intro hall
    by_contra hover
    have hzero := (hslot 0).mp (hall 0 (by rw [BitVec.lt_def]; simpa using hpos))
    -- the slot in which the region ends
    let edge := (r.len.toNat - msgBuf.toNat) / 16
    have hbuflt := msgBuf.isLt
    simp only [BitVec.ofNat_eq_ofNat, BitVec.toNat_ofNat, Nat.zero_mod,
      Nat.mul_zero, Nat.add_zero, Nat.mod_eq_of_lt hbuflt] at hzero
    have hedge : edge < size.toNat := by
      dsimp only [edge]
      omega
    have hedge' : (BitVec.ofNat 32 edge).toNat = edge := by
      rw [BitVec.toNat_ofNat, Nat.mod_eq_of_lt (by omega)]
    have hlast := (hslot (BitVec.ofNat 32 edge)).mp
      (hall _ (by rw [BitVec.lt_def, hedge']; exact hedge))
    have hlen := r.len.isLt
    rw [hedge', Nat.mod_eq_of_lt (by dsimp only [edge]; omega)] at hlast
    dsimp only [edge] at hlast
    omega
  · intro hfits i hi
    have hi' : i.toNat < size.toNat := BitVec.lt_def.mp hi
    rw [hslot i, Nat.mod_eq_of_lt (by omega)]
    omega

theorem queue_inside_iff {s : QueueSpec} (hok : ¬ Rejected r s) :
    QueueInside r
        (shmptrToPtr r s.msgBuf (lrpcMsgSize * s.msgCount))
        (s.msgCount.setWidth 32) (shmptrToPtr r s.wb 4) ↔
      (¬ SumWraps s.msgBuf (lrpcMsgSize * s.msgCount) ∨ TableFits r s) ∧
        ¬ SumWraps s.wb 4 := by
  simp only [Rejected, ← shmptrToPtr_eq_zero_iff, not_or,
    Bool.not_eq_false] at hok
  obtain ⟨htbl, hwb, hpow⟩ := hok
  obtain ⟨htblEq, hbuf, hsum⟩ := shmptrToPtr_ne_zero htbl
  obtain ⟨hwbEq, hwbLen, hwbSum⟩ := shmptrToPtr_ne_zero hwb
  have hsize : s.msgCount.setWidth 32 ≠ 0 := by
    intro hzero
    rw [hzero] at hpow
    exact absurd hpow (by decide)
  have hfour : (4 : BitVec 64).toNat = 4 := rfl
  rw [QueueInside, htblEq, hwbEq, table_inside_iff hregion hsize hbuf,
    inside_iff hregion _ (by decide)]
  unfold SumWraps TableFits
  rw [hfour] at hwbSum ⊢
  have hprod : 16 * (s.msgCount.setWidth 32).toNat ≤
      (lrpcMsgSize * s.msgCount).toNat := by
    rw [BitVec.toNat_mul, BitVec.toNat_setWidth]
    change _ ≤ 16 * s.msgCount.toNat % 2 ^ 64
    omega
  have hwblt := s.wb.isLt
  omega

/-- For every region that does not wrap and every descriptor: the channel the
daemon attaches stays inside the region, unless the bounds check accepted a
sum that wrapped. The checks turn the descriptor down, or the offset plus the
table length does not pass `2 ^ 64` (or passes it although the truncated table
fits), and the offset of the write-back word plus four does not pass it. -/
theorem shm_queue_inside_iff (s : QueueSpec) :
    ((∀ c, shmInitLrpcIn r s = .ok c →
        QueueInside r c.tbl c.size c.recvHeadWb) ∧
      (∀ c, shmInitLrpcOut r s = .ok c →
        QueueInside r c.tbl c.size c.recvHeadWb)) ↔
      Rejected r s ∨
        ((¬ SumWraps s.msgBuf (lrpcMsgSize * s.msgCount) ∨ TableFits r s) ∧
          ¬ SumWraps s.wb 4) := by
  simp only [shmInitLrpcIn_ok_iff, shmInitLrpcOut_ok_iff]
  by_cases hok : Rejected r s
  · simp [hok]
  · simp only [hok, not_false_eq_true, true_and, false_or, forall_eq]
    rw [queue_inside_iff hregion hok, and_self]

end Region

/-- A descriptor of 128 messages at offset `0x1000` of a 2 MB region. -/
theorem shm_queue_inside_plain :
    let r : ShmRegion := ⟨0x200000, 0x200000⟩
    let s : QueueSpec := ⟨128, 0x1000, 0x2000⟩
    r.base.toNat + r.len.toNat < 2 ^ 64 ∧
      ∀ c, shmInitLrpcIn r s = .ok c →
        QueueInside r c.tbl c.size c.recvHeadWb := by
  intro r s
  have hregion : r.base.toNat + r.len.toNat < 2 ^ 64 := by decide
  have hwraps : ¬ SumWraps s.msgBuf (lrpcMsgSize * s.msgCount) ∧
      ¬ SumWraps s.wb 4 := by
    unfold SumWraps
    decide
  exact ⟨hregion, ((shm_queue_inside_iff hregion s).mpr
    (Or.inr ⟨Or.inl hwraps.1, hwraps.2⟩)).1⟩

/-- A 2 MB region with a descriptor whose offset and length add up to exactly
`2 ^ 64`: both init functions succeed, and the only slot lies far outside. -/
theorem shm_queue_escapes :
    ∃ (r : ShmRegion) (s : QueueSpec) (cin : LrpcChanIn) (cout : LrpcChanOut),
      r.base.toNat + r.len.toNat < 2 ^ 64 ∧
      shmInitLrpcIn r s = .ok cin ∧ shmInitLrpcOut r s = .ok cout ∧
      ¬ QueueInside r cin.tbl cin.size cin.recvHeadWb ∧
      ¬ QueueInside r cout.tbl cout.size cout.recvHeadWb := by
  let r : ShmRegion := ⟨0x200000, 0x200000⟩
  let s : QueueSpec := ⟨0x0800000000000001, 0x7ffffffffffffff0, 0⟩
  have hslot : ¬ Inside r 0x80000000001ffff0 16 := by decide
  refine ⟨r, s, ⟨0x80000000001ffff0, 0x200000, 0, 1⟩,
    ⟨0x80000000001ffff0, 0x200000, 0, 0, 1⟩, by decide, by decide, by decide,
    ?_, ?_⟩
  · intro h
    exact hslot (h.1 0 (by decide))
  · intro h
    exact hslot (h.1 0 (by decide))

end Libut.Hwalloc
