import Mathlib.Data.List.Range
import Mathlib.Tactic

/-!
Arrays of bits (`inc/base/bitmap.h`, `base/bitmap.c`). The search for the next
bit goes over whole words, the first of them masked; the loops that visit every
bit restart the search after each one. Positions are naturals: no caller passes
a negative one, and none comes near the limits of an `int`.
-/

namespace Libut.Base

def Bitmap := Nat → BitVec 64

def bitsPerLong : Nat := 64

def bitmapLongSize (nbits : Nat) : Nat :=
  (nbits + bitsPerLong - 1) / bitsPerLong

/-- `bitmap_init`: the words of a bitmap of `nbits` bits -/
def bitmapInit (bits : Bitmap) (nbits : Nat) (state : Bool) : Bitmap := fun i =>
  if i < bitmapLongSize nbits then if state then ~~~0 else 0 else bits i

def bitmapSet (bits : Bitmap) (pos : Nat) : Bitmap := fun i =>
  if i = pos / bitsPerLong then bits i ||| (1#64 <<< (pos % bitsPerLong))
  else bits i

def bitmapTest (bits : Bitmap) (pos : Nat) : Bool :=
  bits (pos / bitsPerLong) &&& (1#64 <<< (pos % bitsPerLong)) != 0

/-- `__builtin_ffsl`: one more than the position of the lowest bit set. -/
def ffsl (val : BitVec 64) : Nat :=
  match (List.range 64).find? (val.getLsbD ·) with
  | some b => b + 1
  | none => 0

/-- The word at `idx`, inverted in a search for cleared bits. -/
def bitmapWord (bits : Bitmap) (invert : Bool) (idx : Nat) : BitVec 64 :=
  if invert then ~~~bits (idx / bitsPerLong) else bits (idx / bitsPerLong)

/-- The loop of `bitmap_find_next`. -/
def bitmapScan (bits : Bitmap) (nbits : Nat) (invert : Bool) (idx : Nat)
    (mask : BitVec 64) : Nat :=
  if idx < nbits then
    if bitmapWord bits invert idx &&& mask ≠ 0 then
      min (idx + ffsl (bitmapWord bits invert idx &&& mask) - 1) nbits
    else bitmapScan bits nbits invert (idx + bitsPerLong) (~~~0)
  else nbits
termination_by nbits - idx
decreasing_by
  simp only [bitsPerLong]
  omega

def bitmapFindNext (bits : Bitmap) (nbits pos : Nat) (invert : Bool) : Nat :=
  bitmapScan bits nbits invert (pos / bitsPerLong * bitsPerLong)
    (~~~((1#64 <<< (pos % bitsPerLong)) - 1))

def bitmapFindNextSet (bits : Bitmap) (nbits pos : Nat) : Nat :=
  bitmapFindNext bits nbits pos false

section Words

theorem bitmapTest_eq (bits : Bitmap) (pos : Nat) :
    bitmapTest bits pos =
      (bits (pos / bitsPerLong)).getLsbD (pos % bitsPerLong) := by
  have hlt : pos % bitsPerLong < 64 := Nat.mod_lt _ (by decide)
  unfold bitmapTest
  rw [← BitVec.twoPow_eq, BitVec.and_twoPow]
  split
  · rename_i hbit
    rw [hbit]
    apply bne_iff_ne.mpr
    intro hzero
    have h := congrArg (BitVec.getLsbD · (pos % bitsPerLong)) hzero
    simp [hlt] at h
  · rename_i hbit
    simp [Bool.eq_false_of_not_eq_true hbit]

theorem bitmapTest_set (bits : Bitmap) (pos x : Nat) :
    bitmapTest (bitmapSet bits pos) x = (pos == x || bitmapTest bits x) := by
  have hlt : pos % bitsPerLong < 64 := Nat.mod_lt _ (by decide)
  have hpos := Nat.div_add_mod pos bitsPerLong
  have hx := Nat.div_add_mod x bitsPerLong
  rw [bitmapTest_eq, bitmapTest_eq, bitmapSet]
  by_cases hword : x / bitsPerLong = pos / bitsPerLong
  · have hsame : (pos % bitsPerLong = x % bitsPerLong) ↔ pos = x := by
      rw [hword] at hx
      omega
    rw [if_pos hword, BitVec.getLsbD_or, ← BitVec.twoPow_eq,
      BitVec.getLsbD_twoPow, Bool.or_comm]
    simp [hlt, hsame, Bool.beq_eq_decide_eq]
  · have hne : pos ≠ x := fun h => hword (h ▸ rfl)
    rw [if_neg hword]
    simp [hne]

theorem bitmapTest_init (bits : Bitmap) (nbits x : Nat) :
    bitmapTest (bitmapInit bits nbits false) x = true →
      nbits ≤ x ∧ bitmapTest bits x = true := by
  rw [bitmapTest_eq, bitmapTest_eq, bitmapInit]
  split
  · intro hset
    simp at hset
  · rename_i hword
    intro hset
    refine ⟨?_, hset⟩
    simp only [bitmapLongSize, bitsPerLong] at hword
    omega

theorem ffsl_spec {val : BitVec 64} (hne : val ≠ 0) :
    ∃ b < 64, ffsl val = b + 1 ∧ val.getLsbD b = true ∧
      ∀ c < b, val.getLsbD c = false := by
  unfold ffsl
  cases hfind : (List.range 64).find? (val.getLsbD ·) with
  | none =>
    exfalso
    apply hne
    apply BitVec.eq_of_getLsbD_eq
    intro c hc
    have hclear := List.find?_eq_none.mp hfind c (List.mem_range.mpr hc)
    simpa using hclear
  | some b =>
    obtain ⟨hset, hrange, hclear⟩ := List.find?_range_eq_some.mp hfind
    refine ⟨b, List.mem_range.mp hrange, rfl, hset, ?_⟩
    intro c hc
    simpa using hclear c hc

theorem mask_getLsbD {b c : Nat} (hb : b < 64) (hc : c < 64) :
    (~~~((1#64 <<< b) - 1)).getLsbD c = decide (b ≤ c) := by
  have hpos : 1 ≤ 2 ^ b := Nat.one_le_two_pow
  have hlt : 2 ^ b < 2 ^ 64 := Nat.pow_lt_pow_right (by decide) hb
  have hpow : (1#64 <<< b).toNat = 2 ^ b := by
    rw [← BitVec.twoPow_eq, BitVec.toNat_twoPow, Nat.mod_eq_of_lt hlt]
  have hnat : ((1#64 <<< b) - 1).toNat = 2 ^ b - 1 := by
    rw [BitVec.toNat_sub_of_le, hpow]
    · rfl
    · rw [BitVec.le_def, hpow]
      exact hpos
  rw [BitVec.getLsbD_not, BitVec.getLsbD, hnat, Nat.testBit_two_pow_sub_one]
  simp [hc, ← decide_not]

end Words

def sought (bits : Bitmap) (invert : Bool) (pos : Nat) : Bool :=
  bitmapTest bits pos != invert

/-- `r` is the first position from `pos` on where `p` holds, or `nbits` if
there is none below. -/
structure FirstFrom (p : Nat → Bool) (nbits pos r : Nat) : Prop where
  above : r < nbits → pos ≤ r
  below : r ≤ nbits
  clear : ∀ x, pos ≤ x → x < r → p x = false
  found : r < nbits → p r = true

section Search

variable {bits : Bitmap} {nbits idx lo : Nat} {invert : Bool}
  {mask : BitVec 64}

theorem word_getLsbD (bits : Bitmap) (invert : Bool)
    (hidx : idx % bitsPerLong = 0)
    (hmask : ∀ b < 64, mask.getLsbD b = decide (lo ≤ idx + b)) {b : Nat}
    (hb : b < 64) :
    (bitmapWord bits invert idx &&& mask).getLsbD b =
      (sought bits invert (idx + b) && decide (lo ≤ idx + b)) := by
  have hdiv : (idx + b) / bitsPerLong = idx / bitsPerLong := by
    simp only [bitsPerLong] at hidx ⊢
    omega
  have hmod : (idx + b) % bitsPerLong = b := by
    simp only [bitsPerLong] at hidx ⊢
    omega
  rw [BitVec.getLsbD_and, hmask b hb, sought, bitmapTest_eq, hdiv, hmod]
  cases invert <;> simp [bitmapWord, hb]

theorem bitmapScan_first (hidx : idx % bitsPerLong = 0) (hlo : idx ≤ lo)
    (hword : lo ≤ idx + bitsPerLong)
    (hmask : ∀ b < 64, mask.getLsbD b = decide (lo ≤ idx + b)) :
    FirstFrom (sought bits invert) nbits lo
      (bitmapScan bits nbits invert idx mask) := by
  fun_induction bitmapScan bits nbits invert idx mask generalizing lo with
  | case1 idx mask hlt hne =>
    obtain ⟨b, hb, hffs, hset, hclear⟩ := ffsl_spec hne
    rw [word_getLsbD bits invert hidx hmask hb, Bool.and_eq_true,
      decide_eq_true_iff] at hset
    rw [hffs, show idx + (b + 1) - 1 = idx + b by omega]
    constructor
    case above => omega
    case below => exact Nat.min_le_right _ _
    case clear =>
      intro x hx hxr
      have hxb : x - idx < b := by omega
      have hbit := hclear (x - idx) hxb
      rw [word_getLsbD bits invert hidx hmask (by omega),
        show idx + (x - idx) = x by omega, decide_eq_true hx,
        Bool.and_true] at hbit
      exact hbit
    case found =>
      intro hr
      rw [Nat.min_eq_left (by omega)]
      exact hset.1
  | case2 idx mask hlt hzero ih =>
    -- nothing is left of this word, and the next one is not masked
    have haligned : (idx + bitsPerLong) % bitsPerLong = 0 := by
      rwa [Nat.add_mod_right]
    have hnext := ih haligned (Nat.le_refl _) (Nat.le_add_right _ _)
      fun b hb => by rw [BitVec.getLsbD_not]; simp [hb]
    have hempty : ∀ x, lo ≤ x → x < idx + bitsPerLong →
        sought bits invert x = false := by
      intro x hx hxw
      have hb : x - idx < 64 := by
        simp only [bitsPerLong] at hxw
        omega
      have hbit := word_getLsbD bits invert hidx hmask hb
      rw [not_not.mp hzero, show idx + (x - idx) = x by omega,
        decide_eq_true hx, Bool.and_true] at hbit
      simpa using hbit.symm
    constructor
    case above =>
      intro hr
      have := hnext.above hr
      omega
    case below => exact hnext.below
    case clear =>
      intro x hx hxr
      rcases Nat.lt_or_ge x (idx + bitsPerLong) with hxw | hxw
      · exact hempty x hx hxw
      · exact hnext.clear x hxw hxr
    case found => exact hnext.found
  | case3 idx mask hge =>
    constructor
    case above => exact fun h => absurd h (Nat.lt_irrefl _)
    case below => exact Nat.le_refl _
    case clear => omega
    case found => exact fun h => absurd h (Nat.lt_irrefl _)

theorem bitmapFindNext_first (bits : Bitmap) (nbits pos : Nat) (invert : Bool) :
    FirstFrom (sought bits invert) nbits pos
      (bitmapFindNext bits nbits pos invert) := by
  have hsplit := Nat.div_add_mod pos bitsPerLong
  have hmod : pos % bitsPerLong < bitsPerLong := Nat.mod_lt _ (by decide)
  apply bitmapScan_first
  case hidx => exact Nat.mul_mod_left _ _
  case hlo => exact Nat.div_mul_le_self _ _
  case hword =>
    rw [Nat.mul_comm] at hsplit
    omega
  case hmask =>
    intro b hb
    rw [mask_getLsbD hmod hb, decide_eq_decide]
    rw [Nat.mul_comm] at hsplit
    omega

end Search

theorem bitmapFindNextSet_first (bits : Bitmap) (nbits pos : Nat) :
    FirstFrom (bitmapTest bits) nbits pos
      (bitmapFindNextSet bits nbits pos) := by
  have hset : sought bits false = bitmapTest bits := by
    funext x
    simp [sought]
  rw [← hset]
  exact bitmapFindNext_first bits nbits pos false

/-- How the body of a loop ends: it goes on to the next round, with `continue`
or at its end, it leaves the loop with `break`, or it stops the program. -/
inductive Flow (σ : Type)
  | next (s : σ)
  | stop (s : σ)
  | bug

variable {σ : Type}

/-- `bitmap_for_each_set`, with the first search from `pos` on. -/
def bitmapForEachSet (bits : Bitmap) (nbits : Nat) (body : Nat → σ → Flow σ)
    (pos : Nat) (s : σ) : Option σ :=
  if bitmapFindNextSet bits nbits pos < nbits then
    match body (bitmapFindNextSet bits nbits pos) s with
    | .next s =>
      bitmapForEachSet bits nbits body (bitmapFindNextSet bits nbits pos + 1)
        s
    | .stop s => some s
    | .bug => none
  else some s
termination_by nbits - pos
decreasing_by
  have hlt : bitmapFindNextSet bits nbits pos < nbits := by assumption
  have hpos := (bitmapFindNextSet_first bits nbits pos).above hlt
  omega

def foldFlow {α : Type} (body : α → σ → Flow σ) : List α → σ → Option σ
  | [], s => some s
  | x :: xs, s =>
    match body x s with
    | .next s => foldFlow body xs s
    | .stop s => some s
    | .bug => none

/-- The positions of the bits set in `[lo, hi)`. -/
def setBits (bits : Bitmap) (lo hi : Nat) : List Nat :=
  (List.range' lo (hi - lo)).filter (bitmapTest bits)

section Loops

variable {bits : Bitmap} {nbits pos r : Nat}

theorem FirstFrom.filter_nil {p : Nat → Bool} (h : FirstFrom p nbits pos r)
    (hr : ¬ r < nbits) : (List.range' pos (nbits - pos)).filter p = [] := by
  have heq : r = nbits := Nat.le_antisymm h.below (Nat.not_lt.mp hr)
  apply List.filter_eq_nil_iff.mpr
  intro x hx
  have hmem := List.mem_range'_1.mp hx
  simp [h.clear x hmem.1 (by omega)]

theorem FirstFrom.filter_cons {p : Nat → Bool} (h : FirstFrom p nbits pos r)
    (hr : r < nbits) :
    (List.range' pos (nbits - pos)).filter p =
      r :: (List.range' (r + 1) (nbits - (r + 1))).filter p := by
  have hpos := h.above hr
  have hsplit : List.range' pos (nbits - pos) = List.range' pos (r - pos) ++
      r :: List.range' (r + 1) (nbits - (r + 1)) := by
    have hlen : nbits - pos = (r - pos) + (1 + (nbits - (r + 1))) := by omega
    rw [hlen, ← List.range'_append_1, show pos + (r - pos) = r by omega,
      Nat.add_comm 1, List.range'_succ]
  have hclear : (List.range' pos (r - pos)).filter p = [] := by
    apply List.filter_eq_nil_iff.mpr
    intro x hx
    have hmem := List.mem_range'_1.mp hx
    simp [h.clear x hmem.1 (by omega)]
  rw [hsplit, List.filter_append, hclear, List.nil_append,
    List.filter_cons_of_pos (h.found hr)]

theorem setBits_nil (h : FirstFrom (bitmapTest bits) nbits pos r)
    (hr : ¬ r < nbits) : setBits bits pos nbits = [] :=
  h.filter_nil hr

theorem setBits_cons (h : FirstFrom (bitmapTest bits) nbits pos r)
    (hr : r < nbits) :
    setBits bits pos nbits = r :: setBits bits (r + 1) nbits :=
  h.filter_cons hr

/-- A loop over a bitmap visits the bits that are set, in ascending order. -/
theorem bitmapForEachSet_eq (body : Nat → σ → Flow σ) (s : σ) :
    bitmapForEachSet bits nbits body pos s =
      foldFlow body (setBits bits pos nbits) s := by
  have hfirst := fun pos => bitmapFindNextSet_first bits nbits pos
  fun_induction bitmapForEachSet bits nbits body pos s with
  | case1 pos s hlt s' hbody ih =>
    rw [setBits_cons (hfirst pos) hlt, foldFlow, hbody]
    exact ih
  | case2 pos s hlt s' hbody | case3 pos s hlt hbody =>
    rw [setBits_cons (hfirst pos) hlt, foldFlow, hbody]
  | case4 pos s hge =>
    rw [setBits_nil (hfirst pos) hge, foldFlow]

end Loops

end Libut.Base
